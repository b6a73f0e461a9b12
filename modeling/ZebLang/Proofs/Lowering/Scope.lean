/-
  Programs that can be lowered, and what is wrong with the others.

  A program is well scoped if its statements are exits, assignments and loops over ranges, if every field
  holds what belongs there, and if every name that is read was bound by an earlier statement
  (`WellScoped`).

  What is wrong with any other list of data can be listed, in the order in which lowering comes to it
  (`violations`): statements one after the other, the fields of a node before its parts, the left operand
  before the right one, the operands before their operator and the argument of a call before its name; in
  a loop, that it does not count comes before what it goes over.  Nothing is wrong just with the programs
  that are well scoped (`violations_eq_nil_iff`).
-/

import ZebLang.Datum.Printer

namespace ZebLang

/-! ## Well-scoped programs -/

/-- `bindName known name`: the names that are known after `name` was bound, each once and the latest first.
    -/
def bindName (known : List String) (name : String) : List String := name :: known.filter (· != name)

/-- `Scoped known d`: an expression whose fields hold what belongs there and whose names are in `known`. -/
inductive Scoped (known : List String) : Datum → Prop where
  | literal {tag : Tag Datum} {n : Int} (hmin : Cause.literalMin ≤ n) (hmax : n ≤ Cause.literalMax) :
      Scoped known (.literal tag (.int n))
  | reference {tag : Tag Datum} {name : String} (hname : name ≠ "") (hknown : name ∈ known) :
      Scoped known (.reference tag (.text name))
  | binary {tag : Tag Datum} {left right : Datum} {operator : String} (hoperator : operator ∈ ["+", "-", "*"])
      (hleft : Scoped known left) (hright : Scoped known right) :
      Scoped known (.binary tag left (.text operator) right)
  | call {tag : Tag Datum} {name : String} {argument : Datum} (hname : name ∈ ["print", "range"])
      (hargument : Scoped known argument) : Scoped known (.call tag (.text name) argument)

/-- `WellScoped known statements`: a statement list each of whose expressions is `Scoped` by `known` and the
    names that earlier statements bound. -/
inductive WellScoped : List String → List Datum → Prop where
  | nil {known : List String} : WellScoped known []
  | exit {known : List String} {tag : Tag Datum} {e : Datum} {rest : List Datum} (he : Scoped known e)
      (hrest : WellScoped known rest) : WellScoped known (.exit tag e :: rest)
  | assign {known : List String} {tag : Tag Datum} {name : String} {e : Datum} {rest : List Datum}
      (hname : name ≠ "") (he : Scoped known e) (hrest : WellScoped (bindName known name) rest) :
      WellScoped known (.assign tag (.text name) e :: rest)
  | loop {known : List String} {tag inner : Tag Datum} {name : String} {bound : Datum} {rest : List Datum}
      (hname : name ≠ "") (he : Scoped known (.call inner (.text "range") bound))
      (hrest : WellScoped (bindName known name) rest) :
      WellScoped known (.loop tag (.text name) (.call inner (.text "range") bound) :: rest)

/-! ## Violations -/

/-- What may be wrong, and with which node. -/
inductive Violation where
  /-- The node, or whatever stands in its place, is none that can be lowered there. -/
  | unrecognized (node : Datum)
  /-- A field of the node holds something else than it should. -/
  | field (node : Datum) (label : String) (held : Datum) (reason : String)
  /-- A name is read while only others are known. -/
  | undeclaredVariable (node : Datum) (name : String) (known : List String)
  | undeclaredFunction (node : Datum) (name : String)
  | unsupportedOperator (node : Datum) (operator : String)
  /-- The node ends the body of a loop. -/
  | loopBody (node : Datum)
  /-- The loop `node` goes over `e`, which is no range. -/
  | iterable (node e : Datum)

namespace Violation

/-- The place of what is wrong. -/
def place : Violation → Option Origin
  | unrecognized node | field node _ _ _ | undeclaredVariable node _ _ | undeclaredFunction node _
  | unsupportedOperator node _ | loopBody node => node.location?
  | iterable node e => Origin.orElse e.location? node.location?

/-- What is reported.  What a field holds is quoted, if it can be written. -/
def cause : Violation → Except Fault Cause
  | unrecognized node => .ok (.malformed node.typeName none)
  | field node label held reason => do
      let text ← held.structural
      return .malformed node.typeName (some (label ++ " " ++ text ++ " " ++ reason))
  | undeclaredVariable _ name known => .ok (.undeclared name known)
  | undeclaredFunction _ name => .ok (.undeclaredFunction name)
  | unsupportedOperator _ operator => .ok (.unsupportedOperator operator)
  | loopBody _ =>
      .ok (.notImplemented "loop bodies (endfor)"
        (some "a for statement currently only counts; remove the endfor"))
  | iterable _ _ =>
      .ok (.notImplemented "for-loop over something other than range(...)"
        (some "write 'for i in range(n)'"))

/-- The fault by which lowering stops: the report at its place.  A number that is too long to be quoted is
    a fault of its own. -/
def fault (v : Violation) : Fault :=
  match v.cause with
  | .ok cause => .report cause v.place
  | .error tooLong => tooLong

end Violation

/-- `faultsOf vs`: the faults by which the violations `vs` stop lowering. -/
def faultsOf (vs : List Violation) : List Fault := vs.map Violation.fault

theorem faultsOf_append (vs ws : List Violation) : faultsOf (vs ++ ws) = faultsOf vs ++ faultsOf ws :=
  List.map_append

/-! ## Fields -/

/-- The value of a literal is an integer that fits a register. -/
def valueViolations (node : Datum) : Datum → List Violation
  | .int n =>
      if Cause.literalMin ≤ n ∧ n ≤ Cause.literalMax then []
      else [.field node "value" (.int n) "does not fit in 64 bits"]
  | held => [.field node "value" held "is not an integer"]

/-- A name is a text, and not empty. -/
def nameViolations (node : Datum) : Datum → List Violation
  | .text word => if word = "" then [.field node "name" (.text word) "is not an identifier"] else []
  | held => [.field node "name" held "is not an identifier"]

/-- An operator is a text. -/
def operatorViolations (node : Datum) : Datum → List Violation
  | .text _ => []
  | held => [.field node "operator" held "is not a string"]

/-- A name that is read is known. -/
def referenceViolations (known : List String) (node : Datum) : Datum → List Violation
  | .text name => if name ∈ known then [] else [.undeclaredVariable node name known]
  | _ => []

/-- An operator is one of three. -/
def supportViolations (node : Datum) : Datum → List Violation
  | .text operator => if operator ∈ ["+", "-", "*"] then [] else [.unsupportedOperator node operator]
  | _ => []

/-- A function is one of two. -/
def functionViolations (node : Datum) : Datum → List Violation
  | .text name => if name ∈ ["print", "range"] then [] else [.undeclaredFunction node name]
  | _ => []

/-- The checks that are made of a field, one for each of the lists above. -/
inductive Check where
  | value
  | name
  | operator
  | reference
  | support
  | function

namespace Check

/-- What a check finds wrong with a node because of what one of its fields holds. -/
def violations (known : List String) (node held : Datum) : Check → List Violation
  | value => valueViolations node held
  | name => nameViolations node held
  | operator => operatorViolations node held
  | reference => referenceViolations known node held
  | support => supportViolations node held
  | function => functionViolations node held

/-- Whether a check asks for the form of what a field holds, and quotes it where it is wrong. -/
def quotes : Check → Bool
  | value | name | operator => true
  | reference | support | function => false

end Check

/-- The violations that a check may find: the field is quoted, or the word in it is named. -/
inductive Violation.FoundBy (known : List String) (node held : Datum) : Check → Violation → Prop where
  | field {check : Check} {label reason : String} (hquotes : check.quotes = true) :
      FoundBy known node held check (.field node label held reason)
  | undeclaredVariable {name : String} (hname : name ∉ known) :
      FoundBy known node held .reference (.undeclaredVariable node name known)
  | unsupportedOperator {operator : String} :
      FoundBy known node held .support (.unsupportedOperator node operator)
  | undeclaredFunction {name : String} :
      FoundBy known node held .function (.undeclaredFunction node name)

/-- `Check.violations` holds only what the check may find. -/
theorem Check.foundBy {known : List String} {node held : Datum} {check : Check} {v : Violation}
    (h : v ∈ check.violations known node held) : v.FoundBy known node held check := by
  cases check with
  | value =>
    rw [violations, valueViolations.eq_def] at h
    split at h
    · split at h
      · cases h
      · exact List.mem_singleton.mp h ▸ .field rfl
    · exact List.mem_singleton.mp h ▸ .field rfl
  | name =>
    rw [violations, nameViolations.eq_def] at h
    split at h
    · split at h
      · exact List.mem_singleton.mp h ▸ .field rfl
      · cases h
    · exact List.mem_singleton.mp h ▸ .field rfl
  | operator =>
    rw [violations, operatorViolations.eq_def] at h
    split at h
    · cases h
    · exact List.mem_singleton.mp h ▸ .field rfl
  | reference =>
    rw [violations, referenceViolations.eq_def] at h
    split at h
    · split at h
      · cases h
      · next hname => exact List.mem_singleton.mp h ▸ .undeclaredVariable hname
    · cases h
  | support =>
    rw [violations, supportViolations.eq_def] at h
    split at h
    · split at h
      · cases h
      · exact List.mem_singleton.mp h ▸ .unsupportedOperator
    · cases h
  | function =>
    rw [violations, functionViolations.eq_def] at h
    split at h
    · split at h
      · cases h
      · exact List.mem_singleton.mp h ▸ .undeclaredFunction
    · cases h

/-! ## Nodes -/

/-- What is wrong with an expression. -/
def expressionViolations (known : List String) : Datum → List Violation
  | .literal tag value => valueViolations (.literal tag value) value
  | .reference tag name =>
      let node := Datum.reference tag name
      nameViolations node name ++ referenceViolations known node name
  | .binary tag left operator right =>
      let node := Datum.binary tag left operator right
      operatorViolations node operator ++ (expressionViolations known left ++
        (expressionViolations known right ++ supportViolations node operator))
  | .call tag name argument =>
      let node := Datum.call tag name argument
      nameViolations node name ++ (expressionViolations known argument ++ functionViolations node name)
  | other => [.unrecognized other]

/-- A loop goes over a range. -/
def iterableViolations (node : Datum) : Datum → List Violation
  | .call _ (.text "range") _ => []
  | .call tag name argument =>
      let call := Datum.call tag name argument
      nameViolations call name ++ [.iterable node call]
  | e => [.iterable node e]

/-- What is wrong with a statement. -/
def statementViolations (known : List String) : Datum → List Violation
  | .exit _ e => expressionViolations known e
  | .assign tag name e =>
      nameViolations (.assign tag name e) name ++ expressionViolations known e
  | .loop tag name e =>
      let node := Datum.loop tag name e
      nameViolations node name ++ (iterableViolations node e ++ expressionViolations known e)
  | .endLoop tag => [.loopBody (.endLoop tag)]
  | other => [.unrecognized other]

/-- The names that are known after a statement. -/
def namesAfter (known : List String) : Datum → List String
  | .assign _ (.text name) _ | .loop _ (.text name) _ => bindName known name
  | _ => known

/-- What is wrong with a statement list, in the order in which lowering comes to it. -/
def violations (known : List String) : List Datum → List Violation
  | [] => []
  | d :: rest => statementViolations known d ++ violations (namesAfter known d) rest

/-- `statementViolations` of what is no statement: it is unrecognized as a whole. -/
theorem statementViolations_of_not_isStatement {known : List String} {d : Datum}
    (h : d.isStatement = false) : statementViolations known d = [.unrecognized d] := by
  cases d with
  | exit | assign | loop | endLoop => cases h
  | _ => rfl

/-! ## Nothing is wrong with well-scoped programs -/

/-- `valueViolations` is empty just on an integer in the range of literals. -/
theorem valueViolations_eq_nil_iff {node value : Datum} :
    valueViolations node value = [] ↔
      ∃ n, value = .int n ∧ Cause.literalMin ≤ n ∧ n ≤ Cause.literalMax := by
  constructor
  · intro h
    unfold valueViolations at h
    split at h
    · next n =>
      split at h
      · next hfits => exact ⟨n, rfl, hfits⟩
      · cases h
    · cases h
  · rintro ⟨n, rfl, hfits⟩
    exact if_pos hfits

/-- `nameViolations` is empty just on a text that is not empty. -/
theorem nameViolations_eq_nil_iff {node name : Datum} :
    nameViolations node name = [] ↔ ∃ word, name = .text word ∧ word ≠ "" := by
  constructor
  · intro h
    unfold nameViolations at h
    split at h
    · next word =>
      split at h
      · cases h
      · next hne => exact ⟨word, rfl, hne⟩
    · cases h
  · rintro ⟨word, rfl, hne⟩
    exact if_neg hne

theorem operatorViolations_eq_nil_iff {node operator : Datum} :
    operatorViolations node operator = [] ↔ ∃ word, operator = .text word := by
  constructor
  · intro h
    unfold operatorViolations at h
    split at h
    · next word => exact ⟨word, rfl⟩
    · cases h
  · rintro ⟨word, rfl⟩
    rfl

theorem unless_eq_nil_iff {p : Prop} [Decidable p] {v : Violation} :
    (if p then [] else [v]) = [] ↔ p := by
  by_cases h : p
  · simp [h]
  · simp [h]

/-- `referenceViolations` is empty just on a known name. -/
theorem referenceViolations_eq_nil_iff {known : List String} {node : Datum} {name : String} :
    referenceViolations known node (.text name) = [] ↔ name ∈ known := unless_eq_nil_iff

theorem supportViolations_eq_nil_iff {node : Datum} {operator : String} :
    supportViolations node (.text operator) = [] ↔ operator ∈ ["+", "-", "*"] := unless_eq_nil_iff

theorem functionViolations_eq_nil_iff {node : Datum} {name : String} :
    functionViolations node (.text name) = [] ↔ name ∈ ["print", "range"] := unless_eq_nil_iff

/-- `expressionViolations` is empty just if the expression is `Scoped`. -/
theorem expressionViolations_eq_nil_iff {known : List String} {d : Datum} :
    expressionViolations known d = [] ↔ Scoped known d := by
  constructor
  · intro h
    induction d using expressionViolations.induct with
    | case1 tag value =>
      obtain ⟨n, rfl, hmin, hmax⟩ := valueViolations_eq_nil_iff.mp h
      exact .literal hmin hmax
    | case2 tag name =>
      obtain ⟨hname, hknown⟩ := List.append_eq_nil_iff.mp h
      obtain ⟨word, rfl, hne⟩ := nameViolations_eq_nil_iff.mp hname
      exact .reference hne (referenceViolations_eq_nil_iff.mp hknown)
    | case3 tag left operator right ihleft ihright =>
      obtain ⟨hoperator, hparts⟩ := List.append_eq_nil_iff.mp h
      obtain ⟨hleft, hparts⟩ := List.append_eq_nil_iff.mp hparts
      obtain ⟨hright, hsupport⟩ := List.append_eq_nil_iff.mp hparts
      obtain ⟨word, rfl⟩ := operatorViolations_eq_nil_iff.mp hoperator
      exact .binary (supportViolations_eq_nil_iff.mp hsupport) (ihleft hleft) (ihright hright)
    | case4 tag name argument ih =>
      obtain ⟨hname, hparts⟩ := List.append_eq_nil_iff.mp h
      obtain ⟨hargument, hfunction⟩ := List.append_eq_nil_iff.mp hparts
      obtain ⟨word, rfl, -⟩ := nameViolations_eq_nil_iff.mp hname
      exact .call (functionViolations_eq_nil_iff.mp hfunction) (ih hargument)
    | case5 d hliteral hreference hbinary hcall =>
      rw [expressionViolations] at h
      · cases h
      all_goals assumption
  · intro h
    induction h with
    | literal hmin hmax => exact valueViolations_eq_nil_iff.mpr ⟨_, rfl, hmin, hmax⟩
    | reference hname hknown =>
      exact List.append_eq_nil_iff.mpr ⟨nameViolations_eq_nil_iff.mpr ⟨_, rfl, hname⟩,
        referenceViolations_eq_nil_iff.mpr hknown⟩
    | binary hoperator hleft hright ihleft ihright =>
      rw [expressionViolations, ihleft, ihright, supportViolations_eq_nil_iff.mpr hoperator]
      rfl
    | @call tag name argument hname hargument ih =>
      have hne : name ≠ "" := by
        rintro rfl
        exact absurd hname (by decide)
      rw [expressionViolations, ih, functionViolations_eq_nil_iff.mpr hname,
        nameViolations_eq_nil_iff.mpr ⟨name, rfl, hne⟩]
      rfl

/-- `iterableViolations` is empty just on a call of `range`. -/
theorem iterableViolations_eq_nil_iff {node e : Datum} :
    iterableViolations node e = [] ↔ ∃ tag bound, e = .call tag (.text "range") bound := by
  constructor
  · intro h
    unfold iterableViolations at h
    split at h
    · next tag bound => exact ⟨tag, bound, rfl⟩
    · simp at h
    · cases h
  · rintro ⟨tag, bound, rfl⟩
    rfl

/-- `violations` is empty just if the statement list is `WellScoped`. -/
theorem violations_eq_nil_iff {known : List String} {statements : List Datum} :
    violations known statements = [] ↔ WellScoped known statements := by
  constructor
  · intro h
    induction statements generalizing known with
    | nil => exact .nil
    | cons d rest ih =>
      obtain ⟨hfirst, hrest⟩ := List.append_eq_nil_iff.mp h
      have hscoped := ih hrest
      unfold statementViolations at hfirst
      split at hfirst
      · exact .exit (expressionViolations_eq_nil_iff.mp hfirst) hscoped
      · obtain ⟨hname, he⟩ := List.append_eq_nil_iff.mp hfirst
        obtain ⟨word, rfl, hne⟩ := nameViolations_eq_nil_iff.mp hname
        exact .assign hne (expressionViolations_eq_nil_iff.mp he) hscoped
      · obtain ⟨hname, hparts⟩ := List.append_eq_nil_iff.mp hfirst
        obtain ⟨hover, he⟩ := List.append_eq_nil_iff.mp hparts
        obtain ⟨word, rfl, hne⟩ := nameViolations_eq_nil_iff.mp hname
        obtain ⟨tag, bound, rfl⟩ := iterableViolations_eq_nil_iff.mp hover
        exact .loop hne (expressionViolations_eq_nil_iff.mp he) hscoped
      · cases hfirst
      · cases hfirst
  · intro h
    induction h with
    | nil => rfl
    | exit he hrest ih =>
      rw [violations, statementViolations, expressionViolations_eq_nil_iff.mpr he]
      exact ih
    | assign hname he hrest ih =>
      rw [violations, statementViolations, expressionViolations_eq_nil_iff.mpr he,
        nameViolations_eq_nil_iff.mpr ⟨_, rfl, hname⟩]
      exact ih
    | loop hname he hrest ih =>
      rw [violations, statementViolations, expressionViolations_eq_nil_iff.mpr he,
        nameViolations_eq_nil_iff.mpr ⟨_, rfl, hname⟩, iterableViolations_eq_nil_iff.mpr ⟨_, _, rfl⟩]
      exact ih

end ZebLang
