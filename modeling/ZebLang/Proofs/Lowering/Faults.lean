/-
  How lowering can stop, on data of any sort.

  The fields of a node are checked by its kind, but the node is lowered by the rule that its title names.
  Where the two differ, the rule may ask for a field that the node does not have (`Datum.lacking?`); and
  then lowering ends without a diagnostic.  It does so too where a number has to be quoted, or shown in a
  comment, that is too long to be written, and where an expression is lowered by the rule of an `exit`.

  `StopOf` says this once, node by node.  One walk shows that lowering stops in no other way: what one piece
  does (`Runs`), then each rule (`runs_rule`), and from these by induction an expression (`runs_expression`)
  and a list of statements (`stops_lower`).
-/

import ZebLang.Proofs.Datum.Writing
import ZebLang.Proofs.Lowering.Diagnosis
import ZebLang.Proofs.Lowering.Rejection

namespace ZebLang

open Lowering

/-! ## Fields that are asked for -/

/-- `a.data`: all that was added, names and operators apart. -/
def Additions.data {δ : Type} (a : Additions δ) : List δ :=
  a.expression.toList ++ (a.left.toList ++ (a.right.toList ++ (a.argument.toList ++ a.value.toList)))

theorem Additions.mem_data {δ : Type} {a : Additions δ} {x : δ} :
    x ∈ a.data ↔ x ∈ a.expression ∨ x ∈ a.left ∨ x ∈ a.right ∨ x ∈ a.argument ∨ x ∈ a.value := by
  simp only [data, List.mem_append, Option.mem_toList, Option.mem_def]

theorem Additions.All.of_mem_data {δ : Type} {a : Additions δ} {p : δ → Prop} (h : a.All p) :
    ∀ x ∈ a.data, p x := by
  intro x hx
  rcases mem_data.mp hx with hx | hx | hx | hx | hx
  · exact h.expression x hx
  · exact h.left x hx
  · exact h.right x hx
  · exact h.argument x hx
  · exact h.value x hx

namespace Datum

/-- `d.operands`: the expressions that a node has by its kind. -/
def operands : Datum → List Datum
  | exit _ e | assign _ _ e | loop _ _ e | call _ _ e => [e]
  | binary _ left _ right => [left, right]
  | _ => []

/-- `d.asked`: the fields that the rule of `d` asks for, in this order, and whether `d` has them. -/
def asked (d : Datum) : List (String × Bool) :=
  match d.rule? with
  | some .exit => [("expression", d.expression?.isSome)]
  | some .assign | some .loop => [("expression", d.expression?.isSome), ("name", d.name?.isSome)]
  | some .literal => [("value", isPlain d || d.added.value.isSome)]
  | some .reference => [("name", d.name?.isSome)]
  | some .binary =>
      [("left", isPlain d || d.added.left.isSome), ("right", isPlain d || d.added.right.isSome),
        ("operator", isPlain d || d.added.operator.isSome)]
  | some .call => [("argument", isPlain d || d.added.argument.isSome), ("name", d.name?.isSome)]
  | _ => []

/-- `d.lacking?`: the first field that the rule of `d` asks for and `d` lacks. -/
def lacking? (d : Datum) : Option String := (d.asked.find? fun field => !field.2).map Prod.fst

/-- `d.isFilled`: every node of a statement or an expression has the fields that its rule asks for. -/
def isFilled : Datum → Bool
  | exit tag e => (Datum.exit tag e).lacking?.isNone && e.isFilled
  | assign tag name e => (Datum.assign tag name e).lacking?.isNone && e.isFilled
  | loop tag name e => (Datum.loop tag name e).lacking?.isNone && e.isFilled
  | binary tag left operator right =>
      (Datum.binary tag left operator right).lacking?.isNone && (left.isFilled && right.isFilled)
  | call tag name argument => (Datum.call tag name argument).lacking?.isNone && argument.isFilled
  | d => d.lacking?.isNone

/-- `d.places`: the places of the nodes of a statement or an expression. -/
def places : Datum → List Origin
  | exit tag e | assign tag _ e | loop tag _ e | call tag _ e => tag.location.toList ++ e.places
  | binary tag left _ right => tag.location.toList ++ (left.places ++ right.places)
  | d => d.location?.toList

/-- `lacking?` finds nothing in a node that `isFilled`. -/
theorem lacking?_of_isFilled {d : Datum} (h : d.isFilled = true) : d.lacking? = .none := by
  cases d with
  | exit | assign | loop | binary | call =>
    rw [isFilled, Bool.and_eq_true] at h
    exact Option.isNone_iff_eq_none.mp h.1
  | _ => exact Option.isNone_iff_eq_none.mp h

/-- The place of a node is one of its `places`. -/
theorem mem_places_of_location {d : Datum} {place : Origin} (h : place ∈ d.location?) : place ∈ d.places := by
  cases d with
  | exit | assign | loop | binary | call =>
    rw [places]
    exact List.mem_append_left _ (Option.mem_toList.mpr h)
  | _ => exact Option.mem_toList.mpr h

/-- The `places` of an operand are places of the node. -/
theorem mem_places_of_operand {d e : Datum} {place : Origin} (he : e ∈ d.operands) (h : place ∈ e.places) :
    place ∈ d.places := by
  cases d with
  | exit | assign | loop | call =>
    cases List.mem_singleton.mp he
    exact List.mem_append_right _ h
  | binary =>
    rcases he with _ | ⟨_, _ | ⟨_, ⟨⟩⟩⟩
    · exact List.mem_append_right _ (List.mem_append_left _ h)
    · exact List.mem_append_right _ (List.mem_append_right _ h)
  | _ => cases he

end Datum

/-! ## Stops -/

/-- `treeCategories`: the categories under which data of any sort may not be lowered. -/
def treeCategories : List Category := .malformedProgram :: loweringCategories

/-- `StopOf d fault g`: how the lowering of `d` can stop in a frame `g`.

    * By a report in one of the `treeCategories`, at the node.  A name that is reported as undeclared has no
      slot in the frame, and what is suggested is chosen from the names that have one.
    * By the report that a loop goes over no range, at what it goes over or else at the loop.
    * The node lacks a field that its rule asks for.
    * The node has a number that is too long to be written.
    * An extended node is lowered as an `exit`, which takes the value back that an expression should leave.
    * So stops the lowering of an operand, or of something that was added to an extended node. -/
inductive StopOf : Datum → Fault → Frame → Prop where
  | report {d : Datum} {cause : Cause} {category : Category} {g : Frame}
      (hcause : cause.category = some category) (hcategory : category ∈ treeCategories)
      (hundeclared : ∀ x similar, cause = .undeclaredVariable x similar →
        x ∉ g.names ∧ similar = Text.closeMatches x (Cause.ascending g.names)) :
      StopOf d (.report cause d.location?) g
  | iterable {d e : Datum} {g : Frame} (hrule : d.rule? = some .loop) (he : d.expression? = some e) :
      StopOf d (iterableFault d e) g
  | missing {d : Datum} {field : String} {g : Frame} (hlacking : d.lacking? = some field) :
      StopOf d (.missingField d.typeName field) g
  | unwritable {d : Datum} {g : Frame} (hlong : d.structural = .error .unwritable) : StopOf d .unwritable g
  | unbalanced {d : Datum} {g : Frame} (hextended : d.isExtended = true) (hrule : d.rule? = some .exit) :
      StopOf d (.unbalanced d.typeName g.depth (g.depth + 1)) g
  | operand {d e : Datum} {fault : Fault} {g : Frame} (he : e ∈ d.operands) (h : StopOf e fault g) :
      StopOf d fault g
  | added {d e : Datum} {fault : Fault} {g : Frame} (hextended : d.isExtended = true) (he : e ∈ d.added.data)
      (h : StopOf e fault g) : StopOf d fault g

section Stops

variable {d e : Datum} {fault : Fault} {g : Frame}

/-- `StopOf` by a report on anything but an undeclared name. -/
theorem StopOf.reported {cause : Cause} {category : Category} (hcause : cause.category = some category)
    (hcategory : category ∈ treeCategories) (hother : ∀ x similar, cause ≠ .undeclaredVariable x similar) :
    StopOf d (.report cause d.location?) g :=
  .report hcause hcategory fun x similar h => absurd h (hother x similar)

/-- `StopOf` by a node that cannot be lowered there. -/
theorem StopOf.malformed (detail : Option String) : StopOf d (malformed d detail) g :=
  .reported rfl (by decide) nofun

/-- `StopOf` by what only fails on a number that is too long. -/
theorem StopOf.of_covers {α : Type} {x : Except Fault α} (hx : d.Covers x) (h : x = .error fault) :
    StopOf d fault g := by
  obtain ⟨rfl, hlong⟩ := hx fault h
  exact .unwritable hlong

/-- `isExtended` holds of a node that is not plain and has something besides, if its rule can be lowered. -/
theorem Datum.isExtended_of_mem_data (hplain : isPlain d = false) (hrule : d.rule?.any Kind.isLowered = true)
    (he : e ∈ d.added.data) : d.isExtended = true := by
  have hadded : d.added.isEmpty = false := by
    refine Bool.eq_false_iff.mpr fun hempty => ?_
    rw [Additions.eq_of_isEmpty hempty] at he
    cases he
  rw [isExtended, hplain, hrule, hadded]
  rfl

/-- `expression?` is an operand, or it was added to a node whose kind has none. -/
theorem Datum.operand_or_added (he : d.expression? = some e) :
    e ∈ d.operands ∨ d.kind?.any Kind.hasExpression = false ∧ e ∈ d.added.data := by
  have hadded : d.added.expression = some e → e ∈ d.added.data := fun h => Additions.mem_data.mpr (.inl h)
  cases d with
  | exit | assign | loop =>
    cases he
    exact .inl (.head _)
  | bare tag family =>
    refine .inr ⟨?_, hadded he⟩
    cases family with
    | node | statement | expression => rfl
  | _ => exact .inr ⟨rfl, hadded he⟩

/-- `StopOf` passes from the expression that a rule asks for to the node. -/
theorem StopOf.expression (h : StopOf e fault g) (hrule : d.rule?.any Kind.hasExpression = true)
    (he : d.expression? = some e) : StopOf d fault g := by
  rcases Datum.operand_or_added he with hoperand | ⟨hkind, hadded⟩
  · exact .operand hoperand h
  · have hplain : isPlain d = false := by
      refine Bool.eq_false_iff.mpr fun hplain => ?_
      rw [← rule_of_isPlain hplain, hrule] at hkind
      cases hkind
    obtain ⟨kind, hkind, hlowered⟩ := Datum.exists_rule_of_hasExpression hrule
    have hlowered : d.rule?.any Kind.isLowered = true := by rw [hkind, Option.any_some, hlowered]
    exact .added (Datum.isExtended_of_mem_data hplain hlowered hadded) hadded h

/-- `StopOf` by a check that quotes a field. -/
theorem StopOf.of_checks {α : Type} {x : Except Fault α} {held : Datum} {given : α → Prop} (check : Check)
    (hx : Checks x (check.violations [] d held) given) (hquotes : check.quotes = true)
    (hheld : held ∈ d.fields) (h : x = .error fault) : StopOf d fault g := by
  rw [h] at hx
  obtain ⟨v, hv, rfl⟩ := hx
  cases check.foundBy (List.mem_of_mem_head? hv) with
  | field =>
    cases hwritten : held.structural with
    | ok text =>
      rw [Violation.fault, Violation.cause, hwritten]
      exact .malformed _
    | error tooLong =>
      obtain ⟨rfl, hlong⟩ := (held.covers_structural.field hheld) tooLong hwritten
      rw [Violation.fault, Violation.cause, hwritten]
      exact .unwritable hlong
  | _ => cases hquotes

end Stops

/-! ## Pieces -/

namespace Lowering

/-- `Runs d n x m`: from depth `n` the piece `x` goes to depth `m`, or it stops as the lowering of `d` can. -/
def Runs (d : Datum) (n : Nat) (x : Lowering Unit) (m : Nat) : Prop :=
  Specified (·.depth = n) x (fun _ g => g.depth = m) (StopOf d)

namespace Runs

variable {d e : Datum} {n m k : Nat} {x y : Lowering Unit}

/-- `Runs` composes: one step after another. -/
theorem seq (hx : Runs d n x k) (hy : Runs d k y m) : Runs d n (x >>= fun _ => y) m :=
  Specified.bind hx fun _ => hy

/-- `Runs` passes from a part to the whole. -/
theorem whole (hx : Runs e n x m) (hpart : ∀ {fault g}, StopOf e fault g → StopOf d fault g) : Runs d n x m :=
  hx.mono (fun _ _ h => h) fun _ _ => hpart

/-- `Runs` for a step that stops. -/
theorem throw {fault : Fault} (h : ∀ g, StopOf d fault g) : Runs d n (MonadExcept.throw fault) m :=
  fun g _ => h g

/-- `Runs` for a field that the rule asks for. -/
theorem ask {α : Type} {field : String} {found : Option α} {next : α → Lowering Unit}
    (hlacking : found = none → d.lacking? = some field)
    (hnext : ∀ a, found = some a → Runs d n (next a) m) :
    Runs d n (Lowering.check (d.ask field found) >>= next) m := by
  cases found with
  | some a => exact hnext a rfl
  | none => exact fun g _ => .missing (hlacking rfl)

/-- `Runs` for a node that may be lowered as an `exit` but is not. -/
theorem one {other : Frame → Prop} (hx : Runs d n x (n + 1)) :
    Specified (·.depth = n) x (fun _ g => g.depth = n + 1 ∨ other g) (StopOf d) :=
  hx.mono (fun _ _ => .inl) fun _ _ h => h

/-- `Runs` for `leavingOne`: the code leaves one more value, or the node is lowered as an `exit`. -/
theorem leavingOne
    (hx : Specified (·.depth = n) x
      (fun _ g => g.depth = n + 1 ∨ g.depth = n ∧ d.isExtended = true ∧ d.rule? = some .exit) (StopOf d)) :
    Runs d n (Lowering.leavingOne d x) (n + 1) := by
  refine Specified.get fun f hf => ?_
  obtain rfl : f.depth = n := hf
  have hfrom : Specified (· = f) x
      (fun _ g => g.depth = f.depth + 1 ∨ g.depth = f.depth ∧ d.isExtended = true ∧ d.rule? = some .exit)
      (StopOf d) := by
    rintro g rfl
    exact hx g rfl
  refine Specified.bind hfrom fun _ => Specified.get ?_
  rintro g hg g' rfl
  dsimp only
  rcases hg with hdepth | ⟨hdepth, hextended, hrule⟩
  · rw [if_neg (not_not_intro hdepth)]
    exact hdepth
  · rw [if_pos (by rw [hdepth]; exact Nat.ne_of_lt (Nat.lt_succ_self _)), ← hdepth]
    exact .unbalanced hextended hrule

end Runs

section Pieces

variable {d : Datum} {n : Nat}

theorem runs_literal (v : Int) : Runs d n (lowerLiteral v) (n + 1) := by
  rintro f rfl
  exact rfl

theorem runs_verbatim (text : String) : Runs d n (lowerVerbatim text) (n + 1) := by
  rintro f rfl
  exact rfl

/-- `lowerReference` leaves one more value, or reports a name without a slot. -/
theorem runs_reference (name : String) : Runs d n (lowerReference name d.location?) (n + 1) := by
  rintro f rfl
  rcases reference_cases f name d.location? with ⟨g, hrun⟩ | ⟨hslot, hrun⟩
  · obtain ⟨slot, -, hgains, -⟩ := gains_reference hrun
    rw [hrun]
    exact hgains.depth
  · rw [hrun]
    refine .report rfl (by decide) ?_
    rintro x similar ⟨⟩
    exact ⟨Frame.lookup_eq_none_iff.mp hslot, rfl⟩

/-- `lowerOperator` takes two values and leaves one, or reports the operator. -/
theorem runs_operator (operator : String) : Runs d (n + 2) (lowerOperator operator d.location?) (n + 1) := by
  intro f hf
  rcases operator_cases operator d.location? hf with ⟨g, hrun⟩ | ⟨-, hrun⟩
  · obtain ⟨combine, depth, -, hdepth, hgains, -⟩ := gains_operator hrun
    rw [hrun]
    show g.depth = n + 1
    rw [hgains.depth]
    omega
  · rw [hrun]
    exact .reported rfl (by decide) nofun

/-- `lowerCall` keeps the depth, or reports the function. -/
theorem runs_call (name : String) : Runs d (n + 1) (lowerCall name d.location?) (n + 1) := by
  intro f hf
  rcases call_cases name d.location? hf with ⟨g, hrun⟩ | ⟨-, hrun⟩
  · rw [hrun]
    show g.depth = n + 1
    rcases gains_call hrun with ⟨-, hgains, -⟩ | ⟨-, hgains, -⟩
    · rw [hgains.depth, hf]
    · rw [hgains.depth, hf]
  · rw [hrun]
    exact .reported rfl (by decide) nofun

/-- `lowerExit` takes a value off the stack. -/
theorem runs_exit : Runs d (n + 1) lowerExit n := by
  intro f hf
  obtain ⟨g, hrun, hgains, -⟩ := exit_runs hf
  rw [hrun]
  exact hgains.depth

/-- `lowerBinding` leaves the value, and asks for the name behind it. -/
theorem runs_binding {code : Lowering Unit} {name : Option String} (hcode : Runs d n code (n + 1))
    (hname : name = none → d.lacking? = some "name") : Runs d n (lowerBinding d code name) (n + 1) := by
  refine Specified.get fun f hf => ?_
  rintro g rfl
  exact hcode.seq (.ask hname fun word _ _ hdepth => hdepth) g hf

end Pieces

/-- `lowerByTitle`, for an expression, does what a statement of its title does. -/
theorem lowerByTitle_eq {d : Datum} {tag : Tag Datum} {bound : Option String} (hadded : d.added = tag.added)
    (hexpression : d.expression? = d.added.expression) :
    lowerByTitle d bound (lowerTag tag) = lowerStatement d bound := by
  unfold lowerStatement
  rw [lowerTag_eq, hexpression, hadded]
  rfl

/-- `name?` is lacking where neither a name is bound nor one was added. -/
theorem not_isSome_name {d : Datum} {bound : Option String} (hname : d.name? = (bound.or d.added.name).map .text)
    (h : bound.or d.added.name = none) : d.name?.isSome = false := by
  rw [hname, h]
  rfl

section Rules

variable {d : Datum} {bound : Option String} {n : Nat}

/-- `isRange` stops as a check of the name does. -/
theorem stopOf_isRange {e : Datum} {fault : Fault} {g : Frame} (h : isRange e = .error fault) :
    StopOf e fault g := by
  cases e with
  | call => exact of_bind_eq_error h (.of_checks .name (checks_name _ _) rfl (.head _)) nofun
  | _ => cases h

/-- `lacking?` is the first of the fields that are asked for. -/
theorem lacking_of_asked {field : String} {fields : List (String × Bool)} (hasked : d.asked = fields)
    (hfirst : (fields.find? fun field => !field.2).map Prod.fst = some field) : d.lacking? = some field := by
  rw [Datum.lacking?, hasked, hfirst]

section

variable (hparts : ∀ e ∈ d.operands ++ d.added.data, ∀ n, Runs e n (lowerExpression e) (n + 1))

include hparts

/-- `Runs` for the expression that a rule asks for. -/
theorem runs_askedExpression {e : Datum} (hrule : d.rule?.any Kind.hasExpression = true)
    (he : d.expression? = some e) : Runs d n (lowerExpression e) (n + 1) := by
  have hmem : e ∈ d.operands ++ d.added.data :=
    (Datum.operand_or_added he).elim (List.mem_append_left _) fun h => List.mem_append_right _ h.2
  exact (hparts e hmem n).whole fun h => h.expression hrule he

/-- `Runs` for something that was added to an extended node. -/
theorem runs_added {e : Datum} (hplain : isPlain d = false) (hrule : d.rule?.any Kind.isLowered = true)
    (he : e ∈ d.added.data) : Runs d n (lowerExpression e) (n + 1) :=
  (hparts e (List.mem_append_right _ he) n).whole
    (.added (Datum.isExtended_of_mem_data hplain hrule he) he)

/-- `lowerStatement` by the rule of an `assign`. -/
theorem runs_ruleAssign (hrule : d.rule? = some .assign)
    (hname : d.name? = (bound.or d.added.name).map .text) :
    Runs d n (lowerStatement d bound) (n + 1) := by
  have hasked : d.asked = [("expression", d.expression?.isSome), ("name", d.name?.isSome)] := by
    rw [Datum.asked, hrule]
  unfold lowerStatement lowerByTitle
  rw [hrule]
  refine .ask (fun hnone => lacking_of_asked hasked ?_) fun code hcode => ?_
  · rw [Option.map_eq_none_iff.mp hnone]
    rfl
  · obtain ⟨e, he, rfl⟩ := Option.map_eq_some_iff.mp hcode
    have hcode := @runs_askedExpression d n hparts e (by rw [hrule]; rfl) he
    refine runs_binding hcode fun hnone => lacking_of_asked hasked ?_
    rw [he, not_isSome_name hname hnone]
    rfl

/-- `lowerStatement` by the rule of a `loop`. -/
theorem runs_ruleLoop (hrule : d.rule? = some .loop)
    (hname : d.name? = (bound.or d.added.name).map .text) :
    Runs d n (lowerStatement d bound) (n + 1) := by
  have hasked : d.asked = [("expression", d.expression?.isSome), ("name", d.name?.isSome)] := by
    rw [Datum.asked, hrule]
  have hany : d.rule?.any Kind.hasExpression = true := by rw [hrule]; rfl
  unfold lowerStatement lowerByTitle
  rw [hrule]
  refine .ask (fun hnone => lacking_of_asked hasked ?_) fun e he => ?_
  · rw [hnone]
    rfl
  refine .check (fun h => (stopOf_isRange h).expression hany he) fun counts _ => ?_
  cases counts with
  | false => exact Runs.throw fun _ => .iterable hrule he
  | true =>
    rw [he]
    refine runs_binding (runs_askedExpression hparts hany he) fun hnone => lacking_of_asked hasked ?_
    rw [he, not_isSome_name hname hnone]
    rfl

/-- `lowerStatement` by the rule of a `binary`, of a node of another kind. -/
theorem runs_ruleBinary (hrule : d.rule? = some .binary) (hplain : isPlain d = false) :
    Runs d n (lowerStatement d bound) (n + 1) := by
  have hasked : d.asked = [("left", d.added.left.isSome), ("right", d.added.right.isSome),
      ("operator", d.added.operator.isSome)] := by
    rw [Datum.asked, hrule, hplain]
    rfl
  have hadded : ∀ {e n}, e ∈ d.added.data → Runs d n (lowerExpression e) (n + 1) :=
    runs_added hparts hplain (by rw [hrule]; rfl)
  unfold lowerStatement lowerByTitle
  rw [hrule]
  refine .ask (fun hnone => lacking_of_asked hasked ?_) fun code hcode => ?_
  · rw [Option.map_eq_none_iff.mp hnone]
    rfl
  obtain ⟨left, hleft, rfl⟩ := Option.map_eq_some_iff.mp hcode
  refine (hadded (Additions.mem_data.mpr (.inr (.inl hleft)))).seq
    (.ask (fun hnone => lacking_of_asked hasked ?_) fun code hcode => ?_)
  · rw [hleft, Option.map_eq_none_iff.mp hnone]
    rfl
  obtain ⟨right, hright, rfl⟩ := Option.map_eq_some_iff.mp hcode
  refine (hadded (Additions.mem_data.mpr (.inr (.inr (.inl hright))))).seq
    (.ask (fun hnone => lacking_of_asked hasked ?_) fun word _ => runs_operator word)
  rw [hleft, hright, hnone]
  rfl

/-- `lowerStatement` by the rule of a `call`, of a node of another kind. -/
theorem runs_ruleCall (hrule : d.rule? = some .call) (hplain : isPlain d = false)
    (hname : d.name? = (bound.or d.added.name).map .text) :
    Runs d n (lowerStatement d bound) (n + 1) := by
  have hasked : d.asked = [("argument", d.added.argument.isSome), ("name", d.name?.isSome)] := by
    rw [Datum.asked, hrule, hplain]
    rfl
  unfold lowerStatement lowerByTitle
  rw [hrule]
  refine .ask (fun hnone => lacking_of_asked hasked ?_) fun code hcode => ?_
  · rw [Option.map_eq_none_iff.mp hnone]
    rfl
  obtain ⟨argument, hargument, rfl⟩ := Option.map_eq_some_iff.mp hcode
  have hmem : argument ∈ d.added.data := Additions.mem_data.mpr (.inr (.inr (.inr (.inl hargument))))
  refine (runs_added hparts hplain (by rw [hrule]; rfl) hmem).seq
    (.ask (fun hnone => lacking_of_asked hasked ?_) fun word _ => runs_call word)
  rw [hargument, not_isSome_name hname hnone]
  rfl

end

/-- `lowerStatement` by the rule of a `literal`, of a node of another kind. -/
theorem runs_ruleLiteral (hrule : d.rule? = some .literal) (hplain : isPlain d = false) :
    Runs d n (lowerStatement d bound) (n + 1) := by
  have hasked : d.asked = [("value", d.added.value.isSome)] := by
    rw [Datum.asked, hrule, hplain]
    rfl
  unfold lowerStatement lowerByTitle
  rw [hrule]
  refine .ask (fun hnone => lacking_of_asked hasked ?_) fun value hvalue => ?_
  · rw [hnone]
    rfl
  have hmem : value ∈ d.added.data := Additions.mem_data.mpr (.inr (.inr (.inr (.inr hvalue))))
  have hextended : d.isExtended = true := Datum.isExtended_of_mem_data hplain (by rw [hrule]; rfl) hmem
  exact .check (fun h => .added hextended hmem (.of_covers value.covers_plain h)) fun text _ => runs_verbatim text

/-- `lowerStatement` by the rule of a `reference`. -/
theorem runs_ruleReference (hrule : d.rule? = some .reference)
    (hname : d.name? = (bound.or d.added.name).map .text) :
    Runs d n (lowerStatement d bound) (n + 1) := by
  have hasked : d.asked = [("name", d.name?.isSome)] := by rw [Datum.asked, hrule]
  unfold lowerStatement lowerByTitle
  rw [hrule]
  refine .ask (fun hnone => lacking_of_asked hasked ?_) fun word _ => runs_reference word
  rw [not_isSome_name hname hnone]
  rfl

/-- `lowerStatement` leaves one value, or none if its rule is that of an `exit`, if the code of every part of the
    node leaves one value. -/
theorem runs_rule (hparts : ∀ e ∈ d.operands ++ d.added.data, ∀ n, Runs e n (lowerExpression e) (n + 1))
    (hother : d.isStatement = true ∨ isPlain d = false)
    (hname : d.name? = (bound.or d.added.name).map .text) :
    Specified (·.depth = n) (lowerStatement d bound)
      (fun _ g => g.depth = n + 1 ∨ g.depth = n ∧ d.rule? = some .exit ∧ d.expression?.isSome = true)
      (StopOf d) := by
  -- the rule of an expression is not that of the kind
  have hforeign : ∀ {kind}, d.rule? = some kind → kind.isStatement = false → isPlain d = false :=
    fun hrule hkind => hother.elim (fun hstatement => not_isPlain_of_rule hstatement hrule hkind) id
  cases hrule : d.rule? with
  | none =>
    unfold lowerStatement lowerByTitle
    rw [hrule]
    exact Runs.one (.throw fun _ => .malformed none)
  | some kind =>
    cases kind with
    | exit =>
      have hasked : d.asked = [("expression", d.expression?.isSome)] := by rw [Datum.asked, hrule]
      unfold lowerStatement lowerByTitle
      rw [hrule]
      cases he : d.expression? with
      | none =>
        rw [he] at hasked
        exact Runs.one (.throw fun _ => .missing (lacking_of_asked hasked rfl))
      | some e =>
        exact ((runs_askedExpression hparts (by rw [hrule]; rfl) he).seq runs_exit).mono
          (fun _ _ h => .inr ⟨h, rfl, rfl⟩) fun _ _ h => h
    | assign => exact Runs.one (runs_ruleAssign hparts hrule hname)
    | loop => exact Runs.one (runs_ruleLoop hparts hrule hname)
    | literal => exact Runs.one (runs_ruleLiteral hrule (hforeign hrule rfl))
    | reference => exact Runs.one (runs_ruleReference hrule hname)
    | binary => exact Runs.one (runs_ruleBinary hparts hrule (hforeign hrule rfl))
    | call => exact Runs.one (runs_ruleCall hparts hrule (hforeign hrule rfl) hname)
    | endLoop =>
      unfold lowerStatement lowerByTitle
      rw [hrule]
      exact Runs.one (.throw fun _ => .reported rfl (by decide) fun _ _ h => by cases h)
    | _ =>
      unfold lowerStatement lowerByTitle
      rw [hrule]
      exact Runs.one (.throw fun _ => .malformed none)

/-- `lowerByTitle`, for an expression that is not plain, leaves one value unless it is lowered as an `exit`. -/
theorem runs_of_not_isPlain {tag : Tag Datum}
    (hparts : ∀ e ∈ d.operands ++ d.added.data, ∀ n, Runs e n (lowerExpression e) (n + 1))
    (hplain : ¬isPlain d = true) (hname : d.name? = (bound.or d.added.name).map .text)
    (hadded : d.added = tag.added) (hexpression : d.expression? = d.added.expression) :
    Specified (·.depth = n) (lowerByTitle d bound (lowerTag tag))
      (fun _ g => g.depth = n + 1 ∨ g.depth = n ∧ d.isExtended = true ∧ d.rule? = some .exit) (StopOf d) := by
  have hplain := Bool.eq_false_iff.mpr hplain
  rw [lowerByTitle_eq hadded hexpression]
  refine (runs_rule hparts (.inr hplain) hname).mono ?_ fun _ _ h => h
  rintro _ g (hdepth | ⟨hdepth, hrule, hsome⟩)
  · exact .inl hdepth
  · obtain ⟨e, he⟩ := Option.isSome_iff_exists.mp hsome
    have hmem : e ∈ d.added.data := Additions.mem_data.mpr (.inl (hexpression.symm.trans he))
    exact .inr ⟨hdepth, Datum.isExtended_of_mem_data hplain (by rw [hrule]; rfl) hmem, hrule⟩

end Rules

/-! ## Expressions and statements -/

/-- `lowerExpression` leaves one value, or stops as `StopOf` says, by induction on the expression. -/
theorem runs_expression (d : Datum) : ∀ n, Runs d n (lowerExpression d) (n + 1) := by
  induction d using expression_induction with
  | literal tag value hadded =>
    intro n
    rw [lowerExpression]
    refine .leavingOne (.check (fun h => .of_checks .value (checks_value _ _) rfl (.head _) h) fun v _ => ?_)
    split
    · exact (runs_literal v).one
    · next hplain => exact runs_of_not_isPlain hadded.of_mem_data hplain rfl rfl rfl
  | reference tag name hadded =>
    intro n
    rw [lowerExpression]
    refine .leavingOne (.check (fun h => .of_checks .name (checks_name _ _) rfl (.head _) h) fun word hword => ?_)
    split
    · exact (runs_reference word).one
    · next hplain =>
      have htext := (checks_name (.reference tag name) name).of_ok hword
      subst htext
      exact runs_of_not_isPlain hadded.of_mem_data hplain rfl rfl rfl
  | binary tag left operator right ihleft ihright hadded =>
    intro n
    rw [lowerExpression]
    refine .leavingOne (.check
      (fun h => .of_checks .operator (checks_operator _ _) rfl (.tail _ (.head _)) h) fun word _ => ?_)
    split
    · have hleft : Runs (.binary tag left operator right) n (lowerExpression left) (n + 1) :=
        (ihleft n).whole (.operand (.head _))
      have hright : Runs (.binary tag left operator right) (n + 1) (lowerExpression right) (n + 2) :=
        (ihright (n + 1)).whole (.operand (.tail _ (.head _)))
      exact (hleft.seq (hright.seq (runs_operator word))).one
    · next hplain =>
      refine runs_of_not_isPlain ?_ hplain rfl rfl rfl
      rintro e (_ | ⟨_, _ | ⟨_, he⟩⟩)
      · exact ihleft
      · exact ihright
      · exact hadded.of_mem_data e he
  | call tag name argument ih hadded =>
    intro n
    rw [lowerExpression]
    refine .leavingOne (.check (fun h => .of_checks .name (checks_name _ _) rfl (.head _) h) fun word hword => ?_)
    split
    · exact (((ih n).whole (.operand (.head _))).seq (runs_call word)).one
    · next hplain =>
      have htext := (checks_name (.call tag name argument) name).of_ok hword
      subst htext
      refine runs_of_not_isPlain ?_ hplain rfl rfl rfl
      rintro e (_ | ⟨_, he⟩)
      · exact ih
      · exact hadded.of_mem_data e he
  | other d hliteral hreference hbinary hcall =>
    intro n
    rw [lowerExpression]
    · exact .throw fun _ => .malformed none
    all_goals assumption

/-- `boundViolations d`: what is wrong with the name that a statement binds. -/
def boundViolations (d : Datum) : List Violation :=
  match d with
  | .assign _ name _ | .loop _ name _ => nameViolations d name
  | _ => []

/-- `boundName?` checks `boundViolations`, before anything else of the statement is. -/
theorem checks_bound {d : Datum} (hstatement : d.isStatement = true) :
    Checks (boundName? d) (boundViolations d) fun bound => d.name? = (bound.or d.added.name).map .text := by
  cases d with
  | assign tag name e | loop tag name e =>
    exact (checks_name _ name).bound fun word hword => congrArg some hword
  | reference | call => cases hstatement
  | _ => exact ⟨rfl, rfl⟩

/-- `boundName?` stops as a check of the name does. -/
theorem stopOf_bound {d : Datum} {fault : Fault} {g : Frame} (h : boundName? d = .error fault) :
    StopOf d fault g := by
  cases d with
  | assign | loop => exact .of_checks .name (checks_bound rfl) rfl (.head _) h
  | _ => cases h

/-- `lowerElement` stops as `StopOf` says. -/
theorem stops_element (comments : Bool) (d : Datum) :
    Specified (fun _ => True) (lowerElement comments d) (fun _ _ => True) (StopOf d) := by
  suffices hfrom : ∀ n, Specified (·.depth = n) (lowerElement comments d) (fun _ _ => True) (StopOf d) from
    fun f _ => hfrom f.depth f rfl
  intro n
  unfold lowerElement
  cases hstatement : d.isStatement with
  | false => exact fun _ _ => .malformed none
  | true =>
    refine .check (fun h => stopOf_bound h) fun bound hbound => ?_
    have hname := (checks_bound hstatement).of_ok hbound
    have hrule := @runs_rule d bound n (fun e _ => runs_expression e) (.inl hstatement) hname
    -- neither a note nor a comment changes the depth
    have hnoted : Specified (·.depth = n) (MonadState.get >>= fun f =>
        note (.lowering d.typeName f.depth) >>= fun _ => lowerStatement d bound) (fun _ _ => True) (StopOf d) :=
      fun f hf => (hrule.mono (fun _ _ _ => trivial) fun _ _ h => h) (f.note _) hf
    cases comments with
    | false => exact hnoted
    | true =>
      refine .check (fun h => .of_covers d.covers_statementText h) fun text _ => ?_
      exact fun f hf => hnoted (f.emit 1 (.comment text)) hf

end Lowering

end ZebLang
