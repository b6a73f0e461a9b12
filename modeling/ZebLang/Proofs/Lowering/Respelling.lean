/-
  Names spelled anew, and nodes placed anew.

  A respelling gives every name of a variable another spelling, different names different ones, and every
  node another place.  A node is reached by a path: which element of the list, which part of that, and so
  on.  So a new place may depend on the node and not only on its old place.

  What is told of data without regard to names and places is the same after a respelling: the kind and the
  title of a node, whether it is lowered by the rule of its kind, and whether it can be written out
  (`outcome_structural`).
-/

import ZebLang.Proofs.Lowering.Code

namespace ZebLang

open Lowering (isPlain)

/-- Another spelling for each name that is not empty, and another place for the node at each path. -/
structure Respelling where
  name : String → String
  name_ne_empty : ∀ w, w ≠ "" → name w ≠ ""
  name_injective : ∀ v w, v ≠ "" → w ≠ "" → name v = name w → v = w
  place : List Nat → Option Origin → Option Origin

namespace Respelling

variable (s : Respelling)

/-- The new spelling of a word.  There is only one way to spell nothing. -/
def word (w : String) : String := if w = "" then "" else s.name w

theorem word_of_ne {w : String} (h : w ≠ "") : s.word w = s.name w := if_neg h

/-- `word` spells only the empty text as the empty text. -/
theorem word_eq_empty_iff {w : String} : s.word w = "" ↔ w = "" := by
  constructor
  · intro h
    by_cases hw : w = ""
    · exact hw
    · rw [s.word_of_ne hw] at h
      exact absurd h (s.name_ne_empty w hw)
  · rintro rfl
    rfl

/-- `word` is injective: `name_injective` on texts that are not empty, `name_ne_empty` for the empty one. -/
theorem word_injective : Function.Injective s.word := by
  intro v w h
  by_cases hv : v = ""
  · subst hv
    exact (s.word_eq_empty_iff.mp h.symm).symm
  · have hw : w ≠ "" := by
      rintro rfl
      exact hv (s.word_eq_empty_iff.mp h)
    rw [s.word_of_ne hv, s.word_of_ne hw] at h
    exact s.name_injective v w hv hw h

/-- Nothing is spelled or placed anew. -/
def unchanged : Respelling where
  name := id
  name_ne_empty _ h := h
  name_injective _ _ _ _ h := h
  place _ location := location

theorem word_unchanged (w : String) : unchanged.word w = w := by
  unfold word unchanged
  split
  next h => exact h.symm
  next => rfl

end Respelling

/-! ## Data -/

/-- The tag of the node at a path. -/
def Tag.respelled (s : Respelling) (path : List Nat) (tag : Tag Datum) : Tag Datum :=
  { tag with location := s.place path tag.location }

mutual

/-- What stands at a path, with the names of variables spelled anew and each node placed anew.  A text is
    the name of a variable where an assignment, a loop or a reference has its name. -/
def Datum.respelled (s : Respelling) (isName : Bool) (path : List Nat) : Datum → Datum
  | .text word => .text (if isName then s.word word else word)
  | .list items => .list (respelledAll s path 0 items)
  | .bare tag family => .bare (tag.respelled s path) family
  | .program tag statements => .program (tag.respelled s path) (respelledAll s path 0 statements)
  | .exit tag e => .exit (tag.respelled s path) (e.respelled s false (path ++ [0]))
  | .assign tag name e =>
      .assign (tag.respelled s path) (name.respelled s true (path ++ [1]))
        (e.respelled s false (path ++ [0]))
  | .loop tag name e =>
      .loop (tag.respelled s path) (name.respelled s true (path ++ [1]))
        (e.respelled s false (path ++ [0]))
  | .endLoop tag => .endLoop (tag.respelled s path)
  | .literal tag value => .literal (tag.respelled s path) (value.respelled s false (path ++ [0]))
  | .reference tag name => .reference (tag.respelled s path) (name.respelled s true (path ++ [0]))
  | .binary tag left operator right =>
      .binary (tag.respelled s path) (left.respelled s false (path ++ [0]))
        (operator.respelled s false (path ++ [2])) (right.respelled s false (path ++ [1]))
  | .call tag name argument =>
      .call (tag.respelled s path) (name.respelled s false (path ++ [1]))
        (argument.respelled s false (path ++ [0]))
  | d => d

/-- Data that are counted from `i` at a path. -/
def Datum.respelledAll (s : Respelling) (path : List Nat) (i : Nat) : List Datum → List Datum
  | [] => []
  | d :: rest => d.respelled s false (path ++ [i]) :: respelledAll s path (i + 1) rest

end

namespace Datum

section Node

variable {s : Respelling} {isName : Bool} {path : List Nat}

/-- `node?` of a respelled datum: the kind stays, and the tag is respelled with the title it has. -/
theorem node?_respelled (d : Datum) :
    (d.respelled s isName path).node? = d.node?.map fun (kind, tag) => (kind, tag.respelled s path) := by
  cases d with
  | none | truth | int | real => rfl
  | _ =>
    rw [respelled]
    rfl

/-- `kind?` is kept by `respelled`. -/
theorem kind?_respelled (d : Datum) : (d.respelled s isName path).kind? = d.kind? := by
  unfold kind?
  rw [node?_respelled, Option.map_map]
  rfl

/-- `rule?` is kept by `respelled`, since both the kind and the title are. -/
theorem rule?_respelled (d : Datum) : (d.respelled s isName path).rule? = d.rule? := by
  unfold rule?
  rw [node?_respelled]
  cases d.node? with
  | none => rfl
  | some node => rfl

/-- `typeName` is kept by `respelled`. -/
theorem typeName_respelled (d : Datum) : (d.respelled s isName path).typeName = d.typeName := by
  cases d with
  | none | truth | int | real => rfl
  | _ =>
    rw [respelled]
    rfl

theorem isPlain_respelled (d : Datum) : isPlain (d.respelled s isName path) = isPlain d := by
  unfold isPlain
  rw [rule?_respelled, kind?_respelled]

theorem isStatement_respelled (d : Datum) : (d.respelled s isName path).isStatement = d.isStatement := by
  unfold isStatement
  rw [kind?_respelled]

end Node

mutual

/-- `respelled` by `Respelling.unchanged` is the identity. -/
theorem respelled_unchanged : (d : Datum) → ∀ isName path, d.respelled .unchanged isName path = d
  | .none | .truth _ | .int _ | .real _ => fun _ _ => rfl
  | .text w => fun isName _ => by
      rw [respelled, Respelling.word_unchanged, ite_self]
  | .list items => fun _ path => by
      rw [respelled, respelledAll_unchanged items path 0]
  | .bare _ _ | .endLoop _ => fun _ _ => by
      rw [respelled]
      rfl
  | .program _ items => fun _ path => by
      rw [respelled, respelledAll_unchanged items path 0]
      rfl
  | .exit _ e | .literal _ e | .reference _ e => fun _ path => by
      rw [respelled, respelled_unchanged e]
      rfl
  | .assign _ name e | .loop _ name e | .call _ name e => fun _ path => by
      rw [respelled, respelled_unchanged name, respelled_unchanged e]
      rfl
  | .binary _ left operator right => fun _ path => by
      rw [respelled, respelled_unchanged left, respelled_unchanged operator, respelled_unchanged right]
      rfl

/-- `respelledAll` by `Respelling.unchanged` is the identity. -/
theorem respelledAll_unchanged : (items : List Datum) → ∀ path i,
    respelledAll .unchanged path i items = items
  | [] => fun _ _ => by rw [respelledAll]
  | d :: rest => fun path i => by
      rw [respelledAll, respelled_unchanged d, respelledAll_unchanged rest]

end

end Datum

/-! ## Checks side by side -/

/-- Two checks that both pass, with values in a relation, or both fail, with faults in a relation. -/
inductive Parallel {α β : Type} (same : α → β → Prop) (stop : Fault → Fault → Prop) :
    Except Fault α → Except Fault β → Prop where
  | ok {a : α} {b : β} (h : same a b) : Parallel same stop (.ok a) (.ok b)
  | error {e e' : Fault} (h : stop e e') : Parallel same stop (.error e) (.error e')

/-- `Parallel` checks in sequence: related values are handed on to checks that are `Parallel` again. -/
theorem Parallel.bind {α β γ δ : Type} {same : α → β → Prop} {same' : γ → δ → Prop}
    {stop : Fault → Fault → Prop} {x : Except Fault α} {y : Except Fault β} {k : α → Except Fault γ}
    {l : β → Except Fault δ} (h : Parallel same stop x y)
    (hk : ∀ a b, same a b → Parallel same' stop (k a) (l b)) :
    Parallel same' stop (x >>= k) (y >>= l) := by
  cases h with
  | ok hab => exact hk _ _ hab
  | error he => exact .error he

/-- `Parallel` is monotone in both of its relations. -/
theorem Parallel.mono {α β : Type} {same same' : α → β → Prop} {stop stop' : Fault → Fault → Prop}
    {x : Except Fault α} {y : Except Fault β} (h : Parallel same stop x y)
    (hsame : ∀ a b, same a b → same' a b) (hstop : ∀ e e', stop e e' → stop' e e') :
    Parallel same' stop' x y := by
  cases h with
  | ok hab => exact .ok (hsame _ _ hab)
  | error he => exact .error (hstop _ _ he)

/-- Both can be written out, or in both a number is too long. -/
def Writes {α β : Type} : Except Fault α → Except Fault β → Prop :=
  Parallel (fun _ _ => True) fun e e' => e = .unwritable ∧ e' = .unwritable

theorem writes_ok {α β : Type} (a : α) (b : β) : Writes (.ok a) (.ok b) := .ok trivial

theorem writes_writeInt (n : Int) : Writes (writeInt n) (writeInt n) := by
  unfold writeInt
  split
  · exact writes_ok _ _
  · exact .error ⟨rfl, rfl⟩

mutual

/-- `structural` fails on a datum just if it fails on the datum respelled: neither names nor places decide
    whether a number is too long. -/
theorem writes_structural (s : Respelling) : (d : Datum) → ∀ isName path,
    Writes d.structural (d.respelled s isName path).structural
  | .none | .truth _ | .real _ => fun _ _ => writes_ok _ _
  | .text _ | .bare _ _ | .endLoop _ => fun _ _ => by
      rw [Datum.respelled, Datum.structural, Datum.structural]
      exact writes_ok _ _
  | .int v => fun _ _ => writes_writeInt v
  | .list items | .program _ items => fun _ path => by
      rw [Datum.respelled, Datum.structural, Datum.structural]
      exact (writes_structuralAll s items path 0).bind fun _ _ _ => writes_ok _ _
  | .exit _ e | .literal _ e | .reference _ e => fun _ path => by
      rw [Datum.respelled, Datum.structural, Datum.structural]
      exact (writes_structural s e _ _).bind fun _ _ _ => writes_ok _ _
  | .assign _ name e | .loop _ name e | .call _ name e => fun _ path => by
      rw [Datum.respelled, Datum.structural, Datum.structural]
      exact (writes_structural s name _ _).bind fun _ _ _ =>
        (writes_structural s e _ _).bind fun _ _ _ => writes_ok _ _
  | .binary _ left operator right => fun _ path => by
      rw [Datum.respelled, Datum.structural, Datum.structural]
      exact (writes_structural s left _ _).bind fun _ _ _ =>
        (writes_structural s operator _ _).bind fun _ _ _ =>
          (writes_structural s right _ _).bind fun _ _ _ => writes_ok _ _

/-- `structuralAll`, as `structural` for a list of data. -/
theorem writes_structuralAll (s : Respelling) : (items : List Datum) → ∀ path i,
    Writes (Datum.structuralAll items) (Datum.structuralAll (Datum.respelledAll s path i items))
  | [] => fun _ _ => by
      rw [Datum.respelledAll, Datum.structuralAll]
      exact writes_ok _ _
  | d :: rest => fun path i => by
      rw [Datum.respelledAll, Datum.structuralAll, Datum.structuralAll]
      exact (writes_structural s d _ _).bind fun _ _ _ =>
        (writes_structuralAll s rest _ _).bind fun _ _ _ => writes_ok _ _

end

/-! ## Faults side by side -/

/-- The statements and expressions directly in a datum. -/
def Datum.parts : Datum → List Datum
  | .list items | .program _ items => items
  | .exit _ e | .assign _ _ e | .loop _ _ e => [e]
  | .binary _ left _ right => [left, right]
  | .call _ _ argument => [argument]
  | _ => []

/-- What a path leads to. -/
def Datum.part? : List Nat → Datum → Option Datum
  | [], d => some d
  | i :: path, d => d.parts[i]?.bind (part? path)

/-- A fault that is found at a node: it is reported at the place of the node.  That a loop goes over no range
    is reported where that stands, if it has a place; and what is no report has none. -/
inductive Fault.IsAt (node : Datum) : Fault → Prop where
  | reported {cause : Cause} : IsAt node (.report cause node.location?)
  | iterable {e : Datum} (he : node.expression? = some e) : IsAt node (Lowering.iterableFault node e)
  | unwritable : IsAt node .unwritable

/-- Two faults of one class: reports of one category, or one and the same fault. -/
def Fault.SameClass : Fault → Fault → Prop
  | .diagnostic d, .diagnostic d' => d.cause.category = d'.cause.category
  | e, e' => e = e'

/-- Faults of one class at a node and at what the respelling makes of it. -/
structure Twins (s : Respelling) (path : List Nat) (node : Datum) (e e' : Fault) : Prop where
  left : e.IsAt node
  right : e'.IsAt (node.respelled s false path)
  sameClass : e.SameClass e'

/-- Faults of one class at corresponding parts of a datum and of what the respelling makes of it. -/
def TwinsWithin (s : Respelling) (path : List Nat) (d : Datum) (e e' : Fault) : Prop :=
  ∃ way node, d.part? way = some node ∧ Twins s (path ++ way) node e e'

/-- `respelledAll` respells the element at each index at the path of that index. -/
theorem Datum.getElem?_respelledAll (s : Respelling) (path : List Nat) (items : List Datum) (k i : Nat) :
    (respelledAll s path k items)[i]? = items[i]?.map (Datum.respelled s false (path ++ [k + i])) := by
  induction items generalizing k i with
  | nil =>
    rw [respelledAll]
    rfl
  | cons d rest ih =>
    rw [respelledAll]
    cases i with
    | zero => rfl
    | succ i => rw [List.getElem?_cons_succ, List.getElem?_cons_succ, ih, Nat.add_assoc, Nat.add_comm 1 i]

/-- `parts` commutes with `respelled`: the part at index `i` is respelled at `path ++ [i]`. -/
theorem Datum.parts_respelled (s : Respelling) (path : List Nat) (d : Datum) (i : Nat) :
    (d.respelled s false path).parts[i]? = d.parts[i]?.map (Datum.respelled s false (path ++ [i])) := by
  have hone : ∀ e : Datum, [e.respelled s false (path ++ [0])][i]? =
      [e][i]?.map (Datum.respelled s false (path ++ [i])) := by
    intro e
    cases i with
    | zero => rfl
    | succ i => rfl
  cases d with
  | none | truth | int | real => rfl
  | list items | program tag items =>
    rw [Datum.respelled, parts, getElem?_respelledAll, Nat.zero_add]
    rfl
  | exit tag e | assign tag name e | loop tag name e | call tag name e =>
    rw [Datum.respelled]
    exact hone e
  | binary tag left operator right =>
    rw [Datum.respelled]
    match i with
    | 0 => rfl
    | 1 => rfl
    | i + 2 => rfl
  | _ =>
    rw [Datum.respelled]
    rfl

/-- `part?` commutes with `respelled`, by induction on the path with `Datum.parts_respelled`. -/
theorem Datum.part?_respelled (s : Respelling) {way : List Nat} : ∀ {path : List Nat} {d node : Datum},
    d.part? way = some node →
      (d.respelled s false path).part? way = some (node.respelled s false (path ++ way)) := by
  induction way with
  | nil =>
    intro path d node h
    cases h
    rw [List.append_nil]
    rfl
  | cons i way ih =>
    intro path d node h
    rw [part?, parts_respelled]
    obtain ⟨e, he, hnode⟩ := Option.bind_eq_some_iff.mp h
    rw [he]
    have hrest := @ih (path ++ [i]) e node hnode
    rw [List.append_assoc] at hrest
    exact hrest

section Twins

variable {s : Respelling} {path : List Nat} {node e : Datum}

/-- Two reports of one category at `node` and at the respelled `node` are `Twins`. -/
theorem twins_report {cause cause' : Cause} (h : cause.category = cause'.category) :
    Twins s path node (.report cause node.location?)
      (.report cause' (node.respelled s false path).location?) :=
  ⟨.reported, .reported, h⟩

theorem twins_malformed (detail detail' : Option String) :
    Twins s path node (Lowering.malformed node detail)
      (Lowering.malformed (node.respelled s false path) detail') := by
  unfold Lowering.malformed
  rw [Datum.typeName_respelled]
  exact twins_report rfl

theorem twins_unwritable : Twins s path node .unwritable .unwritable := ⟨.unwritable, .unwritable, rfl⟩

/-- `iterableFault` for a loop and for the loop respelled are `Twins`: both take the place of what the loop
    goes over, or else that of the loop. -/
theorem twins_iterable (tag : Tag Datum) (name e : Datum) :
    Twins s path (.loop tag name e) (Lowering.iterableFault (.loop tag name e) e)
      (Lowering.iterableFault (Datum.respelled s false path (.loop tag name e))
        (e.respelled s false (path ++ [0]))) :=
  ⟨.iterable rfl, .iterable rfl, rfl⟩

/-- `Twins` at `d` itself are `TwinsWithin` `d`, at the empty path. -/
theorem Twins.within {d : Datum} {f f' : Fault} (h : Twins s path d f f') :
    TwinsWithin s path d f f' :=
  ⟨[], d, rfl, by rw [List.append_nil]; exact h⟩

/-- `TwinsWithin` a part of `d` are `TwinsWithin` `d`. -/
theorem TwinsWithin.part {d : Datum} {i : Nat} {f f' : Fault} (hpart : d.parts[i]? = some e)
    (h : TwinsWithin s (path ++ [i]) e f f') : TwinsWithin s path d f f' := by
  obtain ⟨way, node, hnode, htwins⟩ := h
  refine ⟨i :: way, node, ?_, ?_⟩
  · rw [Datum.part?, hpart]
    exact hnode
  · rw [List.append_assoc] at htwins
    exact htwins

end Twins

namespace Lowering

section Checks

variable (s : Respelling) (path way : List Nat) (d : Datum)

/-- A refusal by `malformed` that quotes what a field holds: both quotes can be written, or neither. -/
theorem parallel_refusal {α β : Type} {same : α → β → Prop} {x y : Except Fault String} (h : Writes x y)
    (detail : String → String) :
    Parallel same (Twins s path d) (x >>= fun text => .error (malformed d (some (detail text))))
      (y >>= fun text => .error (malformed (d.respelled s false path) (some (detail text)))) := by
  cases h with
  | ok _ => exact .error (twins_malformed _ _)
  | error h =>
    obtain ⟨rfl, rfl⟩ := h
    exact .error twins_unwritable

/-- `literalOf` passes the same integer before and after `respelled`. -/
theorem parallel_literalOf (value : Datum) :
    Parallel Eq (Twins s path d) (literalOf d value)
      (literalOf (d.respelled s false path) (value.respelled s false way)) := by
  cases value with
  | int n =>
    show Parallel _ _ (literalOf d (.int n)) (literalOf _ (.int n))
    unfold literalOf
    dsimp only
    split
    · exact .ok rfl
    · exact parallel_refusal s path d (writes_writeInt n) _
  | _ => exact parallel_refusal s path d (writes_structural s _ false way) _

/-- `nameOf` passes a name and its new spelling: `word` keeps a text empty or not empty. -/
theorem parallel_nameOf (isName : Bool) (name : Datum) :
    Parallel (fun w w' => w' = if isName then s.word w else w) (Twins s path d) (nameOf d name)
      (nameOf (d.respelled s false path) (name.respelled s isName way)) := by
  cases name with
  | text w =>
    have hempty : (if isName then s.word w else w).isEmpty = w.isEmpty := by
      cases isName with
      | false => rfl
      | true =>
        rw [Bool.eq_iff_iff]
        simp [String.isEmpty_iff, s.word_eq_empty_iff]
    have hheld := writes_structural s (.text w) isName way
    rw [Datum.respelled] at hheld ⊢
    unfold nameOf
    dsimp only
    rw [hempty]
    by_cases hw : w.isEmpty = true
    · rw [if_pos hw, if_pos hw]
      exact parallel_refusal s path d hheld _
    · rw [if_neg hw, if_neg hw]
      exact .ok rfl
  | _ => exact parallel_refusal s path d (writes_structural s _ isName way) _

/-- `operatorOf` passes the same operator before and after `respelled`. -/
theorem parallel_operatorOf (operator : Datum) :
    Parallel Eq (Twins s path d) (operatorOf d operator)
      (operatorOf (d.respelled s false path) (operator.respelled s false way)) := by
  cases operator with
  | text w => exact .ok rfl
  | _ => exact parallel_refusal s path d (writes_structural s _ false way) _

/-- `boundName?` gives the bound name and its new spelling. -/
theorem parallel_boundName? :
    Parallel (fun bound bound' => bound' = bound.map s.word) (Twins s path d) (boundName? d)
      (boundName? (d.respelled s false path)) := by
  have hbind : ∀ {x y : Except Fault String},
      Parallel (fun w w' => w' = s.word w) (Twins s path d) x y →
      Parallel (fun bound bound' => bound' = bound.map s.word) (Twins s path d) (some <$> x)
        (some <$> y) := by
    intro x y h
    cases h with
    | ok hw => exact .ok (congrArg some hw)
    | error he => exact .error he
  cases d with
  | assign tag name e => exact hbind (parallel_nameOf s path (path ++ [1]) (.assign tag name e) true name)
  | loop tag name e => exact hbind (parallel_nameOf s path (path ++ [1]) (.loop tag name e) true name)
  | _ => exact .ok rfl

/-- `isRange` answers the same before and after `respelled`: the names of functions are not respelled. -/
theorem parallel_isRange :
    Parallel Eq (Twins s path d) (isRange d) (isRange (d.respelled s false path)) := by
  cases d with
  | call tag name argument =>
    refine (parallel_nameOf s path (path ++ [1]) (.call tag name argument) false name).bind ?_
    rintro w - rfl
    exact .ok rfl
  | _ => exact .ok rfl

end Checks

end Lowering

end ZebLang
