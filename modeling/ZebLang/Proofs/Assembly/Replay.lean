/-
  Assembly read for its stack.

  Three things about the stack can be read off the lines of assembly without running them: how many
  values lie on it after each line (`replay`), what is read from it and how far below its top
  (`readsFrom`), and by how much its pointer is moved otherwise than by a push or a pop (`adjustments`).

  Lines are read from the first to the last, as they are written and not as jumps would lead: the code of
  a loop or of a printing sequence neither pushes nor pops inside.  Code after code is read on from the
  depth that was reached.
-/

import ZebLang.Proofs.Assembly.Reader

namespace ZebLang

/-! ## Depth -/

/-- `item.depthAfter? n`: how many values lie on the stack after the line `item`, with `n` on it before.
    `none` where the line pops from an empty stack. -/
def Item.depthAfter? (n : Nat) : Item → Option Nat
  | instr (.push _) => some (n + 1)
  | instr (.pop _) =>
      match n with
      | 0 => none
      | m + 1 => some m
  | _ => some n

/-- `replay n items`: how many values lie on the stack after the lines `items`, with `n` on it before;
    `none` as soon as a line pops from an empty stack. -/
def replay : Nat → List Item → Option Nat
  | n, [] => some n
  | n, item :: rest =>
      match item.depthAfter? n with
      | none => none
      | some m => replay m rest

theorem replay_cons {n m : Nat} {item : Item} (h : item.depthAfter? n = some m) (rest : List Item) :
    replay n (item :: rest) = replay m rest := by
  rw [replay, h]

/-- `replay` over `code ++ code'` is `replay` over `code'`, from the depth after `code`. -/
theorem replay_append {n m : Nat} {code : List Item} (h : replay n code = some m) (code' : List Item) :
    replay n (code ++ code') = replay m code' := by
  induction code generalizing n with
  | nil =>
    cases h
    rfl
  | cons item rest ih =>
    cases hitem : item.depthAfter? n with
    | none =>
      rw [replay, hitem] at h
      cases h
    | some k =>
      rw [replay_cons hitem] at h
      rw [List.cons_append, replay_cons hitem]
      exact ih h

/-! ## Reads -/

/-- A value read from the stack: how many lay on it (`depth`), and how many bytes below its top (`offset`).
    -/
structure Read where
  depth : Nat
  offset : Int
  deriving DecidableEq, Repr

/-- The offset of a line that reads a value from the stack. -/
def Item.offsetRead? : Item → Option Int
  | instr (.mov (.reg .rax) (.mem .rsp offset)) => offset
  | _ => none

/-- `readsFrom n items`: the values that `items` read from the stack, with `n` values on it before them. -/
def readsFrom : Nat → List Item → List Read
  | _, [] => []
  | n, item :: rest =>
      (item.offsetRead?.map (Read.mk n)).toList ++ readsFrom ((item.depthAfter? n).getD n) rest

/-- `readsFrom` over `code ++ code'`: what `code'` reads is counted from the depth after `code`. -/
theorem readsFrom_append {n m : Nat} {code : List Item} (h : replay n code = some m)
    (code' : List Item) : readsFrom n (code ++ code') = readsFrom n code ++ readsFrom m code' := by
  induction code generalizing n with
  | nil =>
    cases h
    rfl
  | cons item rest ih =>
    cases hitem : item.depthAfter? n with
    | none =>
      rw [replay, hitem] at h
      cases h
    | some k =>
      rw [replay_cons hitem] at h
      rw [List.cons_append, readsFrom, readsFrom, hitem, Option.getD_some, ih h, List.append_assoc]

/-! ## Adjustments -/

/-- By how much a line moves the stack pointer, other than by a push or a pop. -/
def Item.adjustment? : Item → Option Int
  | instr (.add (.reg .rsp) (.imm k)) => some k
  | instr (.sub (.reg .rsp) (.imm k)) => some (-k)
  | _ => none

/-- The moves of the stack pointer, in order. -/
def adjustments (items : List Item) : List Int := items.filterMap Item.adjustment?

theorem adjustments_append (code code' : List Item) :
    adjustments (code ++ code') = adjustments code ++ adjustments code' := List.filterMap_append

/-! ## Labels do not matter -/

/-- `Item.named` renames labels only, so it changes no depth. -/
theorem Item.depthAfter?_named (n : Nat) (item : Item) : item.named.depthAfter? n = item.depthAfter? n := by
  cases item with
  | instr i => cases i <;> rfl
  | _ => rfl

theorem Item.offsetRead?_named (item : Item) : item.named.offsetRead? = item.offsetRead? := by
  cases item with
  | instr i => cases i <;> rfl
  | _ => rfl

theorem Item.adjustment?_named (item : Item) : item.named.adjustment? = item.adjustment? := by
  cases item with
  | instr i => cases i <;> rfl
  | _ => rfl

/-- `replay` does not depend on the names of labels. -/
theorem replay_named (n : Nat) (code : List Item) : replay n (code.map Item.named) = replay n code := by
  induction code generalizing n with
  | nil => rfl
  | cons item rest ih =>
    rw [List.map_cons, replay, replay, Item.depthAfter?_named]
    cases item.depthAfter? n with
    | none => rfl
    | some m => exact ih m

/-- `readsFrom` does not depend on the names of labels. -/
theorem readsFrom_named (n : Nat) (code : List Item) :
    readsFrom n (code.map Item.named) = readsFrom n code := by
  induction code generalizing n with
  | nil => rfl
  | cons item rest ih =>
    rw [List.map_cons, readsFrom, readsFrom, Item.depthAfter?_named, Item.offsetRead?_named, ih]

/-- `adjustments` does not depend on the names of labels. -/
theorem adjustments_named (code : List Item) : adjustments (code.map Item.named) = adjustments code := by
  unfold adjustments
  rw [List.filterMap_map]
  congr 1
  funext item
  exact Item.adjustment?_named item

end ZebLang
