/-
  The code of programs.

  `Lowers` says what code an expression has, without a frame: the code depends on the slots of names,
  on how many values lie on the stack, and on how many loops and printing sequences came before.
  `LowersAll` says it for a statement list.

  1. Whatever lowering accepts has such code, and the frame gains just this code
     (`lowers_of_lowerExpression`, `lowersAll_of_lowerAll`).
  2. The code has known instructions only, so it can be read back.
  3. Every loop and every printing sequence has a number of its own, so no two labels have one name.

  What the code of an accepted program does is proved from `Lowers`, without taking lowering apart again.
-/

import ZebLang.Lowering
import ZebLang.Proofs.Assembly.Reader

namespace ZebLang

open Lowering (isPlain)

/-! ## Code -/

/-- `itemsOf lines`: the items of lines. -/
def itemsOf (lines : List Line) : List Item := lines.map Line.item

/-- `printItems n`: the code of a printing sequence. -/
def printItems (n : Nat) : List Item := itemsOf (Lowering.printLines n)

/-- `rangeItems n`: the code of a range after that of its bound. -/
def rangeItems (n : Nat) : List Item :=
  [.instr (.pop .rax), .instr (.mov (.reg .rbx) (.imm 0)), .instr (.push .rbx)] ++
    itemsOf (Lowering.countingLines n)

/-- `exitItems`: the code of an exit after that of its value. -/
def exitItems : List Item :=
  [.instr (.mov (.reg .rax) (.imm Lowering.exitCall)), .instr (.pop .rdi), .instr .syscall]

/-- `Counters`: how many loops and printing sequences there are. -/
structure Counters where
  loops : Nat
  prints : Nat

/-- `Lowers slots depth d c code c'`: the code of an expression, with the counters before and after it. -/
inductive Lowers (slots : List (String × Nat)) :
    Nat → Datum → Counters → List Item → Counters → Prop where
  | literal {depth tag n c} (hmin : Cause.literalMin ≤ n) (hmax : n ≤ Cause.literalMax) :
      Lowers slots depth (.literal tag (.int n)) c
        [.instr (.mov (.reg .rax) (.imm n)), .instr (.push .rax)] c
  | reference {depth tag name slot c} (hslot : slots.lookup name = some slot) :
      Lowers slots depth (.reference tag (.text name)) c
        [.instr (.mov (.reg .rax) (.mem .rsp (some (((depth : Int) - slot - 1) * slotSize)))),
          .instr (.push .rax)] c
  | binary {depth tag left operator right combine c c₁ c₂ code₁ code₂}
      (hleft : Lowers slots depth left c code₁ c₁)
      (hright : Lowers slots (depth + 1) right c₁ code₂ c₂)
      (hoperator : Lowering.arithmetic? operator = some combine) :
      Lowers slots depth (.binary tag left (.text operator) right) c
        (code₁ ++ (code₂ ++ [.instr (.pop .rbx), .instr (.pop .rax), .instr combine,
          .instr (.push .rax)])) c₂
  | print {depth tag argument c c₁ code} (hargument : Lowers slots depth argument c code c₁) :
      Lowers slots depth (.call tag (.text "print") argument) c (code ++ printItems c₁.prints)
        { c₁ with prints := c₁.prints + 1 }
  | range {depth tag argument c c₁ code} (hargument : Lowers slots depth argument c code c₁) :
      Lowers slots depth (.call tag (.text "range") argument) c (code ++ rangeItems c₁.loops)
        { c₁ with loops := c₁.loops + 1 }

/-- `Binds d name e`: the statement `d` binds a name to the value of an expression. -/
inductive Binds : Datum → String → Datum → Prop where
  | assign {tag name e} : Binds (.assign tag (.text name) e) name e
  | loop {tag name e} : Binds (.loop tag (.text name) e) name e

/-- `bindSlot slots name slot`: the slots after a name was bound. -/
def bindSlot (slots : List (String × Nat)) (name : String) (slot : Nat) : List (String × Nat) :=
  (name, slot) :: slots.filter (·.1 != name)

/-- `LowersAll slots depth statements c code c'`: the code of a statement list. -/
inductive LowersAll : List (String × Nat) → Nat → List Datum → Counters → List Item → Counters →
    Prop where
  | nil {slots depth c} : LowersAll slots depth [] c [] c
  | exit {slots depth tag e rest c c₁ c₂ code₁ code₂} (hvalue : Lowers slots depth e c code₁ c₁)
      (hrest : LowersAll slots depth rest c₁ code₂ c₂) :
      LowersAll slots depth (.exit tag e :: rest) c (code₁ ++ (exitItems ++ code₂)) c₂
  | bind {slots depth d name e rest c c₁ c₂ code₁ code₂} (hbinds : Binds d name e)
      (hvalue : Lowers slots depth e c code₁ c₁)
      (hrest : LowersAll (bindSlot slots name depth) (depth + 1) rest c₁ code₂ c₂) :
      LowersAll slots depth (d :: rest) c (code₁ ++ code₂) c₂

/-! ## What lowering accepts -/

/-- `d.isStandard`: every node of a statement or an expression is lowered by the rule of its kind. -/
def Datum.isStandard : Datum → Bool
  | .exit tag e => isPlain (.exit tag e) && e.isStandard
  | .assign tag name e => isPlain (.assign tag name e) && e.isStandard
  | .loop tag name e => isPlain (.loop tag name e) && e.isStandard
  | .binary tag left operator right =>
      isPlain (.binary tag left operator right) && (left.isStandard && right.isStandard)
  | .call tag name argument => isPlain (.call tag name argument) && argument.isStandard
  | d => isPlain d

/-- `isLowered`: the kinds whose nodes can be lowered, all but programs and the families by themselves. -/
def Kind.isLowered : Kind → Bool
  | .exit | .assign | .loop | .endLoop | .literal | .reference | .binary | .call => true
  | _ => false

/-- `hasExpression`: the kinds of the statements that have an expression. -/
def Kind.hasExpression : Kind → Bool
  | .exit | .assign | .loop => true
  | _ => false

/-- `hasExpression` of a rule implies `isLowered`. -/
theorem Datum.exists_rule_of_hasExpression {d : Datum} (h : d.rule?.any Kind.hasExpression = true) :
    ∃ kind, d.rule? = some kind ∧ kind.isLowered = true := by
  cases hrule : d.rule? with
  | none =>
    rw [hrule] at h
    cases h
  | some kind =>
    rw [hrule] at h
    cases kind with
    | exit | assign | loop => exact ⟨_, rfl, rfl⟩
    | _ => cases h

/-- `d.isExtended`: the title of the node `d` names the rule of another kind, and `d` has fields for it that
    its own kind does not have. -/
def Datum.isExtended (d : Datum) : Bool :=
  !isPlain d && d.rule?.any Kind.isLowered && !d.added.isEmpty

/-- `d.isUnextended`: no node of a statement or an expression `isExtended`. -/
def Datum.isUnextended : Datum → Bool
  | .exit tag e => !(Datum.exit tag e).isExtended && e.isUnextended
  | .assign tag name e => !(Datum.assign tag name e).isExtended && e.isUnextended
  | .loop tag name e => !(Datum.loop tag name e).isExtended && e.isUnextended
  | .binary tag left operator right =>
      !(Datum.binary tag left operator right).isExtended && (left.isUnextended && right.isUnextended)
  | .call tag name argument => !(Datum.call tag name argument).isExtended && argument.isUnextended
  | d => !d.isExtended

/-- `isUnextended` at the node on top. -/
theorem Datum.not_isExtended {d : Datum} (h : d.isUnextended = true) : d.isExtended = false := by
  cases d with
  | exit | assign | loop | binary | call =>
    rw [isUnextended, Bool.and_eq_true] at h
    exact (Bool.not_eq_eq_eq_not ..).mp h.1
  | _ => exact (Bool.not_eq_eq_eq_not ..).mp h

/-- `added` is empty for a node that is lowered by the rule of another kind, unless it `isExtended`. -/
theorem Datum.added_of_not_isExtended {d : Datum} {kind : Kind} (h : d.isExtended = false)
    (hplain : isPlain d = false) (hrule : d.rule? = some kind) (hkind : kind.isLowered = true) :
    d.added = {} := by
  unfold isExtended at h
  rw [hplain, hrule, Option.any_some, hkind] at h
  exact Additions.eq_of_isEmpty ((Bool.not_eq_eq_eq_not ..).mp h)

/-- `isPlain` holds of the node on top of a standard tree. -/
theorem Lowering.isPlain_of_isStandard {d : Datum} (h : d.isStandard = true) : isPlain d = true := by
  cases d with
  | exit | assign | loop | binary | call =>
    rw [Datum.isStandard, Bool.and_eq_true] at h
    exact h.1
  | _ => exact h

/-- `isPlain` fails of a statement with the rule of an expression. -/
theorem Lowering.not_isPlain_of_rule {d : Datum} {kind : Kind} (hstatement : d.isStatement = true)
    (hrule : d.rule? = some kind) (hkind : kind.isStatement = false) : isPlain d = false := by
  refine Bool.eq_false_iff.mpr fun hplain => ?_
  unfold Datum.isStatement at hstatement
  rw [← rule_of_isPlain hplain, hrule, Option.any_some, hkind] at hstatement
  cases hstatement

/-- `isExtended` fails of a plain node. -/
theorem Datum.isExtended_of_isPlain {d : Datum} (h : isPlain d = true) : d.isExtended = false := by
  unfold isExtended
  rw [h]
  rfl

/-- `isUnextended` holds of every standard tree. -/
theorem Datum.isUnextended_of_isStandard {d : Datum} (h : d.isStandard = true) : d.isUnextended = true := by
  induction d using isStandard.induct with
  | case1 tag e ih | case2 tag name e ih | case3 tag name e ih | case5 tag name e ih =>
    rw [isStandard, Bool.and_eq_true] at h
    rw [isUnextended, isExtended_of_isPlain h.1, ih h.2]
    rfl
  | case4 tag left operator right ihleft ihright =>
    rw [isStandard, Bool.and_eq_true, Bool.and_eq_true] at h
    rw [isUnextended, isExtended_of_isPlain h.1, ihleft h.2.1, ihright h.2.2]
    rfl
  | case6 d =>
    rw [isStandard] at h
    · rw [isUnextended, isExtended_of_isPlain h]
      · rfl
      all_goals assumption
    all_goals assumption

/-- `expression?`, where the rule asks for one, is that of a statement which has one by its kind, unless the
    node `isExtended`. -/
theorem Datum.own_expression {d e : Datum} (h : d.isExtended = false)
    (hrule : d.rule?.any Kind.hasExpression = true) (he : d.expression? = some e) :
    (∃ tag, d = .exit tag e) ∨ (∃ tag name, d = .assign tag name e) ∨ ∃ tag name, d = .loop tag name e := by
  have hother : d.kind?.any Kind.hasExpression = false → d.expression? = d.added.expression → False := by
    intro hnone hadded
    have hplain : isPlain d = false := by
      refine Bool.eq_false_iff.mpr fun hplain => ?_
      rw [← Lowering.rule_of_isPlain hplain, hrule] at hnone
      cases hnone
    obtain ⟨kind, hkind, hlowered⟩ := exists_rule_of_hasExpression hrule
    rw [hadded, added_of_not_isExtended h hplain hkind hlowered] at he
    cases he
  cases d with
  | exit tag e =>
    cases he
    exact .inl ⟨tag, rfl⟩
  | assign tag name e =>
    cases he
    exact .inr (.inl ⟨tag, name, rfl⟩)
  | loop tag name e =>
    cases he
    exact .inr (.inr ⟨tag, name, rfl⟩)
  | bare tag family =>
    refine (hother ?_ rfl).elim
    cases family with
    | node | statement | expression => rfl
  | _ => exact (hother rfl rfl).elim

/-- `isUnextended` passes to the expression that a statement is lowered with. -/
theorem Datum.isUnextended_expression {d e : Datum} (h : d.isUnextended = true)
    (hrule : d.rule?.any Kind.hasExpression = true) (he : d.expression? = some e) : e.isUnextended = true := by
  rcases own_expression (not_isExtended h) hrule he with
    ⟨tag, rfl⟩ | ⟨tag, name, rfl⟩ | ⟨tag, name, rfl⟩
  all_goals
    rw [isUnextended, Bool.and_eq_true] at h
    exact h.2

/-- `d.word?`: the text that a field holds, if it does. -/
def Datum.word? : Datum → Option String
  | .text word => some word
  | _ => Option.none

namespace Frame

/-- `f.counters`: the loops and printing sequences so far. -/
def counters (f : Frame) : Counters := ⟨f.loops, f.prints⟩

/-- `f.Gains g code depth`: the frame gained code and has so many values on the stack; its names are bound
    as before. -/
structure Gains (f g : Frame) (code : List Item) (depth : Nat) : Prop where
  items : itemsOf g.lines.toList = itemsOf f.lines.toList ++ code
  depth : g.depth = depth
  slots : g.slots = f.slots
  prologue : g.prologue = f.prologue

/-- `Gains` composes. -/
theorem Gains.trans {f g h : Frame} {code code' : List Item} {depth depth' : Nat}
    (hfg : f.Gains g code depth) (hgh : g.Gains h code' depth') :
    f.Gains h (code ++ code') depth' := by
  refine ⟨?_, hgh.depth, hgh.slots.trans hfg.slots, hgh.prologue.trans hfg.prologue⟩
  rw [hgh.items, hfg.items, List.append_assoc]

end Frame

namespace Lowering

/-- `bind` succeeds if its parts do, one after the other. -/
theorem bind_eq_ok {α β : Type} {x : Lowering α} {k : α → Lowering β} {f g : Frame} {b : β}
    (h : (x >>= k).run f = .ok b g) : ∃ a f', x.run f = .ok a f' ∧ (k a).run f' = .ok b g := by
  have hbind : EStateM.bind x k f = .ok b g := h
  unfold EStateM.bind at hbind
  split at hbind
  next a f' hx => exact ⟨a, f', hx, hbind⟩
  next => cases hbind

/-- `check` leaves the frame alone. -/
theorem check_eq_ok {α : Type} {x : Except Fault α} {f g : Frame} {a : α}
    (h : (check x).run f = .ok a g) : x = .ok a ∧ g = f := by
  cases x with
  | ok b => cases h; exact ⟨rfl, rfl⟩
  | error fault => cases h

/-- A refusal that quotes a text is a refusal, whether or not the text can be written. -/
theorem refuse_ne_ok {α β : Type} {x : Except Fault α} {fault : α → Fault} {b : β} :
    (x >>= fun text => .error (fault text)) ≠ Except.ok b := by
  intro h
  cases x <;> cases h

/-- `literalOf` accepts only integers in the range of literals. -/
theorem literalOf_eq_ok {d value : Datum} {n : Int} (h : literalOf d value = .ok n) :
    value = .int n ∧ Cause.literalMin ≤ n ∧ n ≤ Cause.literalMax := by
  unfold literalOf at h
  split at h
  next m =>
    split at h
    next hfits => cases h; exact ⟨rfl, hfits⟩
    next => exact (refuse_ne_ok h).elim
  next => exact (refuse_ne_ok h).elim

/-- `nameOf` accepts only texts. -/
theorem nameOf_eq_ok {d name : Datum} {word : String} (h : nameOf d name = .ok word) :
    name = .text word := by
  unfold nameOf at h
  dsimp only at h
  split at h
  next w =>
    split at h
    next => exact (refuse_ne_ok h).elim
    next => cases h; rfl
  next => exact (refuse_ne_ok h).elim

/-- `operatorOf` accepts only texts. -/
theorem operatorOf_eq_ok {d operator : Datum} {word : String} (h : operatorOf d operator = .ok word) :
    operator = .text word := by
  unfold operatorOf at h
  split at h
  next => cases h; rfl
  next => exact (refuse_ne_ok h).elim

/-! ### Steps on the frame -/

/-- `pop` takes a value off the stack. -/
theorem pop_eq_ok {r : Register} {f g : Frame} {u : Unit} (h : (pop r).run f = .ok u g) :
    ∃ depth, f.depth = depth + 1 ∧ g = { f.emit 1 (.instr (.pop r)) with depth } := by
  obtain ⟨f₁, f₂, hget, h⟩ := bind_eq_ok h
  cases hget
  split at h
  next g' hpop =>
    cases h
    refine ⟨_, Frame.depth_of_pop hpop, ?_⟩
    unfold Frame.pop at hpop
    split at hpop
    · cases hpop
    · cases hpop; rfl
  next => cases h

theorem gains_instr (f : Frame) (i : Instr) : f.Gains (f.emit 1 (.instr i)) [.instr i] f.depth := by
  refine ⟨?_, rfl, rfl, rfl⟩
  simp [Frame.emit, itemsOf]

theorem gains_push (f : Frame) (r : Register) :
    f.Gains (f.push 1 r) [.instr (.push r)] (f.depth + 1) := by
  refine ⟨?_, rfl, rfl, rfl⟩
  simp [Frame.push, Frame.emit, itemsOf]

theorem gains_pop (f : Frame) (r : Register) (depth : Nat) :
    f.Gains { f.emit 1 (.instr (.pop r)) with depth } [.instr (.pop r)] depth := by
  refine ⟨?_, rfl, rfl, rfl⟩
  simp [Frame.emit, itemsOf]

theorem gains_block (f : Frame) (lines : List Line) :
    f.Gains { f with lines := f.lines ++ lines } (itemsOf lines) f.depth := by
  refine ⟨?_, rfl, rfl, rfl⟩
  simp [itemsOf]

/-! ### Parts of expressions -/

/-- `arithmetic?` knows three operators, with their instructions. -/
theorem arithmetic_cases {operator : String} {combine : Instr} (h : arithmetic? operator = some combine) :
    operator = "+" ∧ combine = .add (.reg .rax) (.reg .rbx) ∨
      operator = "-" ∧ combine = .sub (.reg .rax) (.reg .rbx) ∨
        operator = "*" ∧ combine = .imul .rbx := by
  unfold arithmetic? at h
  split at h
  next hplus => cases h; exact .inl ⟨hplus, rfl⟩
  next =>
    split at h
    next hminus => cases h; exact .inr (.inl ⟨hminus, rfl⟩)
    next =>
      split at h
      next htimes => cases h; exact .inr (.inr ⟨htimes, rfl⟩)
      next => cases h

theorem gains_literal {n : Int} {f g : Frame} {u : Unit} (h : (lowerLiteral n).run f = .ok u g) :
    f.Gains g [.instr (.mov (.reg .rax) (.imm n)), .instr (.push .rax)] (f.depth + 1) ∧
      g.counters = f.counters := by
  cases h
  exact ⟨(gains_instr f _).trans (gains_push _ .rax), rfl⟩

/-- `lowerReference` loads the value in the slot of the name and pushes it. -/
theorem gains_reference {name : String} {place : Option Origin} {f g : Frame} {u : Unit}
    (h : (lowerReference name place).run f = .ok u g) :
    ∃ slot, f.slots.lookup name = some slot ∧
      f.Gains g [.instr (.mov (.reg .rax) (.mem .rsp (some (((f.depth : Int) - slot - 1) * slotSize)))),
        .instr (.push .rax)] (f.depth + 1) ∧ g.counters = f.counters := by
  obtain ⟨f₁, f₂, hget, h⟩ := bind_eq_ok h
  cases hget
  split at h
  next => cases h
  next slot hslot =>
    cases h
    exact ⟨slot, hslot, (gains_instr f _).trans (gains_push _ .rax), rfl⟩

/-- `lowerOperator` pops two values, combines them and pushes the result. -/
theorem gains_operator {operator : String} {place : Option Origin} {f g : Frame} {u : Unit}
    (h : (lowerOperator operator place).run f = .ok u g) :
    ∃ combine depth, arithmetic? operator = some combine ∧ f.depth = depth + 2 ∧
      f.Gains g [.instr (.pop .rbx), .instr (.pop .rax), .instr combine, .instr (.push .rax)]
        (depth + 1) ∧ g.counters = f.counters := by
  unfold lowerOperator at h
  split at h
  next => cases h
  next combine hcombine =>
    obtain ⟨u₁, f₁, hpop₁, h⟩ := bind_eq_ok h
    obtain ⟨u₂, f₂, hpop₂, h⟩ := bind_eq_ok h
    obtain ⟨depth₁, hdepth₁, rfl⟩ := pop_eq_ok hpop₁
    obtain ⟨depth₂, hdepth₂, rfl⟩ := pop_eq_ok hpop₂
    cases h
    have hdepth : depth₁ = depth₂ + 1 := hdepth₂
    refine ⟨combine, depth₂, hcombine, by omega, ?_, rfl⟩
    exact (gains_pop f .rbx depth₁).trans ((gains_pop _ .rax depth₂).trans
      ((gains_instr _ combine).trans (gains_push _ .rax)))

/-- `lowerPrint` writes a printing sequence with the next number. -/
theorem gains_print {f g : Frame} {u : Unit} (h : lowerPrint.run f = .ok u g) :
    f.Gains g (printItems f.prints) f.depth ∧
      g.counters = { f.counters with prints := f.prints + 1 } := by
  cases h
  have hsame : f.Gains f.nextPrint.2 [] f.depth := ⟨by simp [Frame.nextPrint], rfl, rfl, rfl⟩
  exact ⟨hsame.trans (gains_block _ (printLines f.prints)), rfl⟩

/-- `lowerRange` writes the code of a range with the next number. -/
theorem gains_range {f g : Frame} {u : Unit} (h : lowerRange.run f = .ok u g) :
    ∃ depth, f.depth = depth + 1 ∧ f.Gains g (rangeItems f.loops) f.depth ∧
      g.counters = { f.counters with loops := f.loops + 1 } := by
  obtain ⟨f₁, f₂, hget, h⟩ := bind_eq_ok h
  cases hget
  obtain ⟨u₁, f₃, hset, h⟩ := bind_eq_ok h
  cases hset
  obtain ⟨u₂, f₄, hpop, h⟩ := bind_eq_ok h
  obtain ⟨depth, hdepth, rfl⟩ := pop_eq_ok hpop
  cases h
  have hdepth : f.depth = depth + 1 := hdepth
  refine ⟨depth, hdepth, ?_, rfl⟩
  rw [hdepth]
  have hsame : f.Gains f.nextLoop.2 [] f.depth := ⟨by simp [Frame.nextLoop, Frame.note], rfl, rfl, rfl⟩
  exact hsame.trans ((gains_pop _ .rax depth).trans ((gains_instr _ _).trans
    ((gains_push _ .rbx).trans (gains_block _ (countingLines f.loops)))))

/-- `lowerCall` applies one of two functions. -/
theorem gains_call {word : String} {place : Option Origin} {f g : Frame} {u : Unit}
    (h : (lowerCall word place).run f = .ok u g) :
    word = "print" ∧ f.Gains g (printItems f.prints) f.depth ∧
        g.counters = { f.counters with prints := f.prints + 1 } ∨
      word = "range" ∧ f.Gains g (rangeItems f.loops) f.depth ∧
        g.counters = { f.counters with loops := f.loops + 1 } := by
  unfold lowerCall at h
  split at h
  next hprint => exact .inl ⟨hprint, gains_print h⟩
  next =>
    split at h
    next hrange =>
      obtain ⟨-, -, hgains⟩ := gains_range h
      exact .inr ⟨hrange, hgains⟩
    next => cases h

/-- `lowerCall` behind the code of the argument `Lowers` the call. -/
theorem lowers_of_lowerCall {word : String} {place : Option Origin} {tag : Tag Datum} {argument : Datum}
    {f g h : Frame} {u : Unit} {code : List Item}
    (hcode : Lowers f.slots f.depth argument f.counters code g.counters)
    (hgains : f.Gains g code (f.depth + 1)) (hcall : (lowerCall word place).run g = .ok u h) :
    ∃ all, Lowers f.slots f.depth (.call tag (.text word) argument) f.counters all h.counters ∧
      f.Gains h all (f.depth + 1) := by
  rcases gains_call hcall with ⟨rfl, hgains', hcounters⟩ | ⟨rfl, hgains', hcounters⟩
  · rw [hgains.depth] at hgains'
    rw [hcounters]
    exact ⟨_, .print hcode, hgains.trans hgains'⟩
  · rw [hgains.depth] at hgains'
    rw [hcounters]
    exact ⟨_, .range hcode, hgains.trans hgains'⟩

/-! ### Expressions -/

/-- `leavingOne` does what its code does, if it is accepted. -/
theorem leavingOne_eq_ok {d : Datum} {x : Lowering Unit} {f g : Frame} {u : Unit}
    (h : (leavingOne d x).run f = .ok u g) : x.run f = .ok u g := by
  obtain ⟨f₁, f₂, hget, h⟩ := bind_eq_ok h
  cases hget
  obtain ⟨u₁, g₁, hx, h⟩ := bind_eq_ok h
  obtain ⟨g₂, g₃, hget, h⟩ := bind_eq_ok h
  cases hget
  dsimp only at h
  split at h
  · cases h
  · cases h
    exact hx

/-- `lowerExpression` on a standard tree `Lowers` it, and the frame `Gains` the code; by induction on the
    expression. -/
theorem lowers_of_lowerExpression {d : Datum} :
    ∀ {f g : Frame} {u : Unit}, d.isStandard = true → (lowerExpression d).run f = .ok u g →
      ∃ code, Lowers f.slots f.depth d f.counters code g.counters ∧
        f.Gains g code (f.depth + 1) := by
  induction d using expression_induction with
  | literal tag value _ =>
    intro f g u hstandard h
    obtain ⟨n, f₁, hcheck, hbody⟩ := bind_eq_ok (leavingOne_eq_ok h)
    obtain ⟨hvalue, rfl⟩ := check_eq_ok hcheck
    obtain ⟨rfl, hmin, hmax⟩ := literalOf_eq_ok hvalue
    have hplain : isPlain (.literal tag (.int n)) = true := hstandard
    rw [if_pos hplain] at hbody
    obtain ⟨hgains, hcounters⟩ := gains_literal hbody
    rw [hcounters]
    exact ⟨_, .literal hmin hmax, hgains⟩
  | reference tag name _ =>
    intro f g u hstandard h
    obtain ⟨word, f₁, hcheck, hbody⟩ := bind_eq_ok (leavingOne_eq_ok h)
    obtain ⟨hname, rfl⟩ := check_eq_ok hcheck
    obtain rfl := nameOf_eq_ok hname
    have hplain : isPlain (.reference tag (.text word)) = true := hstandard
    rw [if_pos hplain] at hbody
    obtain ⟨slot, hslot, hgains, hcounters⟩ := gains_reference hbody
    rw [hcounters]
    exact ⟨_, .reference hslot, hgains⟩
  | binary tag left operator right ihleft ihright _ =>
    intro f g u hstandard h
    obtain ⟨hplain, hleft, hright⟩ : isPlain (.binary tag left operator right) = true ∧
        left.isStandard = true ∧ right.isStandard = true := by
      simpa [Datum.isStandard] using hstandard
    obtain ⟨word, f₁, hcheck, hbody⟩ := bind_eq_ok (leavingOne_eq_ok h)
    obtain ⟨hoperator, rfl⟩ := check_eq_ok hcheck
    obtain rfl := operatorOf_eq_ok hoperator
    rw [if_pos hplain] at hbody
    obtain ⟨u₁, f₂, hlower₁, hbody⟩ := bind_eq_ok hbody
    obtain ⟨u₂, f₃, hlower₂, hbody⟩ := bind_eq_ok hbody
    obtain ⟨code₁, hcode₁, hgains₁⟩ := ihleft hleft hlower₁
    obtain ⟨code₂, hcode₂, hgains₂⟩ := ihright hright hlower₂
    rw [hgains₁.slots, hgains₁.depth] at hcode₂
    obtain ⟨combine, depth, hcombine, hdepth, hgains₃, hcounters⟩ := gains_operator hbody
    -- two values were pushed, so two can be popped
    have hdepth' : depth = f₁.depth := by rw [hgains₂.depth, hgains₁.depth] at hdepth; omega
    subst hdepth'
    rw [hcounters]
    exact ⟨_, .binary hcode₁ hcode₂ hcombine, hgains₁.trans (hgains₂.trans hgains₃)⟩
  | call tag name argument ih _ =>
    intro f g u hstandard h
    obtain ⟨hplain, hargument⟩ : isPlain (.call tag name argument) = true ∧
        argument.isStandard = true := by
      simpa [Datum.isStandard] using hstandard
    obtain ⟨word, f₁, hcheck, hbody⟩ := bind_eq_ok (leavingOne_eq_ok h)
    obtain ⟨hname, rfl⟩ := check_eq_ok hcheck
    obtain rfl := nameOf_eq_ok hname
    rw [if_pos hplain] at hbody
    obtain ⟨u₁, f₂, hlower, hcall⟩ := bind_eq_ok hbody
    obtain ⟨code, hcode, hgains⟩ := ih hargument hlower
    exact lowers_of_lowerCall hcode hgains hcall
  | other d hliteral hreference hbinary hcall =>
    intro f g u hstandard h
    rw [lowerExpression] at h
    · cases h
    all_goals assumption

/-! ### Statements -/

/-- `lowerBinding` gains the code of the value, and gives the name its slot. -/
theorem lowers_of_lowerBinding {d e : Datum} {name : String} {f g : Frame} {u : Unit}
    (hstandard : e.isStandard = true)
    (h : (lowerBinding d (lowerExpression e) (some name)).run f = .ok u g) :
    ∃ code, Lowers f.slots f.depth e f.counters code g.counters ∧
      itemsOf g.lines.toList = itemsOf f.lines.toList ++ code ∧ g.depth = f.depth + 1 ∧
      g.slots = bindSlot f.slots name f.depth ∧ g.prologue = f.prologue := by
  rw [lowerBinding_some] at h
  obtain ⟨f₁, f₂, hget, hbody⟩ := bind_eq_ok h
  cases hget
  obtain ⟨u₁, f₃, hlower, hbind⟩ := bind_eq_ok hbody
  obtain ⟨code, hcode, hgains⟩ := lowers_of_lowerExpression hstandard hlower
  cases hbind
  refine ⟨code, hcode, hgains.items, hgains.depth, ?_, hgains.prologue⟩
  show (name, f.depth) :: f₃.slots.filter (·.1 != name) = _
  rw [hgains.slots]
  rfl

/-- `Advances f g d code`: what one statement does to the frame. -/
inductive Advances (f g : Frame) (d : Datum) : List Item → Prop where
  | exit {tag e code} : d = .exit tag e → Lowers f.slots f.depth e f.counters code g.counters →
      f.Gains g (code ++ exitItems) f.depth → Advances f g d (code ++ exitItems)
  | bind {name e code} : Binds d name e → Lowers f.slots f.depth e f.counters code g.counters →
      itemsOf g.lines.toList = itemsOf f.lines.toList ++ code → g.depth = f.depth + 1 →
      g.slots = bindSlot f.slots name f.depth → g.prologue = f.prologue → Advances f g d code

/-- `boundName?` accepts only texts. -/
theorem boundName?_eq_ok {d name : Datum} {bound : Option String}
    (h : some <$> nameOf d name = .ok bound) : ∃ word, bound = some word ∧ name = .text word := by
  cases hname : nameOf d name with
  | ok word =>
    rw [hname] at h
    cases h
    exact ⟨word, rfl, nameOf_eq_ok hname⟩
  | error fault =>
    rw [hname] at h
    cases h

/-- `lowerStatement` on a standard tree `Advances` the frame. -/
theorem advances_of_lowerStatement {d : Datum} {bound : Option String} {f g : Frame} {u : Unit}
    (hstatement : d.isStatement = true) (hstandard : d.isStandard = true)
    (hbound : boundName? d = .ok bound) (h : (lowerStatement d bound).run f = .ok u g) :
    ∃ code, Advances f g d code := by
  cases d with
  | exit tag e =>
    obtain ⟨hplain, he⟩ : isPlain (.exit tag e) = true ∧ e.isStandard = true := by
      simpa [Datum.isStandard] using hstandard
    rw [lowerStatement_exit hplain] at h
    obtain ⟨u₁, f₂, hlower, hrest⟩ := bind_eq_ok h
    obtain ⟨code, hcode, hgains⟩ := lowers_of_lowerExpression he hlower
    obtain ⟨u₂, f₃, hinstr, hrest⟩ := bind_eq_ok hrest
    cases hinstr
    obtain ⟨u₃, f₄, hpop, hcall⟩ := bind_eq_ok hrest
    obtain ⟨depth, hdepth, rfl⟩ := pop_eq_ok hpop
    cases hcall
    have hsame : depth = f.depth := by
      have : f₂.depth = depth + 1 := hdepth
      have := hgains.depth
      omega
    subst hsame
    refine ⟨_, .exit rfl hcode ?_⟩
    exact hgains.trans ((gains_instr f₂ _).trans ((gains_pop _ .rdi f.depth).trans (gains_instr _ _)))
  | assign tag name e =>
    obtain ⟨hplain, he⟩ : isPlain (.assign tag name e) = true ∧ e.isStandard = true := by
      simpa [Datum.isStandard] using hstandard
    obtain ⟨word, rfl, rfl⟩ := boundName?_eq_ok hbound
    rw [lowerStatement_assign hplain] at h
    obtain ⟨code, hcode, hitems, hdepth, hslots, hprologue⟩ := lowers_of_lowerBinding he h
    exact ⟨code, .bind .assign hcode hitems hdepth hslots hprologue⟩
  | loop tag name e =>
    obtain ⟨hplain, he⟩ : isPlain (.loop tag name e) = true ∧ e.isStandard = true := by
      simpa [Datum.isStandard] using hstandard
    obtain ⟨word, rfl, rfl⟩ := boundName?_eq_ok hbound
    rw [lowerStatement_loop hplain] at h
    obtain ⟨range, f₂, hcheck, hbranch⟩ := bind_eq_ok h
    obtain ⟨-, rfl⟩ := check_eq_ok hcheck
    split at hbranch
    · obtain ⟨code, hcode, hitems, hdepth, hslots, hprologue⟩ := lowers_of_lowerBinding he hbranch
      exact ⟨code, .bind .loop hcode hitems hdepth hslots hprologue⟩
    · cases hbranch
  | endLoop tag =>
    rw [lowerStatement_endLoop hstandard] at h
    cases h
  | bare tag family =>
    rw [lowerStatement_bare hstandard] at h
    cases h
  | _ => cases hstatement

/-- `lowerElement` without a comment `Advances` the frame. -/
theorem advances_of_lowerElement {d : Datum} {f g : Frame} {u : Unit}
    (hstandard : d.isStandard = true) (h : (lowerElement false d).run f = .ok u g) :
    ∃ code, Advances f g d code := by
  unfold lowerElement at h
  dsimp only at h
  by_cases hstatement : d.isStatement = true
  · rw [hstatement, Bool.not_true, if_neg Bool.false_ne_true] at h
    obtain ⟨bound, f₂, hcheck, hbody⟩ := bind_eq_ok h
    obtain ⟨hbound, rfl⟩ := check_eq_ok hcheck
    have hlower : (lowerStatement d bound).run (f₂.note (.lowering d.typeName f₂.depth)) = .ok u g :=
      hbody
    obtain ⟨code, hadvances⟩ := advances_of_lowerStatement hstatement hstandard hbound hlower
    -- a note changes nothing that counts
    cases hadvances with
    | exit hd hcode hgains =>
      exact ⟨_, .exit hd hcode ⟨hgains.items, hgains.depth, hgains.slots, hgains.prologue⟩⟩
    | bind hbinds hcode hitems hdepth hslots hprologue =>
      exact ⟨_, .bind hbinds hcode hitems hdepth hslots hprologue⟩
  · rw [Bool.not_eq_true] at hstatement
    rw [hstatement] at h
    cases h

/-- `lowerAll` on standard trees `LowersAll` of them, and the frame gains the code; by induction on the
    list. -/
theorem lowersAll_of_lowerAll {statements : List Datum} :
    ∀ {f g : Frame} {u : Unit}, (∀ d ∈ statements, d.isStandard = true) →
      (lowerAll false statements).run f = .ok u g →
      ∃ code, LowersAll f.slots f.depth statements f.counters code g.counters ∧
        itemsOf g.lines.toList = itemsOf f.lines.toList ++ code ∧ g.prologue = f.prologue := by
  induction statements with
  | nil =>
    intro f g u _ h
    cases h
    exact ⟨[], .nil, (List.append_nil _).symm, rfl⟩
  | cons d rest ih =>
    intro f g u hstandard h
    obtain ⟨u₁, f₁, helement, hrest⟩ := bind_eq_ok h
    obtain ⟨code, hadvances⟩ := advances_of_lowerElement (hstandard d (by simp)) helement
    obtain ⟨more, hmore, hitems, hprologue⟩ := ih (fun x hx => hstandard x (by simp [hx])) hrest
    cases hadvances with
    | exit hd hcode hgains =>
      subst hd
      rw [hgains.slots, hgains.depth] at hmore
      refine ⟨_, .exit hcode hmore, ?_, hprologue.trans hgains.prologue⟩
      rw [hitems, hgains.items]
      simp only [List.append_assoc]
    | bind hbinds hcode hitems₁ hdepth hslots hprologue₁ =>
      rw [hslots, hdepth] at hmore
      refine ⟨_, .bind hbinds hcode hmore, ?_, hprologue.trans hprologue₁⟩
      rw [hitems, hitems₁, List.append_assoc]

end Lowering

end ZebLang
