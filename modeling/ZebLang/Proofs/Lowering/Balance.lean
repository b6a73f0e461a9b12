/-
  The depth of a frame is the depth of its code.

  Whatever data are lowered, and wherever lowering stops, the lines so far can be replayed: they never pop
  an empty stack, and they leave as many values as the frame says (`Balanced`).  A name is read at the place
  where the latest statement that binds it left its value.  This place can be told without lowering: it is
  the number of statements before that one that leave a value (`LastBound`).

  1. `LastBound` is followed along a list that grows at its end, and a frame that binds each name when the
     statement is done has the table that it describes (`Frame.HasTable`).
  2. Each piece of code is balanced, and balanced code after balanced code is (`Balanced.append`).
  3. A piece of lowering `Traces` the names that it mentions: if it goes through, the frame has read just
     these, and if it stops, some first of them.  One lemma for each piece, `Traces.seq` for sequences.
  4. So neither a pop nor the test behind an expression ever fails, since both are fed by the depth.

  A node whose title names the rule of another kind is lowered by that rule, and counted by it here.  What it
  has by its kind is checked before; fields that were added for the other rule are not, and with them all of
  this fails (`lower_extended`).
-/

import Mathlib.Algebra.GroupWithZero.Nat
import Mathlib.Data.List.Forall2
import Mathlib.Data.List.Induction
import ZebLang.Proofs.Assembly.Replay
import ZebLang.Proofs.Datum.Writing
import ZebLang.Proofs.Lowering.Labels
import ZebLang.Proofs.Lowering.Specification

namespace ZebLang

open Lowering (isPlain printBuffer)

/-! ## Names that are read, and where they are bound -/

namespace Datum

/-- `d.ownName`: the name of a node that is lowered as a reference. -/
def ownName (d : Datum) : List String :=
  if d.rule? = some .reference then (d.name?.bind word?).toList else []

/-- `d.namesRead`: the names that an expression reads, in the order of its operands. -/
def namesRead : Datum → List String
  | binary tag left operator right =>
      if isPlain (binary tag left operator right) then left.namesRead ++ right.namesRead
      else (binary tag left operator right).ownName
  | call tag name argument =>
      if isPlain (call tag name argument) then argument.namesRead
      else (call tag name argument).ownName
  | d => d.ownName

/-- `d.statementReads`: the names that a statement reads. -/
def statementReads (d : Datum) : List String :=
  match d.rule? with
  | some .exit | some .assign | some .loop => (d.expression?.map namesRead).getD []
  | _ => d.ownName

/-- `d.isBinding`: the statement is lowered as an assignment or a loop, so it binds a name. -/
def isBinding (d : Datum) : Bool :=
  match d.rule? with
  | some .assign | some .loop => true
  | _ => false

/-- `d.newName?`: the name that a statement binds. -/
def newName? (d : Datum) : Option String := if d.isBinding then d.name?.bind word? else Option.none

/-- `d.leavesValue`: the statement leaves a value on the stack, since it binds one to a name or is lowered
    as a reference. -/
def leavesValue (d : Datum) : Bool := d.isBinding || d.rule? == some .reference

/-- `word?` of a name that was added gives it back. -/
theorem bind_word_map_text (found : Option String) : (found.map text).bind word? = found := by
  cases found with
  | none | some name => rfl

theorem isBinding_of_newName {d : Datum} {name : String} (h : d.newName? = some name) : d.isBinding = true := by
  unfold newName? at h
  split at h
  · assumption
  · cases h

/-- `leavesValue` holds of every statement that binds a name. -/
theorem leavesValue_of_isBinding {d : Datum} (h : d.isBinding = true) : d.leavesValue = true := by
  rw [leavesValue, h, Bool.true_or]

end Datum

/-- `LastBound counts statements x n`: the last of the statements that binds `x` comes behind `n` others that
    count. -/
def LastBound (counts : Datum → Bool) (statements : List Datum) (x : String) (n : Nat) : Prop :=
  ∃ before d after, statements = before ++ d :: after ∧ d.newName? = some x ∧
    (∀ e ∈ after, e.newName? ≠ some x) ∧ n = before.countP counts

/-- `Mention`: a name that is read, and the statements before the one that reads it. -/
structure Mention where
  before : List Datum
  name : String

/-- `mentions before statements`: all names that the statements read after those of `before`, in order. -/
def mentions (before : List Datum) : List Datum → List Mention
  | [] => []
  | d :: rest => d.statementReads.map (Mention.mk before) ++ mentions (before ++ [d]) rest

/-- In `x = 1`, `x = x + x`, `exit x` two names are read behind the first binding, and one behind the second. -/
example : (mentions [] [.assign {} (.text "x") (.literal {} (.int 1)),
    .assign {} (.text "x") (.binary {} (.reference {} (.text "x")) (.text "+") (.reference {} (.text "x"))),
    .exit {} (.reference {} (.text "x"))]).map (fun m => (m.before.length, m.name)) =
      [(1, "x"), (1, "x"), (2, "x")] := by
  decide

/-- `r.Reaches m`: the value that `r` reads is the one in the slot of the latest binding of the name `m` before
    it is read. -/
structure Read.Reaches (r : Read) (m : Mention) : Prop where
  aligned : (slotSize : Int) ∣ r.offset
  nonneg : 0 ≤ r.offset
  within : r.offset < slotSize * r.depth
  slot : ∃ slot, LastBound Datum.leavesValue m.before m.name slot ∧
    r.offset = slotSize * ((r.depth : Int) - 1 - slot)

/-! ### Lists that grow at their end -/

section LastBound

variable {counts : Datum → Bool} {statements : List Datum} {d : Datum} {x y : String} {n : Nat}

/-- Where a list with one more statement comes apart: at this statement, or further ahead. -/
theorem concat_eq_append_cons {before after : List Datum} {e : Datum}
    (h : statements ++ [d] = before ++ e :: after) :
    (statements = before ∧ d = e ∧ after = []) ∨
      ∃ mid, after = mid ++ [d] ∧ statements = before ++ e :: mid := by
  rcases after.eq_nil_or_concat with rfl | ⟨mid, last, rfl⟩
  · obtain ⟨hinit, hlast⟩ := List.append_inj' h rfl
    exact .inl ⟨hinit, List.singleton_inj.mp hlast, rfl⟩
  · have hmore : statements ++ [d] = (before ++ e :: mid) ++ [last] := by simpa using h
    obtain ⟨hinit, hlast⟩ := List.append_inj' hmore rfl
    obtain rfl := List.singleton_inj.mp hlast
    exact .inr ⟨mid, List.concat_eq_append, hinit⟩

/-- `LastBound` where the last statement binds the name. -/
theorem lastBound_concat_self (hname : d.newName? = some x) :
    LastBound counts (statements ++ [d]) x n ↔ n = statements.countP counts := by
  constructor
  · rintro ⟨before, e, after, hsplit, -, hlast, rfl⟩
    rcases concat_eq_append_cons hsplit with ⟨rfl, -, -⟩ | ⟨mid, rfl, -⟩
    · rfl
    · exact absurd hname (hlast d (by simp))
  · rintro rfl
    exact ⟨statements, d, [], rfl, hname, List.forall_mem_nil _, rfl⟩

/-- `LastBound` where the last statement does not bind the name. -/
theorem lastBound_concat_of_ne (hname : d.newName? ≠ some x) :
    LastBound counts (statements ++ [d]) x n ↔ LastBound counts statements x n := by
  constructor
  · rintro ⟨before, e, after, hsplit, he, hlast, rfl⟩
    rcases concat_eq_append_cons hsplit with ⟨-, rfl, -⟩ | ⟨mid, rfl, hinit⟩
    · exact absurd he hname
    · exact ⟨before, e, mid, hinit, he, fun c hc => hlast c (by simp [hc]), rfl⟩
  · rintro ⟨before, e, after, rfl, he, hlast, rfl⟩
    refine ⟨before, e, after ++ [d], by simp, he, fun c hc => ?_, rfl⟩
    rcases List.mem_append.mp hc with hc | hc
    · exact hlast c hc
    · rw [List.mem_singleton.mp hc]
      exact hname

/-- `LastBound`: a slot lies below the values that the statements leave, if those that bind a name count. -/
theorem LastBound.lt (hcounts : ∀ e : Datum, e.isBinding = true → counts e = true)
    (h : LastBound counts statements x n) : n < statements.countP counts := by
  obtain ⟨before, d, after, rfl, hname, -, rfl⟩ := h
  rw [List.countP_append, List.countP_cons, hcounts d (Datum.isBinding_of_newName hname), if_pos rfl]
  omega

end LastBound

namespace Frame

/-- `f.HasTable counts statements`: each name has the slot of its last binding, and no other names have one. -/
def HasTable (counts : Datum → Bool) (statements : List Datum) (f : Frame) : Prop :=
  ∀ x slot, f.slot? x = some slot ↔ LastBound counts statements x slot

namespace HasTable

variable {counts : Datum → Bool} {statements : List Datum} {f : Frame} {d : Datum}

theorem nil {f : Frame} (h : f.slots = []) : f.HasTable counts [] := by
  intro x slot
  constructor
  · intro hslot
    rw [slot?, h] at hslot
    cases hslot
  · rintro ⟨before, d, after, hsplit, -⟩
    exact absurd hsplit (by simp)

/-- `HasTable` after a statement that binds no name. -/
theorem pass (h : f.HasTable counts statements) (hname : d.newName? = none) :
    f.HasTable counts (statements ++ [d]) := by
  intro x slot
  have hne : d.newName? ≠ some x := hname ▸ (Option.some_ne_none x).symm
  rw [lastBound_concat_of_ne hne, h x slot]

/-- `HasTable` after a statement that binds a name to the value that it left. -/
theorem bind {word : String} (h : f.HasTable counts statements) (hname : d.newName? = some word) :
    (f.bind word (statements.countP counts)).HasTable counts (statements ++ [d]) := by
  intro x slot
  by_cases hx : x = word
  · subst hx
    rw [lastBound_concat_self hname, slot?_bind_self, Option.some_inj, eq_comm]
  · have hne : d.newName? ≠ some x := fun hd => hx (Option.some.inj (hd.symm.trans hname))
    rw [lastBound_concat_of_ne hne, slot?_bind_of_ne f _ hx, h x slot]

end HasTable

end Frame

/-! ## Balanced code -/

/-- `Balanced c c' n m code read`: code between two states of the counters, from depth `n` to depth `m`,
    that reads the names of `read`.  It moves the stack pointer down and up again once for each printing
    sequence. -/
structure Balanced (c c' : Counters) (n m : Nat) (code : List Item) (read : List Mention) : Prop where
  fresh : Fresh c c' code
  depth : replay n code = some m
  reads : List.Forall₂ Read.Reaches (readsFrom n code) read
  moves : adjustments code =
    (List.replicate (c'.prints - c.prints) [-printBuffer, printBuffer]).flatten

/-- `Balanced` composes along `++`. -/
theorem Balanced.append {c₁ c₂ c₃ : Counters} {n₁ n₂ n₃ : Nat} {code code' : List Item}
    {read read' : List Mention} (h : Balanced c₁ c₂ n₁ n₂ code read)
    (h' : Balanced c₂ c₃ n₂ n₃ code' read') :
    Balanced c₁ c₃ n₁ n₃ (code ++ code') (read ++ read') := by
  refine ⟨h.fresh.append h'.fresh, ?_, ?_, ?_⟩
  · rw [replay_append h.depth, h'.depth]
  · rw [readsFrom_append h.depth]
    exact List.rel_append h.reads h'.reads
  · have hprints : c₃.prints - c₁.prints = (c₂.prints - c₁.prints) + (c₃.prints - c₂.prints) := by
      have := h.fresh.prints
      have := h'.fresh.prints
      omega
    rw [adjustments_append, h.moves, h'.moves, hprints, ← List.replicate_append_replicate,
      List.flatten_append]

section Pieces

variable (c : Counters) (n : Nat)

theorem balanced_nil : Balanced c c n n [] [] :=
  ⟨fresh_instrs [] (by simp), rfl, .nil, by rw [Nat.sub_self]; rfl⟩

theorem balanced_literal (v : Int) :
    Balanced c c n (n + 1) [.instr (.mov (.reg .rax) (.imm v)), .instr (.push .rax)] [] :=
  ⟨fresh_literal c v, rfl, .nil, by rw [Nat.sub_self]; rfl⟩

/-- `Balanced` for a reference: the offset is that of the slot of the last binding. -/
theorem balanced_reference {n slot : Nat} {m : Mention}
    (hslot : LastBound Datum.leavesValue m.before m.name slot) (hlt : slot < n) :
    Balanced c c n (n + 1)
      [.instr (.mov (.reg .rax) (.mem .rsp (some (((n : Int) - slot - 1) * slotSize)))),
        .instr (.push .rax)] [m] := by
  refine ⟨fresh_reference c _, rfl, .cons ⟨Int.dvd_mul_left _ _, ?_, ?_, slot, hslot, ?_⟩ .nil, ?_⟩
  · show 0 ≤ ((n : Int) - slot - 1) * (8 : Nat)
    omega
  · show ((n : Int) - slot - 1) * (8 : Nat) < (8 : Nat) * (n : Int)
    omega
  · show ((n : Int) - slot - 1) * (8 : Nat) = (8 : Nat) * ((n : Int) - 1 - slot)
    omega
  · rw [Nat.sub_self]
    rfl

theorem balanced_operator {operator : String} {combine : Instr}
    (h : Lowering.arithmetic? operator = some combine) :
    Balanced c c (n + 2) (n + 1)
      [.instr (.pop .rbx), .instr (.pop .rax), .instr combine, .instr (.push .rax)] [] := by
  refine ⟨fresh_operator c h, ?_, ?_, ?_⟩
  · rcases Lowering.arithmetic_cases h with ⟨-, rfl⟩ | ⟨-, rfl⟩ | ⟨-, rfl⟩ <;> rfl
  · rcases Lowering.arithmetic_cases h with ⟨-, rfl⟩ | ⟨-, rfl⟩ | ⟨-, rfl⟩ <;> exact .nil
  · rw [Nat.sub_self]
    rcases Lowering.arithmetic_cases h with ⟨-, rfl⟩ | ⟨-, rfl⟩ | ⟨-, rfl⟩ <;> rfl

theorem balanced_print :
    Balanced c { c with prints := c.prints + 1 } n n (printItems c.prints) [] :=
  ⟨fresh_print c, rfl, .nil, by rw [Nat.add_sub_cancel_left]; rfl⟩

theorem balanced_range :
    Balanced c { c with loops := c.loops + 1 } (n + 1) (n + 1) (rangeItems c.loops) [] :=
  ⟨fresh_range c, rfl, .nil, by rw [Nat.sub_self]; rfl⟩

theorem balanced_exit : Balanced c c (n + 1) n exitItems [] :=
  ⟨fresh_exit c, rfl, .nil, by rw [Nat.sub_self]; rfl⟩

end Pieces

/-! ## Frames whose depth is that of their code -/

namespace Frame

/-- `f.Follows read`: the code of the frame is `Balanced`, and has read these names. -/
structure Follows (f : Frame) (read : List Mention) : Prop where
  prologue : f.prologue = ZebLang.prologue
  code : Balanced ⟨0, 0⟩ f.counters 0 f.depth (itemsOf f.lines.toList) read

/-- `f.Stands before n read`: a frame after the statements `before`, or inside of the next.  It has the slots
    of the names that they bind, `n` values on the stack, and has read these names. -/
structure Stands (before : List Datum) (n : Nat) (read : List Mention) (f : Frame) : Prop where
  follows : f.Follows read
  depth : f.depth = n
  table : f.HasTable Datum.leavesValue before

variable {f g : Frame} {before : List Datum} {n m : Nat} {read new : List Mention} {code : List Item}

/-- `Stands` with one more piece of `Balanced` code. -/
theorem Stands.gains {c : Counters} (hf : f.Stands before n read) (hgains : f.Gains g code m)
    (hcounters : g.counters = c) (hcode : Balanced f.counters c n m code new) :
    g.Stands before m (read ++ new) := by
  subst hcounters
  refine ⟨⟨hgains.prologue.trans hf.follows.prologue, ?_⟩, hgains.depth, ?_⟩
  · have hbefore := hf.follows.code
    rw [hf.depth] at hbefore
    rw [hgains.items, hgains.depth]
    exact hbefore.append hcode
  · intro x slot
    rw [slot?, hgains.slots]
    exact hf.table x slot

/-- `Stands`: where lowering stops, some first of the mentioned names are read. -/
theorem Stands.stopped (hf : f.Stands before n read) (mentioned : List Mention) :
    ∃ part, part <+: mentioned ∧ f.Follows (read ++ part) :=
  ⟨[], List.nil_prefix, by rw [List.append_nil]; exact hf.follows⟩

/-- `Stands` after a statement that binds no name. -/
theorem Stands.pass {d : Datum} (hf : f.Stands before n read) (hname : d.newName? = none) :
    f.Stands (before ++ [d]) n read :=
  ⟨hf.follows, hf.depth, hf.table.pass hname⟩

/-- `Stands` after a statement that binds a name to the value that it left. -/
theorem Stands.bind {d : Datum} {word : String} (hf : f.Stands before n read) (hname : d.newName? = some word) :
    (f.bind word (before.countP Datum.leavesValue)).Stands (before ++ [d]) n read :=
  ⟨⟨hf.follows.prologue, hf.follows.code⟩, hf.depth, hf.table.bind hname⟩

end Frame

/-! ## Tracing -/

/-- `isImbalance`: the two faults of a lowering that lost count of its values. -/
def Fault.isImbalance : Fault → Bool
  | .underflow _ | .unbalanced _ _ _ => true
  | _ => false

namespace Lowering

/-- `Traces before n x mentioned after m`: `x` leads from a frame after the statements `before` to one after
    the statements `after`, and reads the names that are mentioned on the way.  If it stops, it has read
    some first of them, and it has not lost count. -/
def Traces (before : List Datum) (n : Nat) (x : Lowering Unit) (mentioned : List Mention)
    (after : List Datum) (m : Nat) : Prop :=
  ∀ read, Specified (·.Stands before n read) x (fun _ g => g.Stands after m (read ++ mentioned))
    fun fault g => fault.isImbalance = false ∧ ∃ part, part <+: mentioned ∧ g.Follows (read ++ part)

/-- `Harmless x`: a failure of the check `x` is no `isImbalance`. -/
def Harmless {α : Type} (x : Except Fault α) : Prop := ∀ fault, x = .error fault → fault.isImbalance = false

namespace Traces

variable {before mid after : List Datum} {n k m : Nat} {x y : Lowering Unit}
  {mentioned mentioned' : List Mention}

/-- `Traces` composes: what is read by one step after another. -/
theorem seq (hx : Traces before n x mentioned mid k) (hy : Traces mid k y mentioned' after m) :
    Traces before n (x >>= fun _ => y) (mentioned ++ mentioned') after m := by
  intro read
  refine Specified.bind (Specified.mono (hx read) (fun _ _ h => h) ?_) fun _ =>
    Specified.mono (hy (read ++ mentioned)) ?_ ?_
  · rintro fault g ⟨hfault, part, hpart, hg⟩
    exact ⟨hfault, part, hpart.trans (List.prefix_append _ _), hg⟩
  · intro _ g hg
    rw [← List.append_assoc]
    exact hg
  · rintro fault g ⟨hfault, part, hpart, hg⟩
    refine ⟨hfault, mentioned ++ part, (List.prefix_append_right_inj _).mpr hpart, ?_⟩
    rw [← List.append_assoc]
    exact hg

/-- `Traces` with a second step that reads nothing. -/
theorem followed (hx : Traces before n x mentioned mid k) (hy : Traces mid k y [] after m) :
    Traces before n (x >>= fun _ => y) mentioned after m := by
  rw [← List.append_nil mentioned]
  exact hx.seq hy

/-- `Traces` for a check, and what is done with its result. -/
theorem check {α : Type} {e : Except Fault α} {next : α → Lowering Unit} (he : Harmless e)
    (hnext : ∀ a, e = .ok a → Traces before n (next a) mentioned after m) :
    Traces before n (Lowering.check e >>= next) mentioned after m := by
  intro read f hf
  cases e with
  | ok a => exact hnext a rfl read f hf
  | error fault => exact ⟨he fault rfl, hf.stopped mentioned⟩

/-- `Traces` for a fault that is no `isImbalance`. -/
theorem throw {fault : Fault} (h : fault.isImbalance = false) :
    Traces before n (MonadExcept.throw fault) mentioned after m :=
  fun _ _ hf => ⟨h, hf.stopped mentioned⟩

/-- `Traces` for `leavingOne`, whose check does not fail. -/
theorem leavingOne {d : Datum} (hx : Traces before n x mentioned before (n + 1)) :
    Traces before n (Lowering.leavingOne d x) mentioned before (n + 1) :=
  fun read => Specified.leavingOne (hx read) fun _ _ hf hg => by rw [hg.depth, hf.depth]

end Traces

/-! ### Pieces of expressions -/

section Pieces

variable {before : List Datum} {n : Nat}

theorem traces_literal (v : Int) : Traces before n (lowerLiteral v) [] before (n + 1) := by
  intro read f hf
  obtain ⟨hgains, hcounters⟩ := @gains_literal v f _ () rfl
  rw [hf.depth] at hgains
  exact hf.gains hgains hcounters (balanced_literal _ n v)

/-- `lowerReference` reads the name from the slot that the statements before it gave to it. -/
theorem traces_reference (hn : before.countP Datum.leavesValue ≤ n) (name : String) (place : Option Origin) :
    Traces before n (lowerReference name place) [⟨before, name⟩] before (n + 1) := by
  intro read f hf
  rcases reference_cases f name place with ⟨g, hrun⟩ | ⟨-, hrun⟩
  · obtain ⟨slot, hslot, hgains, hcounters⟩ := gains_reference hrun
    have hlast := (hf.table name slot).mp hslot
    rw [hf.depth] at hgains
    rw [hrun]
    -- the slot lies among the values of the statements, and these lie below the rest
    have hlt := hlast.lt fun _ => Datum.leavesValue_of_isBinding
    exact hf.gains hgains hcounters (balanced_reference f.counters hlast (by omega))
  · rw [hrun]
    exact ⟨rfl, hf.stopped _⟩

/-- `lowerOperator` reads no name and takes two values to one. -/
theorem traces_operator (operator : String) (place : Option Origin) :
    Traces before (n + 2) (lowerOperator operator place) [] before (n + 1) := by
  intro read f hf
  rcases operator_cases operator place hf.depth with ⟨g, hrun⟩ | ⟨-, hrun⟩
  · obtain ⟨combine, depth, hcombine, hdepth, hgains, hcounters⟩ := gains_operator hrun
    have hsame : depth = n := by
      have := hf.depth
      omega
    subst hsame
    rw [hrun]
    exact hf.gains hgains hcounters (balanced_operator f.counters depth hcombine)
  · rw [hrun]
    exact ⟨rfl, hf.stopped _⟩

/-- `lowerCall` reads no name and keeps the depth. -/
theorem traces_call (name : String) (place : Option Origin) :
    Traces before (n + 1) (lowerCall name place) [] before (n + 1) := by
  intro read f hf
  rcases call_cases name place hf.depth with ⟨g, hrun⟩ | ⟨-, hrun⟩
  · rw [hrun]
    rcases gains_call hrun with ⟨-, hgains, hcounters⟩ | ⟨-, hgains, hcounters⟩
    · rw [hf.depth] at hgains
      exact hf.gains hgains hcounters (balanced_print f.counters (n + 1))
    · rw [hf.depth] at hgains
      exact hf.gains hgains hcounters (balanced_range f.counters n)
  · rw [hrun]
    exact ⟨rfl, hf.stopped _⟩

/-- `Traces` for a field that a node does not have. -/
theorem traces_lacking {α : Type} {mentioned : List Mention} {after : List Datum} {m : Nat} (d : Datum)
    (field : String) (k : α → Lowering Unit) :
    Traces before n (check (d.ask field none) >>= k) mentioned after m :=
  fun _ _ hf => ⟨rfl, hf.stopped mentioned⟩

end Pieces

/-! ### Checks -/

theorem harmless_ok {α : Type} (a : α) : Harmless (.ok a : Except Fault α) := fun _ h => nomatch h

/-- `Harmless` composes along `bind`. -/
theorem Harmless.bind {α β : Type} {x : Except Fault α} {k : α → Except Fault β} (hx : Harmless x)
    (hk : ∀ a, Harmless (k a)) : Harmless (x >>= k) := by
  cases x with
  | ok a => exact hk a
  | error fault =>
    intro fault' h
    cases h
    exact hx fault rfl

/-- `structural` is harmless: it fails with `unwritable` only. -/
theorem harmless_structural (d : Datum) : Harmless d.structural := by
  intro fault h
  rw [d.unwritable_of_structural h]
  rfl

/-- `Harmless` for a refusal that quotes a text. -/
theorem harmless_refusal {α : Type} {x : Except Fault String} (hx : Harmless x) (d : Datum)
    (detail : String → String) :
    Harmless (x >>= fun text => (.error (malformed d (some (detail text))) : Except Fault α)) := by
  refine hx.bind fun text fault h => ?_
  cases h
  rfl

theorem harmless_literalOf (d value : Datum) : Harmless (literalOf d value) := by
  unfold literalOf
  split
  next v =>
    split
    · exact harmless_ok _
    · exact harmless_refusal (harmless_structural (.int v)) d _
  next => exact harmless_refusal (harmless_structural _) d _

theorem harmless_nameOf (d name : Datum) : Harmless (nameOf d name) := by
  unfold nameOf
  dsimp only
  split
  next word =>
    split
    · exact harmless_refusal (harmless_structural _) d _
    · exact harmless_ok _
  next => exact harmless_refusal (harmless_structural _) d _

theorem harmless_operatorOf (d operator : Datum) : Harmless (operatorOf d operator) := by
  unfold operatorOf
  split
  next => exact harmless_ok _
  next => exact harmless_refusal (harmless_structural _) d _

theorem harmless_boundName? (d : Datum) : Harmless (boundName? d) := by
  unfold boundName?
  split
  next => exact (harmless_nameOf _ _).bind fun _ => harmless_ok _
  next => exact (harmless_nameOf _ _).bind fun _ => harmless_ok _
  next => exact harmless_ok _

theorem harmless_askExpression (d : Datum) : Harmless d.askExpression := by
  unfold Datum.askExpression Datum.ask
  split
  next => exact harmless_ok _
  next =>
    intro fault h
    cases h
    rfl

theorem harmless_isRange (d : Datum) : Harmless (isRange d) := by
  unfold isRange
  split
  next => exact (harmless_nameOf _ _).bind fun _ => harmless_ok _
  next => exact harmless_ok _

/-! ### Expressions -/

/-- `lowerByTitle` can only read a name, unless the node is extended: there is no other field that the
    rule of another kind asks for. -/
theorem traces_mistitled {before : List Datum} {n : Nat} {d : Datum} {name : Option String}
    {code : Additions (Lowering Unit)} (hn : before.countP Datum.leavesValue ≤ n)
    (hextended : d.isExtended = false) (hplain : ¬isPlain d = true)
    (hexpression : d.expression? = d.added.expression) (hcode : code = d.added.map lowerExpression)
    (hname : name.or d.added.name = d.name?.bind Datum.word?) :
    Traces before n (lowerByTitle d name code) (d.ownName.map (Mention.mk before)) before (n + 1) := by
  have hadded := fun kind => @Datum.added_of_not_isExtended d kind hextended (Bool.eq_false_iff.mpr hplain)
  unfold lowerByTitle
  rw [hname, hcode]
  split
  case h_1 hrule | h_2 hrule | h_5 hrule | h_7 hrule | h_8 hrule =>
    rw [hadded _ hrule rfl]
    exact traces_lacking d _ _
  case h_3 hrule =>
    rw [Datum.askExpression, hexpression, hadded _ hrule rfl]
    exact traces_lacking d _ _
  case h_4 => exact .throw rfl
  case h_6 hrule =>
    -- the title of a reference, over a kind that has a name or one that has none
    rw [Datum.ownName, if_pos hrule]
    cases d.name?.bind Datum.word? with
    | none => exact traces_lacking d _ _
    | some word => exact traces_reference hn word d.location?
  case h_9 => exact .throw rfl

/-- `lowerExpression` reads `namesRead` one after another and leaves one value, by induction on the
    expression. -/
theorem traces_expression {before : List Datum} {d : Datum} : ∀ {n}, d.isUnextended = true →
    before.countP Datum.leavesValue ≤ n →
    Traces before n (lowerExpression d) (d.namesRead.map (Mention.mk before)) before (n + 1) := by
  induction d using expression_induction with
  | literal tag value _ =>
    intro n hunextended hn
    have hextended := Datum.not_isExtended hunextended
    rw [lowerExpression, Datum.namesRead]
    · refine .leavingOne (.check (harmless_literalOf _ _) fun v _ => ?_)
      split
      next hplain =>
        rw [Datum.ownName, rule_of_isPlain hplain]
        exact traces_literal v
      next hplain =>
        exact traces_mistitled hn hextended hplain rfl (lowerTag_eq tag) (Datum.bind_word_map_text _).symm
    all_goals
      intros
      contradiction
  | reference tag name _ =>
    intro n hunextended hn
    have hextended := Datum.not_isExtended hunextended
    rw [lowerExpression, Datum.namesRead]
    · refine .leavingOne (.check (harmless_nameOf _ _) fun word hword => ?_)
      obtain rfl := nameOf_eq_ok hword
      split
      next hplain =>
        rw [Datum.ownName, rule_of_isPlain hplain]
        exact traces_reference hn word _
      next hplain => exact traces_mistitled hn hextended hplain rfl (lowerTag_eq tag) rfl
    all_goals
      intros
      contradiction
  | binary tag left operator right ihleft ihright _ =>
    intro n hunextended hn
    have hextended := Datum.not_isExtended hunextended
    rw [Datum.isUnextended, Bool.and_eq_true, Bool.and_eq_true] at hunextended
    obtain ⟨-, hleft, hright⟩ := hunextended
    rw [lowerExpression, Datum.namesRead]
    refine .leavingOne (.check (harmless_operatorOf _ _) fun word _ => ?_)
    split
    next hplain =>
      rw [List.map_append]
      exact (ihleft hleft hn).seq ((ihright hright (by omega)).followed (traces_operator word _))
    next hplain =>
      exact traces_mistitled hn hextended hplain rfl (lowerTag_eq tag) (Datum.bind_word_map_text _).symm
  | call tag name argument ih _ =>
    intro n hunextended hn
    have hextended := Datum.not_isExtended hunextended
    rw [Datum.isUnextended, Bool.and_eq_true] at hunextended
    rw [lowerExpression, Datum.namesRead]
    refine .leavingOne (.check (harmless_nameOf _ _) fun word hword => ?_)
    obtain rfl := nameOf_eq_ok hword
    split
    next hplain => exact (ih hunextended.2 hn).followed (traces_call word _)
    next hplain => exact traces_mistitled hn hextended hplain rfl (lowerTag_eq tag) rfl
  | other d hliteral hreference hbinary hcall =>
    intro n _ hn
    rw [lowerExpression]
    · exact .throw rfl
    all_goals assumption

/-! ### Statements -/

/-- `boundName?` gives the name that the statement binds, if need be with one that was added to it. -/
theorem name_of_boundName? {d : Datum} {bound : Option String} (hstatement : d.isStatement = true)
    (h : boundName? d = .ok bound) : bound.or d.added.name = d.name?.bind Datum.word? := by
  cases d with
  | assign tag name e | loop tag name e =>
    obtain ⟨word, rfl, rfl⟩ := boundName?_eq_ok h
    rfl
  | exit | endLoop | bare =>
    cases h
    exact (Datum.bind_word_map_text _).symm
  | _ => cases hstatement

section Statements

variable {before : List Datum}

/-- `Traces` for code that a rule asks for, if the node has an expression. -/
theorem traces_asked {d : Datum} {k : Lowering Unit → Lowering Unit} {mentioned : List Mention}
    {after : List Datum} {n m : Nat}
    (h : ∀ e, d.expression? = some e → Traces before n (k (lowerExpression e)) mentioned after m) :
    Traces before n (check (d.ask "expression" (d.expression?.map lowerExpression)) >>= k) mentioned after m := by
  cases he : d.expression? with
  | none => exact traces_lacking d _ k
  | some e => exact h e he

/-- `lowerBinding` leaves the value of the expression in the slot of the name that is bound to it. -/
theorem traces_binding {d e : Datum} (he : e.isUnextended = true) (hbinding : d.isBinding = true) :
    Traces before (before.countP Datum.leavesValue)
      (lowerBinding d (lowerExpression e) (d.name?.bind Datum.word?)) (e.namesRead.map (Mention.mk before))
      (before ++ [d]) ((before ++ [d]).countP Datum.leavesValue) := by
  intro read
  refine Specified.get fun f hf => ?_
  rintro g rfl
  have hname : d.newName? = d.name?.bind Datum.word? := by rw [Datum.newName?, if_pos hbinding]
  have hcount : (before ++ [d]).countP Datum.leavesValue = before.countP Datum.leavesValue + 1 := by
    rw [List.countP_append, List.countP_singleton, Datum.leavesValue_of_isBinding hbinding, if_pos rfl]
  cases hword : d.name?.bind Datum.word? with
  | none => exact (traces_expression he (Nat.le_refl _)).followed (traces_lacking d _ _) read g hf
  | some word =>
    rw [hword] at hname
    -- the slot is the depth before the value was pushed, which is the number of values left so far
    have hbind : Traces before (before.countP Datum.leavesValue + 1) (modify (·.bind word g.depth)) []
        (before ++ [d]) ((before ++ [d]).countP Datum.leavesValue) := by
      intro read h hh
      rw [hf.depth, hcount, List.append_nil]
      exact hh.bind hname
    exact (traces_expression he (Nat.le_refl _)).followed hbind read g hf

theorem traces_exit {n : Nat} : Traces before (n + 1) lowerExit [] before n := by
  intro read f hf
  obtain ⟨g, hrun, hgains, hcounters⟩ := exit_runs hf.depth
  rw [hrun]
  exact hf.gains hgains hcounters (balanced_exit _ _)

/-- `Traces` to one statement more, if this binds no name. -/
theorem Traces.pass {x : Lowering Unit} {mentioned : List Mention} {d : Datum} {n m : Nat}
    (hx : Traces before n x mentioned before m) (hname : d.newName? = none) :
    Traces before n x mentioned (before ++ [d]) m :=
  fun read => Specified.mono (hx read) (fun _ _ hg => hg.pass hname) fun _ _ h => h

/-- `lowerStatement` reads `statementReads`, and binds the name to the value. -/
theorem traces_statement {d : Datum} {name : Option String} (hunextended : d.isUnextended = true)
    (hstatement : d.isStatement = true) (hbound : boundName? d = .ok name) :
    Traces before (before.countP Datum.leavesValue) (lowerStatement d name)
      (d.statementReads.map (Mention.mk before)) (before ++ [d])
      ((before ++ [d]).countP Datum.leavesValue) := by
  have hextended := Datum.not_isExtended hunextended
  have hexpression := fun hrule e => @Datum.isUnextended_expression d e hunextended hrule
  have hcount : (before ++ [d]).countP Datum.leavesValue =
      before.countP Datum.leavesValue + if d.leavesValue then 1 else 0 := by
    rw [List.countP_append, List.countP_singleton]
  -- none of these rules is that of a statement, so the fields that they ask for would have been added
  have hadded : ∀ kind, d.rule? = some kind → kind.isLowered = true → kind.isStatement = false →
      d.added = {} := by
    intro kind hrule hlowered hkind
    exact Datum.added_of_not_isExtended hextended (not_isPlain_of_rule hstatement hrule hkind) hrule hlowered
  unfold lowerStatement lowerByTitle
  rw [name_of_boundName? hstatement hbound]
  split
  case h_1 hrule =>
    rw [hcount]
    refine traces_asked fun e he => ?_
    rw [Datum.statementReads, hrule, he]
    have hnone : d.newName? = none := by rw [Datum.newName?, Datum.isBinding, hrule]; rfl
    have hleaves : d.leavesValue = false := by rw [Datum.leavesValue, Datum.isBinding, hrule]; rfl
    rw [hleaves]
    exact ((traces_expression (hexpression (by rw [hrule]; rfl) e he) (Nat.le_refl _)).followed traces_exit).pass hnone
  case h_2 hrule =>
    refine traces_asked fun e he => ?_
    rw [Datum.statementReads, hrule, he]
    exact traces_binding (hexpression (by rw [hrule]; rfl) e he) (by rw [Datum.isBinding, hrule])
  case h_3 hrule =>
    refine .check (harmless_askExpression d) fun iterable _ => .check (harmless_isRange iterable) fun counts _ => ?_
    cases counts with
    | false => exact .throw rfl
    | true =>
      refine traces_asked fun e he => ?_
      rw [Datum.statementReads, hrule, he]
      exact traces_binding (hexpression (by rw [hrule]; rfl) e he) (by rw [Datum.isBinding, hrule])
  case h_4 => exact .throw rfl
  case h_5 hrule | h_7 hrule | h_8 hrule =>
    rw [hadded _ hrule rfl rfl]
    exact traces_lacking d _ _
  case h_6 hrule =>
    -- a statement with the title of a reference leaves a value, but binds no name to it
    have hnone : d.newName? = none := by rw [Datum.newName?, Datum.isBinding, hrule]; rfl
    have hleaves : d.leavesValue = true := by rw [Datum.leavesValue, hrule, beq_self_eq_true, Bool.or_true]
    rw [Datum.statementReads, hrule, Datum.ownName, if_pos hrule, hcount, hleaves]
    cases d.name?.bind Datum.word? with
    | none => exact traces_lacking d _ _
    | some word => exact (traces_reference (Nat.le_refl _) word _).pass hnone
  case h_9 => exact .throw rfl

/-- `lowerElement` reads `statementReads`, and is one statement more. -/
theorem traces_element {d : Datum} (hunextended : d.isUnextended = true) :
    Traces before (before.countP Datum.leavesValue) (lowerElement false d)
      (d.statementReads.map (Mention.mk before)) (before ++ [d])
      ((before ++ [d]).countP Datum.leavesValue) := by
  unfold lowerElement
  cases hstatement : d.isStatement with
  | false => exact fun _ _ hf => ⟨rfl, hf.stopped _⟩
  | true =>
    refine .check (harmless_boundName? d) fun name hname => ?_
    have hlower := @traces_statement before d name hunextended hstatement hname
    exact fun read f hf => hlower read (f.note _) ⟨⟨hf.follows.prologue, hf.follows.code⟩, hf.depth, hf.table⟩

end Statements

/-- `lowerAll` reads all `mentions`, by induction on the list. -/
theorem traces_all {statements : List Datum} : ∀ before, (∀ d ∈ statements, d.isUnextended = true) →
    Traces before (before.countP Datum.leavesValue) (lowerAll false statements) (mentions before statements)
      (before ++ statements) ((before ++ statements).countP Datum.leavesValue) := by
  induction statements with
  | nil =>
    intro before _ read f hf
    rw [mentions, List.append_nil, List.append_nil]
    exact hf
  | cons d rest ih =>
    intro before hunextended
    have hrest := ih (before ++ [d]) fun e he => hunextended e (List.mem_cons_of_mem d he)
    rw [List.append_assoc] at hrest
    exact (traces_element (hunextended d List.mem_cons_self)).seq hrest

theorem traces_program {statements : List Datum} (hunextended : ∀ d ∈ statements, d.isUnextended = true) :
    Traces [] 0 (lowerProgram false statements) (mentions [] statements) statements
      (statements.countP Datum.leavesValue) := by
  have hnote : ∀ {before n}, Traces before n (do
      let f ← get
      note (.generated statements.length f.depth f.loops)) [] before n := by
    intro before n read f hf
    rw [List.append_nil]
    exact ⟨⟨hf.follows.prologue, hf.follows.code⟩, hf.depth, hf.table⟩
  have hall := traces_all [] hunextended
  rw [List.nil_append, List.countP_nil] at hall
  exact hall.followed hnote

end Lowering

/-! ## Programs -/

/-- `assemble` reads back the text of a frame that `Follows`, and what it says about the stack is what the
    frame says. -/
theorem Frame.Follows.assemble {f : Frame} {read : List Mention} (h : f.Follows read) :
    ∃ items, assemble f.text = some items ∧ replay 0 items = some f.depth ∧
      List.Forall₂ Read.Reaches (readsFrom 0 items) read ∧
      adjustments items = (List.replicate f.prints [-printBuffer, printBuffer]).flatten := by
  have hcode := h.code
  refine ⟨_, assemble_text h.prologue ?_ hcode.fresh.nodup_labelNames, ?_, ?_, ?_⟩
  · exact fun l hl => hcode.fresh.known l.item (List.mem_map_of_mem hl)
  · rw [replay_named]
    exact hcode.depth
  · rw [readsFrom_named]
    exact hcode.reads
  · rw [adjustments_named]
    exact hcode.moves

end ZebLang
