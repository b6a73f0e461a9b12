/-
  Where code stores.

  An instruction stores at most one run of bytes, at an address that its operands give (`Machine.stored?`),
  and leaves the rest of memory as it is (`Machine.memory_of_exec`).  A state is confined to a piece of
  memory if the next line stores nothing outside it.

  1. `Passes` is a finite number of steps, each from a state with some property.  A state has one next
     state, so whatever is reached from the start was passed on the way or lies behind the end
     (`Passes.reached`); and if the machine halts at the end, nothing lies behind it (`Passes.of_reached`).
  2. `Stays` is the case of confined states: all that is stored on the way is stored in one piece of memory,
     so everything outside it stays as it is (`Stays.memory`).
  3. Of the lines of a block only those that store have to be looked at: straight code stays where its stores
     lie (`Sits.stays`), and labels, jumps and system calls store nothing.
-/

import ZebLang.Proofs.Machine.Block

namespace ZebLang

namespace Machine

variable {s : Space} {items : List Item} {m n : Machine} {low high x : Int}

/-! ## Stores -/

/-- `m.bytesAt? o`: the bytes of an operand in memory, as the address of the first and their number. -/
def bytesAt? (m : Machine) : Operand → Option (Int × Nat)
  | .mem base offset => some (m.address base offset, 8)
  | .byteMem base => some (m.address base none, 1)
  | _ => none

/-- `m.stored? s i`: the bytes that an instruction stores, as the address of the first and their number. -/
def stored? (m : Machine) (s : Space) : Instr → Option (Int × Nat)
  | .mov (.mem base offset) .dl => some (m.address base offset, 1)
  | .mov target _ | .add target _ | .sub target _ | .xor target _ => m.bytesAt? target
  | .push _ => some (s.hold .rsp (m.registers .rsp - 8), 8)
  | _ => none

/-- `write` changes memory only in `bytesAt?`. -/
theorem memory_of_write {v : Int} {o : Operand} (hwrite : m.write s v o = some n)
    (hx : ∀ w ∈ m.bytesAt? o, x < w.1 ∨ w.1 + (w.2 : Int) ≤ x) : n.memory x = m.memory x := by
  cases o with
  | mem base offset =>
    cases hwrite
    exact Memory.store_of_outside m.memory v 8 (hx _ rfl)
  | byteMem base =>
    cases hwrite
    exact Memory.store_of_outside m.memory v 1 (hx _ rfl)
  | imm value => cases hwrite
  | reg r | dl =>
    cases hwrite
    rfl

/-- `exec` changes memory only in `stored?`. -/
theorem memory_of_exec {i : Instr} (hexec : m.exec s i = some n)
    (hx : ∀ w ∈ m.stored? s i, x < w.1 ∨ w.1 + (w.2 : Int) ≤ x) : n.memory x = m.memory x := by
  cases i with
  | mov target source =>
    by_cases hbyte : ∃ base offset, target = .mem base offset ∧ source = .dl
    · -- the one store whose size is that of its source
      obtain ⟨base, offset, rfl, rfl⟩ := hbyte
      cases hexec
      exact Memory.store_of_outside m.memory _ 1 (hx _ rfl)
    · have hplain : m.exec s (.mov target source) = m.write s (m.read source) target ∧
          m.stored? s (.mov target source) = m.bytesAt? target := by
        constructor
        · rw [exec]
          rintro base offset rfl rfl
          exact hbyte ⟨base, offset, rfl, rfl⟩
        · rw [stored?]
          rintro base offset rfl rfl
          exact hbyte ⟨base, offset, rfl, rfl⟩
      rw [hplain.1] at hexec
      rw [hplain.2] at hx
      exact memory_of_write hexec hx
  | add target source | sub target source | xor target source => exact memory_of_write hexec hx
  | push r =>
    cases hexec
    show (m.memory.store _ _ 8) x = m.memory x
    apply Memory.store_of_outside
    simpa using hx _ rfl
  | div r =>
    have hdivide : m.divide s (m.registers r) = some n := hexec
    unfold divide at hdivide
    dsimp only at hdivide
    split at hdivide
    · cases hdivide
    · cases hdivide
      rfl
  | jump | syscall => cases hexec
  | _ =>
    cases hexec
    rfl

/-- `m.Confined s items low high`: the next line stores nothing outside the bytes from `low` up to `high`,
    which is left out. -/
def Confined (s : Space) (items : List Item) (low high : Int) (m : Machine) : Prop :=
  ∀ i, items[m.place]? = some (.instr i) → ∀ w ∈ m.stored? s i, low ≤ w.1 ∧ w.1 + (w.2 : Int) ≤ high

/-- `Confined` for an instruction that stores within the bounds. -/
theorem confined_of_stores {i : Instr} (hline : items[m.place]? = some (.instr i))
    (hstores : ∀ w ∈ m.stored? s i, low ≤ w.1 ∧ w.1 + (w.2 : Int) ≤ high) : m.Confined s items low high := by
  intro i' hi'
  cases hline.symm.trans hi'
  exact hstores

/-- `Confined` for a line that is no instruction, or one that stores nothing. -/
theorem confined_of_silent {item : Item} (hline : items[m.place]? = some item)
    (hitem : ∀ i, item = .instr i → m.stored? s i = none) : m.Confined s items low high := by
  intro i hi w hw
  rw [hitem i (Option.some.inj (hline.symm.trans hi))] at hw
  cases hw

/-- `Confined` behind the last line. -/
theorem confined_of_end (hline : items[m.place]? = none) : m.Confined s items low high := by
  intro i hi
  cases hline.symm.trans hi

/-- `step` from a `Confined` state keeps memory outside the bounds. -/
theorem memory_of_step (h : m.Confined s items low high) (hstep : m.step s items = .goes n)
    (hx : x < low ∨ high ≤ x) : n.memory x = m.memory x := by
  unfold step at hstep
  split at hstep
  · cases hstep
  · cases hstep
    rfl
  · cases hstep
    rfl
  · cases hstep
  · -- a jump
    split at hstep
    · split at hstep
      · cases hstep
        rfl
      · cases hstep
    · cases hstep
      rfl
  · -- a system call
    unfold call at hstep
    split at hstep
    · cases hstep
    · split at hstep
      · cases hstep
        rfl
      · cases hstep
  · next i _ _ hline =>
    split at hstep
    · next k hexec =>
      cases hstep
      show k.memory x = m.memory x
      apply memory_of_exec hexec
      intro w hw
      have hwithin := h i hline w hw
      omega
    · cases hstep

end Machine

/-! ## Steps from states with a property -/

/-- `Passes s items p m n`: finitely many steps from `m` to `n`, each from a state with the property `p`. -/
inductive Passes (s : Space) (items : List Item) (p : Machine → Prop) : Machine → Machine → Prop where
  | refl (m : Machine) : Passes s items p m m
  | head {m n k : Machine} (hm : p m) (hstep : m.step s items = .goes n) (hrest : Passes s items p n k) :
      Passes s items p m k

namespace Passes

variable {s : Space} {items : List Item} {p : Machine → Prop} {m n k j : Machine}

theorem one (hm : p m) (hstep : m.step s items = .goes n) : Passes s items p m n := .head hm hstep (.refl n)

theorem trans (h : Passes s items p m n) (h' : Passes s items p n k) : Passes s items p m k := by
  induction h with
  | refl m => exact h'
  | head hm hstep _ ih => exact .head hm hstep (ih h')

/-- `Passes` is monotone in the property. -/
theorem mono {q : Machine → Prop} (h : Passes s items p m k) (hpq : ∀ j, p j → q j) :
    Passes s items q m k := by
  induction h with
  | refl m => exact .refl m
  | head hm hstep _ ih => exact .head (hpq _ hm) hstep ih

/-- `Passes` is a way to reach the state. -/
theorem reaches (h : Passes s items p m k) : Reaches s items m k := by
  induction h with
  | refl m => exact .refl m
  | head _ hstep _ ih => exact .head hstep ih

/-- `Passes`: a state that is reached has `p` and a next step, or it lies behind the end of the way. -/
theorem reached (h : Passes s items p m k) (hj : Reaches s items m j) :
    (p j ∧ ∃ n, j.step s items = .goes n) ∨ Reaches s items k j := by
  induction h with
  | refl m => exact .inr hj
  | head hm hstep _ ih =>
    cases hj with
    | refl => exact .inl ⟨hm, _, hstep⟩
    | head hstep' hrest =>
      cases hstep.symm.trans hstep'
      exact ih hrest

end Passes

/-- `Reaches` from a state in which the machine halts leads nowhere else. -/
theorem Reaches.eq_of_halts {s : Space} {items : List Item} {m k j : Machine} {how : Halt}
    (hj : Reaches s items m j) (hhalt : m.step s items = .halts how k) : j = m := by
  cases hj with
  | refl => rfl
  | head hstep _ => cases hhalt.symm.trans hstep

/-- `Passes` to a state in which the machine halts: every state that is reached has `p`, and no line faults
    there. -/
theorem Passes.of_reached {s : Space} {items : List Item} {p : Machine → Prop} {m k k' j : Machine}
    {how : Halt} (h : Passes s items p m k) (hk : p k) (hhalt : k.step s items = .halts how k')
    (hj : Reaches s items m j) : p j ∧ j.step s items ≠ .fault := by
  rcases h.reached hj with ⟨hpj, next, hstep⟩ | hbehind
  · refine ⟨hpj, ?_⟩
    rw [hstep]
    intro hfault
    cases hfault
  · obtain rfl := hbehind.eq_of_halts hhalt
    refine ⟨hk, ?_⟩
    rw [hhalt]
    intro hfault
    cases hfault

/-! ## Steps that stay in a piece of memory -/

/-- `Stays s items low high m n`: finitely many steps that store nothing outside the bytes from `low` up to
    `high`. -/
abbrev Stays (s : Space) (items : List Item) (low high : Int) : Machine → Machine → Prop :=
  Passes s items fun m => m.Confined s items low high

namespace Stays

variable {s : Space} {items : List Item} {low high x : Int} {m n k : Machine}

/-- `Stays` keeps memory outside the bounds. -/
theorem memory (h : Stays s items low high m k) (hx : x < low ∨ high ≤ x) : k.memory x = m.memory x := by
  induction h with
  | refl m => rfl
  | head hm hstep _ ih => exact ih.trans (Machine.memory_of_step hm hstep hx)

/-- `Stays` for a line that is no instruction, or one that stores nothing. -/
theorem silent {item : Item} (hline : items[m.place]? = some item)
    (hitem : ∀ i, item = .instr i → m.stored? s i = none) (hstep : m.step s items = .goes n) :
    Stays s items low high m n :=
  Passes.one (Machine.confined_of_silent hline hitem) hstep

theorem label {l : Label} (h : items[m.place]? = some (.label l)) : Stays s items low high m m.next :=
  silent h (fun _ hi => by cases hi) (Machine.step_label h)

theorem jump {condition : Condition} {target : Label} {place : Nat}
    (h : items[m.place]? = some (.instr (.jump condition target))) (htakes : m.takes condition = true)
    (hplace : placeOf? items target.text = some place) : Stays s items low high m { m with place } :=
  silent h (fun _ hi => by cases hi; rfl) (Machine.step_jump h htakes hplace)

theorem noJump {condition : Condition} {target : Label}
    (h : items[m.place]? = some (.instr (.jump condition target))) (htakes : m.takes condition = false) :
    Stays s items low high m m.next :=
  silent h (fun _ hi => by cases hi; rfl) (Machine.step_noJump h htakes)

theorem call (h : items[m.place]? = some (.instr .syscall)) (hstep : m.step s items = .goes n) :
    Stays s items low high m n :=
  silent h (fun _ hi => by cases hi; rfl) hstep

/-- `Stays` for an instruction whose stores lie within the bounds. -/
theorem exec {i : Instr} (h : items[m.place]? = some (.instr i)) (hexec : m.exec s i = some n)
    (hstores : ∀ w ∈ m.stored? s i, low ≤ w.1 ∧ w.1 + (w.2 : Int) ≤ high) :
    Stays s items low high m { n with place := m.place + 1 } :=
  Passes.one (Machine.confined_of_stores h hstores) (Machine.step_exec h hexec)

end Stays

/-! ## Straight code -/

/-- `m.storesAll s instrs`: all that straight code stores, in its order. -/
def Machine.storesAll (m : Machine) (s : Space) : List Instr → List (Int × Nat)
  | [] => []
  | i :: rest => (m.stored? s i).toList ++ ((m.exec s i).map fun n => n.storesAll s rest).getD []

/-- `stored?` does not depend on the place. -/
theorem Machine.stored?_place (m : Machine) (s : Space) (place : Nat) (i : Instr) :
    Machine.stored? { m with place } s i = m.stored? s i := by
  cases i with
  | mov target source => cases target <;> cases source <;> rfl
  | add target source | sub target source | xor target source => cases target <;> rfl
  | _ => rfl

/-- `storesAll` does not depend on the place. -/
theorem Machine.storesAll_place (m : Machine) (s : Space) (place : Nat) (instrs : List Instr) :
    Machine.storesAll { m with place } s instrs = m.storesAll s instrs := by
  induction instrs generalizing m with
  | nil => rfl
  | cons i rest ih =>
    rw [storesAll, storesAll, stored?_place, exec_place]
    cases m.exec s i with
    | none => rfl
    | some n =>
      congr 1
      exact ih n

/-- `Stays` for straight code whose `storesAll` lie within the bounds. -/
theorem Sits.stays {s : Space} {items code : List Item} {m n : Machine} {instrs : List Instr}
    {low high : Int} (h : Sits items m.place (instrs.map Item.instr ++ code))
    (hexec : m.execAll s instrs = some n)
    (hstores : ∀ w ∈ m.storesAll s instrs, low ≤ w.1 ∧ w.1 + (w.2 : Int) ≤ high) :
    Stays s items low high m { n with place := m.place + instrs.length } := by
  induction instrs generalizing m n with
  | nil =>
    cases hexec
    exact .refl _
  | cons i rest ih =>
    rw [Machine.execAll] at hexec
    rw [Machine.storesAll] at hstores
    cases hi : m.exec s i with
    | none =>
      rw [hi] at hexec
      cases hexec
    | some k =>
      rw [hi] at hexec hstores
      have hexec' : k.execAll s rest = some n := hexec
      have hfirst : Stays s items low high m { k with place := m.place + 1 } := by
        apply Stays.exec h.head hi
        intro w hw
        exact hstores w (List.mem_append_left _ (Option.mem_toList.mpr hw))
      have hnext : Machine.execAll { k with place := m.place + 1 } s rest =
          some { n with place := m.place + 1 } := by
        rw [Machine.execAll_place, hexec']
        rfl
      have hrest := @ih { k with place := m.place + 1 } { n with place := m.place + 1 } h.tail hnext
        (fun w hw => by
          rw [Machine.storesAll_place] at hw
          exact hstores w (List.mem_append_right _ hw))
      rw [List.length_cons, Nat.add_comm rest.length 1, ← Nat.add_assoc]
      exact hfirst.trans hrest

end ZebLang
