/-
  Blocks of code inside a program.

  `Reaches` is a finite number of steps.  `Sits` says that a block of code stands at a place of the
  program and that its labels are found there; a block sits where its parts sit.  What a block does is
  then proved from the program's point of view but without a look at the rest of it.

  `OnStack` says which values lie on the stack, the latest first.  A push and a pop change it by one
  value and leave everything else as it is.
-/

import ZebLang.Proofs.Assembly.Reader
import ZebLang.Proofs.Machine

namespace ZebLang

/-! ## Steps -/

/-- `Reaches s items m n`: the machine goes from `m` to `n` in finitely many steps. -/
inductive Reaches (s : Space) (items : List Item) : Machine → Machine → Prop where
  | refl (m : Machine) : Reaches s items m m
  | head {m n k : Machine} : m.step s items = .goes n → Reaches s items n k → Reaches s items m k

theorem Reaches.trans {s : Space} {items : List Item} {m n k : Machine} (h : Reaches s items m n)
    (h' : Reaches s items n k) : Reaches s items m k := by
  induction h with
  | refl m => exact h'
  | head hstep _ ih => exact .head hstep (ih h')

theorem Reaches.one {s : Space} {items : List Item} {m n : Machine} (h : m.step s items = .goes n) :
    Reaches s items m n := .head h (.refl n)

/-- `Reaches` a state in which the machine halts gives a `run` to there. -/
theorem Reaches.run {s : Space} {items : List Item} {m n k : Machine} {how : Halt}
    (h : Reaches s items m n) (hhalt : n.step s items = .halts how k) :
    ∃ steps, m.run s items steps = some (how, k) := by
  induction h with
  | refl m => exact ⟨1, by simp [Machine.run, hhalt]⟩
  | head hstep _ ih =>
    obtain ⟨steps, hrun⟩ := ih hhalt
    exact ⟨steps + 1, by simp [Machine.run, hstep, hrun]⟩

/-! ## Labels under their written names -/

/-- `placeOf?` is kept by `Item.named`. -/
theorem placeOf?_named (items : List Item) (name : String) :
    placeOf? (items.map Item.named) name = placeOf? items name := by
  unfold placeOf?
  rw [List.findIdx?_map]
  congr 1
  funext item
  cases item <;> rfl

/-- `step` goes by the names of labels, so it does not matter how they came about. -/
theorem Machine.step_named (s : Space) (items : List Item) (m : Machine) :
    m.step s (items.map Item.named) = m.step s items := by
  unfold Machine.step
  rw [List.getElem?_map]
  cases items[m.place]? with
  | none => rfl
  | some item =>
    cases item with
    | instr i =>
      cases i with
      | jump condition target =>
        simp only [Option.map_some, Item.named, Instr.named, placeOf?_named]
        rfl
      | _ => rfl
    | _ => rfl

/-- `run` goes by the names of labels. -/
theorem Machine.run_named (s : Space) (items : List Item) (steps : Nat) (m : Machine) :
    m.run s (items.map Item.named) steps = m.run s items steps := by
  induction steps generalizing m with
  | zero => rfl
  | succ steps ih =>
    rw [Machine.run, Machine.run, Machine.step_named]
    split
    · exact ih _
    · rfl
    · rfl

/-! ## Code at a place -/

/-- `Sits items place code`: `code` is the part of `items` from `place` on, and each of its labels leads
    there. -/
def Sits (items : List Item) (place : Nat) (code : List Item) : Prop :=
  ∀ i item, code[i]? = some item → items[place + i]? = some item ∧
    ∀ l, item = .label l → placeOf? items l.text = some (place + i)

namespace Sits

variable {items code more : List Item} {item : Item} {place : Nat}

theorem head (h : Sits items place (item :: code)) : items[place]? = some item := (h 0 item rfl).1

/-- `Sits` for the code behind a line. -/
theorem tail (h : Sits items place (item :: code)) : Sits items (place + 1) code := by
  intro i x hx
  rw [Nat.add_assoc, Nat.add_comm 1 i]
  exact h (i + 1) x (by simpa using hx)

theorem left (h : Sits items place (code ++ more)) : Sits items place code := by
  intro i x hx
  have hlt : i < code.length := (List.getElem?_eq_some_iff.mp hx).1
  exact h i x (by rw [List.getElem?_append_left hlt]; exact hx)

/-- `Sits` for the second of two pieces of code. -/
theorem right (h : Sits items place (code ++ more)) : Sits items (place + code.length) more := by
  intro i x hx
  rw [Nat.add_assoc]
  refine h (code.length + i) x ?_
  rw [List.getElem?_append_right (by omega), Nat.add_sub_cancel_left]
  exact hx

theorem drop (h : Sits items place code) (n : Nat) : Sits items (place + n) (code.drop n) := by
  intro i x hx
  rw [Nat.add_assoc]
  exact h (n + i) x (by rw [← List.getElem?_drop]; exact hx)

/-- `Sits` at a line of the block, by its place in the program. -/
theorem line {i here : Nat} (h : Sits items place code) (hhere : here = place + i)
    (hitem : code[i]? = some item) : items[here]? = some item := by
  rw [hhere]
  exact (h i item hitem).1

/-- `placeOf?` the label of a block that `Sits`. -/
theorem label {i : Nat} {l : Label} (h : Sits items place code) (hl : code[i]? = some (.label l)) :
    placeOf? items l.text = some (place + i) := (h i _ hl).2 l rfl

end Sits

/-- `Sits` for a whole program in which no two labels have one name. -/
theorem sits_self {items : List Item} (h : (labelNames items).Nodup) : Sits items 0 items := by
  intro i item hitem
  rw [Nat.zero_add]
  refine ⟨hitem, ?_⟩
  rintro l rfl
  induction items generalizing i with
  | nil => cases hitem
  | cons first rest ih =>
    cases i with
    | zero =>
      cases hitem
      simp [placeOf?, List.findIdx?_cons, Item.isLabel]
    | succ i =>
      have hrest : rest[i]? = some (.label l) := by simpa using hitem
      have hmem : l.text ∈ labelNames rest :=
        List.mem_filterMap.mpr ⟨_, List.mem_of_getElem? hrest, rfl⟩
      -- the first line is another label, or none
      have hfirst : first.isLabel l.text = false ∧ (labelNames rest).Nodup := by
        cases first with
        | label other =>
          obtain ⟨hnot, hnodup⟩ := List.nodup_cons.mp h
          refine ⟨?_, hnodup⟩
          show (other.text == l.text) = false
          exact beq_false_of_ne fun heq => hnot (heq ▸ hmem)
        | _ => exact ⟨rfl, h⟩
      have hplace := ih hfirst.2 i hrest
      unfold placeOf? at hplace ⊢
      rw [List.findIdx?_cons, hfirst.1, hplace]
      rfl

/-! ## One line of a block -/

namespace Machine

variable {s : Space} {items code : List Item} {m n : Machine}

/-! What an update leaves alone, and what it does. -/

@[simp] theorem registers_next (m : Machine) : m.next.registers = m.registers := rfl
@[simp] theorem memory_next (m : Machine) : m.next.memory = m.memory := rfl
@[simp] theorem comparison_next (m : Machine) : m.next.comparison = m.comparison := rfl
@[simp] theorem output_next (m : Machine) : m.next.output = m.output := rfl
@[simp] theorem place_next (m : Machine) : m.next.place = m.place + 1 := rfl

@[simp] theorem registers_set (m : Machine) (s : Space) (r x : Register) (v : Int) :
    (m.set s r v).registers x = if x = r then s.hold r v else m.registers x := rfl
@[simp] theorem memory_set (m : Machine) (s : Space) (r : Register) (v : Int) :
    (m.set s r v).memory = m.memory := rfl
@[simp] theorem comparison_set (m : Machine) (s : Space) (r : Register) (v : Int) :
    (m.set s r v).comparison = m.comparison := rfl
@[simp] theorem output_set (m : Machine) (s : Space) (r : Register) (v : Int) :
    (m.set s r v).output = m.output := rfl
@[simp] theorem place_set (m : Machine) (s : Space) (r : Register) (v : Int) :
    (m.set s r v).place = m.place := rfl

@[simp] theorem registers_store (m : Machine) (a v : Int) (size : Nat) :
    (m.store a v size).registers = m.registers := rfl
@[simp] theorem memory_store (m : Machine) (a v : Int) (size : Nat) :
    (m.store a v size).memory = m.memory.store a v size := rfl
@[simp] theorem comparison_store (m : Machine) (a v : Int) (size : Nat) :
    (m.store a v size).comparison = m.comparison := rfl
@[simp] theorem output_store (m : Machine) (a v : Int) (size : Nat) :
    (m.store a v size).output = m.output := rfl
@[simp] theorem place_store (m : Machine) (a v : Int) (size : Nat) :
    (m.store a v size).place = m.place := rfl

/-- `step` on an instruction that neither jumps nor calls the system. -/
theorem step_exec {i : Instr} (h : items[m.place]? = some (.instr i)) (hexec : m.exec s i = some n) :
    m.step s items = .goes { n with place := m.place + 1 } := by
  unfold step
  rw [h]
  cases i with
  | jump condition target => cases hexec
  | syscall => cases hexec
  | _ => simp only [hexec]

/-- `step` on a label goes on to the next line. -/
theorem step_label {l : Label} (h : items[m.place]? = some (.label l)) :
    m.step s items = .goes m.next := by
  unfold step
  rw [h]

/-- `step` on a jump that is taken. -/
theorem step_jump {condition : Condition} {target : Label} {place : Nat}
    (h : items[m.place]? = some (.instr (.jump condition target)))
    (htakes : m.takes condition = true) (hplace : placeOf? items target.text = some place) :
    m.step s items = .goes { m with place } := by
  unfold step
  rw [h]
  simp only [htakes, hplace, if_true]

/-- `step` on a jump that is not taken. -/
theorem step_noJump {condition : Condition} {target : Label}
    (h : items[m.place]? = some (.instr (.jump condition target)))
    (htakes : m.takes condition = false) : m.step s items = .goes m.next := by
  unfold step
  rw [h]
  simp only [htakes, Bool.false_eq_true, if_false]

end Machine

/-! ## Straight code -/

/-- `m.execAll s instrs`: the state after instructions that neither jump nor call the system, apart from its
    place. -/
def Machine.execAll (m : Machine) (s : Space) : List Instr → Option Machine
  | [] => some m
  | i :: rest => (m.exec s i).bind fun n => n.execAll s rest

/-- `exec` does not depend on the place. -/
theorem Machine.exec_place (m : Machine) (s : Space) (place : Nat) (i : Instr) :
    Machine.exec { m with place } s i = (m.exec s i).map fun n => { n with place } := by
  cases i with
  | mov target source =>
    cases target <;> cases source <;> rfl
  | add target source => cases target <;> rfl
  | sub target source => cases target <;> rfl
  | xor target source => cases target <;> rfl
  | div r =>
    unfold exec divide
    dsimp only
    split <;> rfl
  | jump | syscall => rfl
  | cmp | test => simp only [exec, Option.map_some]
  | _ =>
    simp only [exec, Option.map_some]
    rfl

/-- `execAll` does not depend on the place. -/
theorem Machine.execAll_place (m : Machine) (s : Space) (place : Nat) (instrs : List Instr) :
    Machine.execAll { m with place } s instrs =
      (m.execAll s instrs).map fun n => { n with place } := by
  induction instrs generalizing m with
  | nil => rfl
  | cons i rest ih =>
    rw [execAll, execAll, exec_place]
    cases m.exec s i with
    | none => rfl
    | some n => exact ih n

/-- `Reaches` the end of straight code, in the state of `execAll`. -/
theorem Sits.reaches {s : Space} {items code : List Item} {m n : Machine} {instrs : List Instr}
    (h : Sits items m.place (instrs.map Item.instr ++ code)) (hexec : m.execAll s instrs = some n) :
    Reaches s items m { n with place := m.place + instrs.length } := by
  induction instrs generalizing m n with
  | nil =>
    cases hexec
    exact .refl _
  | cons i rest ih =>
    rw [Machine.execAll] at hexec
    cases hi : m.exec s i with
    | none =>
      rw [hi] at hexec
      cases hexec
    | some k =>
      rw [hi] at hexec
      have hexec' : k.execAll s rest = some n := hexec
      refine .head (Machine.step_exec h.head hi) ?_
      have hnext : Machine.execAll { k with place := m.place + 1 } s rest =
          some { n with place := m.place + 1 } := by
        rw [Machine.execAll_place, hexec']
        rfl
      have hrest := @ih { k with place := m.place + 1 } { n with place := m.place + 1 } h.tail hnext
      rw [List.length_cons, Nat.add_comm rest.length 1, ← Nat.add_assoc]
      exact hrest

/-! ## Values on the stack -/

/-- `OnStack memory rsp top values`: `values` lie on the stack between `rsp` and `top`, the latest first. -/
structure OnStack (memory : Memory) (rsp top : Int) (values : List Int) : Prop where
  pointer : rsp = top - 8 * (values.length : Int)
  slot : ∀ (i : Nat) (v : Int), values[i]? = some v → signed (memory.load (rsp + 8 * (i : Int)) 8) = v

namespace OnStack

variable {memory memory' : Memory} {rsp top v w : Int} {values : List Int}

theorem le_top (h : OnStack memory rsp top values) : rsp ≤ top := by
  have := h.pointer
  omega

/-- `OnStack` depends on the memory between `rsp` and `top` only. -/
theorem congr (h : OnStack memory rsp top values)
    (hsame : ∀ x, rsp ≤ x → x < top → memory' x = memory x) : OnStack memory' rsp top values := by
  refine ⟨h.pointer, fun i v hv => ?_⟩
  have hlt : i < values.length := (List.getElem?_eq_some_iff.mp hv).1
  have hpointer := h.pointer
  rw [Memory.load_congr fun x hlow hhigh => hsame x (by omega) (by omega)]
  exact h.slot i v hv

/-- `OnStack`: the value at `rsp` is the first. -/
theorem load_top (h : OnStack memory rsp top (v :: values)) : signed (memory.load rsp 8) = v := by
  have := h.slot 0 v rfl
  rwa [show rsp + 8 * ((0 : Nat) : Int) = rsp by omega] at this

/-- `OnStack` without the value on top. -/
theorem pop (h : OnStack memory rsp top (v :: values)) : OnStack memory (rsp + 8) top values := by
  have hpointer := h.pointer
  rw [List.length_cons] at hpointer
  refine ⟨by omega, fun i v hv => ?_⟩
  rw [show rsp + 8 + 8 * (i : Int) = rsp + 8 * ((i + 1 : Nat) : Int) by omega]
  exact h.slot (i + 1) v (by simpa using hv)

/-- `OnStack` with one more value, stored below `rsp`. -/
theorem push (h : OnStack memory rsp top values) (w : Int) :
    OnStack (memory.store (rsp - 8) w 8) (rsp - 8) top (signed w :: values) := by
  have hpointer := h.pointer
  refine ⟨by rw [List.length_cons]; omega, fun i v hv => ?_⟩
  cases i with
  | zero =>
    cases hv
    rw [show rsp - 8 + 8 * ((0 : Nat) : Int) = rsp - 8 by omega, Memory.load_store, signed_emod]
  | succ i =>
    rw [show rsp - 8 + 8 * ((i + 1 : Nat) : Int) = rsp + 8 * (i : Int) by omega,
      Memory.load_congr fun x hlow _ => Memory.store_of_outside memory w 8 (by omega)]
    exact h.slot i v (by simpa using hv)

/-- `OnStack` with another value stored on top. -/
theorem replace (h : OnStack memory rsp top (v :: values)) (w : Int) :
    OnStack (memory.store rsp w 8) rsp top (signed w :: values) := by
  have := h.pop.push w
  rwa [show rsp + 8 - 8 = rsp by omega] at this

end OnStack

/-- `exec` of a `push`: `OnStack` gains the word in the register, and all else is kept. -/
theorem exec_push {s : Space} {m : Machine} {top : Int} {values : List Int} (r : Register)
    (hstack : OnStack m.memory (m.registers .rsp) top values)
    (hroom : s.Spans (m.registers .rsp - 8) top) :
    ∃ n, m.exec s (.push r) = some n ∧
      OnStack n.memory (n.registers .rsp) top (signed (m.registers r) :: values) ∧
      n.registers .rsp = m.registers .rsp - 8 ∧
      (∀ x, x ≠ .rsp → n.registers x = m.registers x) ∧ n.output = m.output := by
  have hle := hstack.le_top
  have hhold : s.hold .rsp (m.registers .rsp - 8) = m.registers .rsp - 8 :=
    Space.hold_address hroom rfl (by omega) (by omega)
  refine ⟨_, rfl, ?_, ?_, ?_, rfl⟩
  · simp only [Machine.registers_store, Machine.memory_store, Machine.registers_set, if_true, hhold,
      Machine.memory_set]
    exact hstack.push _
  · simp only [Machine.registers_store, Machine.registers_set, if_true, hhold]
  · intro x hx
    simp only [Machine.registers_store, Machine.registers_set, if_neg hx]

/-- `exec` of a `pop` into a register that holds words: `OnStack` loses its first value to the register, and
    all else is kept. -/
theorem exec_pop {s : Space} {m : Machine} {top v : Int} {values : List Int} {r : Register}
    (hr : r.holdsAddress = false) (hstack : OnStack m.memory (m.registers .rsp) top (v :: values))
    (hroom : s.Spans (m.registers .rsp) top) :
    ∃ n, m.exec s (.pop r) = some n ∧ OnStack n.memory (n.registers .rsp) top values ∧
      n.registers .rsp = m.registers .rsp + 8 ∧
      signed (n.registers r) = v ∧ (0 ≤ n.registers r ∧ n.registers r < wordLimit) ∧
      (∀ x, x ≠ r → x ≠ .rsp → n.registers x = m.registers x) ∧ n.output = m.output := by
  have hle := hstack.pop.le_top
  have hhold : s.hold .rsp (m.registers .rsp + 8) = m.registers .rsp + 8 :=
    Space.hold_address hroom rfl (by omega) (by omega)
  have hne : r ≠ .rsp := by rintro rfl; cases hr
  have hbounds := m.memory.load_bounds (m.registers .rsp)
  have hword : s.hold r (m.memory.load (m.registers .rsp) 8) = m.memory.load (m.registers .rsp) 8 := by
    rw [Space.hold_word _ hr]
    exact Int.emod_eq_of_lt hbounds.1 hbounds.2
  refine ⟨_, rfl, ?_, ?_, ?_, ?_, ?_, rfl⟩
  · simp only [Machine.registers_set, Machine.memory_set, if_true, hhold]
    exact hstack.pop
  · simp only [Machine.registers_set, if_true, hhold]
  · simp only [Machine.registers_set, if_neg hne, if_true, hword]
    exact hstack.load_top
  · simp only [Machine.registers_set, if_neg hne, if_true, hword]
    exact hbounds
  · intro x hx hx'
    simp only [Machine.registers_set, if_neg hx', if_neg hx]

end ZebLang
