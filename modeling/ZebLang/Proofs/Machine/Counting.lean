/-
  The loop of a range.

  The counter in `rbx` goes up from zero; each turn stores it in the slot on top of the stack, counts
  it up and compares it with the bound in `rax`.  The loop ends with the first count that reaches the
  bound, so the slot holds the last count before: one less than the bound, but never less than zero.

  The invariant (`Counting`) is that the counter is not above the last value that will be stored.  It
  keeps the counter below the greatest signed number, so counting up never wraps.  A turn leaves the loop
  or keeps the invariant.

  Inside a turn the counter is one greater at most.  Every state on the way says so itself, and also that
  nothing but the slot is stored to and that the stack is no larger than it was (`InBounds`).
-/

import ZebLang.Proofs.Lowering.Code
import ZebLang.Proofs.Machine.Footprint

namespace ZebLang

variable {s : Space} {items : List Item} {n start : Nat} {slot limit : Int}

/-! ## On the way -/

/-- `InBounds s items start slot limit m`: a state on the way through a range.  What the next line stores
    goes to the slot of the bound, nothing lies on the stack above this slot, and the counter, from the line
    `start` on, is not above `limit`. -/
structure InBounds (s : Space) (items : List Item) (start : Nat) (slot limit : Int) (m : Machine) : Prop where
  confined : m.Confined s items slot (slot + 8)
  stack : slot ≤ m.registers .rsp
  counter : start ≤ m.place → 0 ≤ m.registers .rbx ∧ m.registers .rbx ≤ limit

/-- `InBounds` at a line of the loop that stores nothing. -/
theorem inBounds_of_silent {m : Machine} {item : Item} (hline : items[m.place]? = some item)
    (hitem : ∀ i, item = .instr i → m.stored? s i = none) (hrsp : m.registers .rsp = slot)
    (hlow : 0 ≤ m.registers .rbx) (hhigh : m.registers .rbx ≤ limit) : InBounds s items start slot limit m :=
  ⟨Machine.confined_of_silent hline hitem, by omega, fun _ => ⟨hlow, hhigh⟩⟩

/-! ## Turns -/

/-- `countingLines` up to the jumps: the counter goes to the slot on top and is counted up. -/
theorem counting_turn {m : Machine} {i : Int}
    (hcode : Sits items m.place (itemsOf (Lowering.countingLines n))) (hrsp : m.registers .rsp = slot)
    (hcounter : m.registers .rbx = i) (hlow : 0 ≤ i) (hhigh : i < 9223372036854775807)
    (hlimit : i + 1 ≤ limit) :
    ∃ k, Passes s items (InBounds s items start slot limit) m k ∧ k.place = m.place + 4 ∧
      k.memory = m.memory.store slot i 8 ∧ k.registers .rbx = i + 1 ∧
      k.registers .rax = m.registers .rax ∧ k.registers .rsp = slot ∧
      k.comparison = signed (m.registers .rax) - (i + 1) ∧ k.output = m.output := by
  have hword : s.hold .rbx (i + 1) = i + 1 := Space.hold_of_word rfl (by omega) (by unfold wordLimit; omega)
  have hsigned : signed (i + 1) = i + 1 := signed_of_isSigned ⟨by omega, by omega⟩
  -- line by line
  let m₁ := m.next
  let m₂ : Machine := { m₁.store slot i 8 with place := m.place + 2 }
  let m₃ : Machine := { m₂.set s .rbx (i + 1) with place := m.place + 3 }
  let m₄ : Machine := { m₃ with comparison := signed (m.registers .rax) - (i + 1), place := m.place + 4 }
  have hlabel : items[m.place]? = some (.label (.loop n)) := hcode.line (i := 0) rfl rfl
  have hmov : items[m₁.place]? = some (.instr (.mov (.mem .rsp none) (.reg .rbx))) := hcode.line (i := 1) rfl rfl
  have hinc : items[m₂.place]? = some (.instr (.inc .rbx)) := hcode.line (i := 2) rfl rfl
  have hcmp : items[m₃.place]? = some (.instr (.cmp .rax .rbx)) := hcode.line (i := 3) rfl rfl
  have hexec₁ : m₁.exec s (.mov (.mem .rsp none) (.reg .rbx)) = some (m₁.store slot i 8) := by
    simp [m₁, Machine.exec, Machine.write, Machine.read, Machine.address, hrsp, hcounter]
  have hexec₂ : m₂.exec s (.inc .rbx) = some (m₂.set s .rbx (i + 1)) := by
    simp [m₁, m₂, Machine.exec, hcounter]
  have hexec₃ : m₃.exec s (.cmp .rax .rbx) =
      some { m₃ with comparison := signed (m.registers .rax) - (i + 1) } := by
    simp [m₁, m₂, m₃, Machine.exec, hword, hsigned]
  have hrbx₃ : m₃.registers .rbx = i + 1 := by simp [m₃, hword]
  have hpass₀ : InBounds s items start slot limit m :=
    inBounds_of_silent hlabel (fun _ hi => by cases hi) hrsp (by omega) (by omega)
  have hpass₁ : InBounds s items start slot limit m₁ := by
    refine ⟨Machine.confined_of_stores hmov ?_, Int.le_of_eq hrsp.symm, fun _ => ?_⟩
    · intro w hw
      cases hw
      simp [m₁, Machine.address, hrsp]
    · show 0 ≤ m.registers .rbx ∧ m.registers .rbx ≤ limit
      omega
  have hpass₂ : InBounds s items start slot limit m₂ :=
    inBounds_of_silent hinc (fun _ hi => by cases hi; rfl) hrsp (Int.le_trans hlow (Int.le_of_eq hcounter.symm))
      (by show m.registers .rbx ≤ limit; omega)
  have hpass₃ : InBounds s items start slot limit m₃ :=
    inBounds_of_silent hcmp (fun _ hi => by cases hi; rfl) hrsp (by omega) (by omega)
  refine ⟨m₄, .head hpass₀ (Machine.step_label hlabel) (.head hpass₁ (Machine.step_exec hmov hexec₁)
    (.head hpass₂ (Machine.step_exec hinc hexec₂) (.one hpass₃ (Machine.step_exec hcmp hexec₃)))),
    rfl, rfl, hrbx₃, rfl, hrsp, rfl, rfl⟩

/-- `Counting items n m top bound i values`: the loop stands at its start with a counter that is not above
    the last value that it stores. -/
structure Counting (items : List Item) (n : Nat) (m : Machine) (top bound i : Int) (values : List Int) :
    Prop where
  code : Sits items m.place (itemsOf (Lowering.countingLines n))
  limit : signed (m.registers .rax) = bound
  counter : m.registers .rbx = i
  nonneg : 0 ≤ i
  le_last : i ≤ lastBelow bound
  stack : ∃ x, OnStack m.memory (m.registers .rsp) top (x :: values)

namespace Counting

variable {m : Machine} {top bound i : Int} {values : List Int}

/-- `Counting`: there is a greater signed number to count up to. -/
theorem lt_greatest (h : Counting items n m top bound i values) : i < 9223372036854775807 := by
  obtain ⟨hmin, hmax⟩ := signed_bounds (m.registers .rax)
  have hle := h.le_last
  rw [h.limit] at hmax
  unfold lastBelow at hle
  omega

/-- `Counting`: the slot on top after a turn. -/
theorem replaced (h : Counting items n m top bound i values) :
    OnStack (m.memory.store (m.registers .rsp) i 8) (m.registers .rsp) top (i :: values) := by
  obtain ⟨x, hstack⟩ := h.stack
  have hsigned : signed i = i := by
    have hlow := h.nonneg
    have hhigh := h.lt_greatest
    exact signed_of_isSigned ⟨by omega, by omega⟩
  have hreplaced := hstack.replace i
  rw [hsigned] at hreplaced
  exact hreplaced

/-- `Counting` at the last turn: the count reaches the bound, and the jump leads to the label behind the
    loop. -/
theorem leave (h : Counting items n m top bound (lastBelow bound) values) (hrsp : m.registers .rsp = slot) :
    ∃ k, Passes s items (InBounds s items start slot (lastBelow bound + 1)) m k ∧ k.place = m.place + 6 ∧
      OnStack k.memory slot top (lastBelow bound :: values) ∧ k.registers .rsp = slot ∧
      k.registers .rbx = lastBelow bound + 1 ∧ k.output = m.output := by
  obtain ⟨k, hpasses, hplace, hmemory, hrbx, -, hrsp', hcomparison, houtput⟩ :=
    counting_turn h.code hrsp h.counter h.nonneg h.lt_greatest (Int.le_refl _)
  rw [h.limit] at hcomparison
  have htaken : k.takes .lessOrEqual = true := by
    unfold Machine.takes
    rw [hcomparison]
    unfold lastBelow
    simp only [decide_eq_true_eq]
    omega
  have hjump : items[k.place]? = some (.instr (.jump .lessOrEqual (.loopEnd n))) :=
    h.code.line hplace rfl
  have hend := h.code.label (i := 6) (l := .loopEnd n) rfl
  have hnonneg := h.nonneg
  have hbounds : InBounds s items start slot (lastBelow bound + 1) k :=
    inBounds_of_silent hjump (fun _ hi => by cases hi; rfl) hrsp' (by omega) (by omega)
  refine ⟨{ k with place := m.place + 6 }, hpasses.trans (.one hbounds (Machine.step_jump hjump htaken hend)),
    rfl, ?_, hrsp', hrbx, houtput⟩
  show OnStack k.memory slot top (lastBelow bound :: values)
  rw [hmemory, ← hrsp]
  exact h.replaced

/-- `Counting` at any other turn: the count is below the bound, and the loop starts again. -/
theorem again (h : Counting items n m top bound i values) (hrsp : m.registers .rsp = slot)
    (hi : i < lastBelow bound) :
    ∃ k, Passes s items (InBounds s items start slot (lastBelow bound + 1)) m k ∧
      Counting items n k top bound (i + 1) values ∧ k.place = m.place ∧ k.registers .rsp = slot ∧
      k.output = m.output := by
  have hnonneg := h.nonneg
  have hlimit : i + 1 ≤ lastBelow bound + 1 := by omega
  obtain ⟨k, hpasses, hplace, hmemory, hrbx, hrax, hrsp', hcomparison, houtput⟩ :=
    counting_turn h.code hrsp h.counter hnonneg h.lt_greatest hlimit
  rw [h.limit] at hcomparison
  have hpassed : k.takes .lessOrEqual = false := by
    unfold Machine.takes
    rw [hcomparison]
    unfold lastBelow at hi
    simp only [decide_eq_false_iff_not]
    omega
  have hexit : items[k.place]? = some (.instr (.jump .lessOrEqual (.loopEnd n))) :=
    h.code.line hplace rfl
  have hback : items[k.next.place]? = some (.instr (.jump .always (.loop n))) :=
    h.code.line (i := 5) (by rw [Machine.place_next, hplace]) rfl
  have hstart : placeOf? items (Label.loop n).text = some m.place := h.code.label (i := 0) rfl
  have hbounds : InBounds s items start slot (lastBelow bound + 1) k :=
    inBounds_of_silent hexit (fun _ hi => by cases hi; rfl) hrsp' (by omega) (by omega)
  have hbounds' : InBounds s items start slot (lastBelow bound + 1) k.next :=
    inBounds_of_silent hback (fun _ hi => by cases hi; rfl) hrsp' (by rw [Machine.registers_next]; omega)
      (by rw [Machine.registers_next]; omega)
  refine ⟨{ k with place := m.place }, hpasses.trans (.head hbounds (Machine.step_noJump hexit hpassed)
    (.one hbounds' (Machine.step_jump hback rfl hstart))), ?_, rfl, hrsp', houtput⟩
  have hstack : OnStack k.memory (k.registers .rsp) top (i :: values) := by
    rw [hmemory, hrsp', ← hrsp]
    exact h.replaced
  exact ⟨h.code, by rw [← h.limit, ← hrax], hrbx, by omega, by omega, i, hstack⟩

/-- `Counting` ends with the last value on top, by induction on how many values are left. -/
theorem passes (left : Nat) : ∀ {m : Machine} {i : Int}, Counting items n m top bound i values →
    m.registers .rsp = slot → lastBelow bound - i = (left : Int) →
    ∃ k, Passes s items (InBounds s items start slot (lastBelow bound + 1)) m k ∧ k.place = m.place + 6 ∧
      OnStack k.memory slot top (lastBelow bound :: values) ∧ k.registers .rsp = slot ∧
      k.registers .rbx = lastBelow bound + 1 ∧ k.output = m.output := by
  induction left with
  | zero =>
    intro m i h hrsp hleft
    have hlast : i = lastBelow bound := by omega
    subst hlast
    exact h.leave hrsp
  | succ left ih =>
    intro m i h hrsp hleft
    obtain ⟨k, hpasses, hcounting, hplace, hrsp', houtput⟩ := h.again hrsp (by omega)
    obtain ⟨k', hpasses', hplace', hstack, hrsp'', hrbx, houtput'⟩ := ih hcounting hrsp' (by omega)
    refine ⟨k', hpasses.trans hpasses', ?_, hstack, hrsp'', hrbx, houtput'.trans houtput⟩
    rw [hplace', hplace]

end Counting

/-! ## The whole range -/

/-- `rangeItems` come to the label behind their loop with the bound on top of the stack replaced by the last
    number counted. -/
theorem range_passes {m : Machine} {top bound : Int} {values : List Int}
    (hcode : Sits items m.place (rangeItems n))
    (hstack : OnStack m.memory (m.registers .rsp) top (bound :: values))
    (hroom : s.Spans (m.registers .rsp) top) :
    ∃ k, Passes s items (InBounds s items (m.place + 2) (m.registers .rsp) (lastBelow bound + 1)) m k ∧
      k.place = m.place + 9 ∧ OnStack k.memory (m.registers .rsp) top (lastBelow bound :: values) ∧
      k.registers .rsp = m.registers .rsp ∧ k.registers .rbx = lastBelow bound + 1 ∧ k.output = m.output := by
  have hlast : 0 ≤ lastBelow bound := by unfold lastBelow; omega
  obtain ⟨m₁, hpop, hstack₁, hrsp₁, hbound, -, -, houtput₁⟩ := exec_pop (r := .rax) rfl hstack hroom
  have hzero : s.hold .rbx 0 = 0 := Space.hold_of_word rfl (Int.le_refl 0) (by decide)
  have hmov : Machine.exec { m₁ with place := m.place + 1 } s (.mov (.reg .rbx) (.imm 0)) =
      some ({ m₁ with place := m.place + 1 }.set s .rbx 0) := by
    simp [Machine.exec, Machine.write, Machine.read]
  let m₂ : Machine := { m₁.set s .rbx 0 with place := m.place + 2 }
  have hrsp₂ : m₂.registers .rsp = m.registers .rsp + 8 := by simp [m₂, hrsp₁]
  have hrbx₂ : m₂.registers .rbx = 0 := by simp [m₂, hzero]
  obtain ⟨m₃, hpush, hstack₃, hrsp₃, hregisters₃, houtput₃⟩ := exec_push (m := m₂) .rbx hstack₁
    (hroom.above (by omega))
  have hrsp₃' : m₃.registers .rsp = m.registers .rsp := by omega
  have hrbx₃ : m₃.registers .rbx = 0 := (hregisters₃ .rbx (by decide)).trans hrbx₂
  have hline₀ : items[m.place]? = some (.instr (.pop .rax)) := hcode.line (i := 0) rfl rfl
  have hline₁ : items[m.place + 1]? = some (.instr (.mov (.reg .rbx) (.imm 0))) := hcode.line (i := 1) rfl rfl
  have hline₂ : items[m₂.place]? = some (.instr (.push .rbx)) := hcode.line (i := 2) rfl rfl
  -- the counter does not count before it is set, and the push puts back what was popped
  have hpass₀ : InBounds s items (m.place + 2) (m.registers .rsp) (lastBelow bound + 1) m :=
    ⟨Machine.confined_of_silent hline₀ (fun _ hi => by cases hi; rfl), Int.le_refl _, fun h => by omega⟩
  have hpass₁ : InBounds s items (m.place + 2) (m.registers .rsp) (lastBelow bound + 1)
      { m₁ with place := m.place + 1 } := by
    refine ⟨Machine.confined_of_silent hline₁ (fun _ hi => by cases hi; rfl), ?_, ?_⟩
    · show m.registers .rsp ≤ m₁.registers .rsp
      omega
    · intro h
      have h : m.place + 2 ≤ m.place + 1 := h
      omega
  have hpass₂ : InBounds s items (m.place + 2) (m.registers .rsp) (lastBelow bound + 1) m₂ := by
    refine ⟨Machine.confined_of_stores hline₂ ?_, by omega, fun _ => by omega⟩
    intro w hw
    cases hw
    have hhold : s.hold .rsp (m₂.registers .rsp - 8) = m.registers .rsp :=
      (Space.hold_address hroom rfl (by omega) (by have := hstack.pop.le_top; omega)).trans (by omega)
    simp only [hhold]
    omega
  have hfirst : Passes s items (InBounds s items (m.place + 2) (m.registers .rsp) (lastBelow bound + 1)) m
      { m₃ with place := m.place + 3 } :=
    .head hpass₀ (Machine.step_exec hline₀ hpop) (.head hpass₁ (Machine.step_exec hline₁ hmov)
      (.one hpass₂ (Machine.step_exec hline₂ hpush)))
  have hrax : signed (m₃.registers .rax) = bound := by
    rw [hregisters₃ .rax (by decide)]
    simpa [m₂] using hbound
  have hcounting : Counting items n { m₃ with place := m.place + 3 } top bound 0 values :=
    ⟨hcode.right, hrax, hrbx₃, Int.le_refl 0, hlast, _, hstack₃⟩
  obtain ⟨k, hpasses, hplace, hresult, hrsp, hrbx, houtput⟩ := hcounting.passes (lastBelow bound).toNat hrsp₃'
    (by rw [Int.toNat_of_nonneg hlast]; exact Int.sub_zero _)
  exact ⟨k, hfirst.trans hpasses, hplace, hresult, hrsp, hrbx, houtput.trans (houtput₃.trans houtput₁)⟩

/-- `rangeItems` replace the bound on top of the stack by the last number counted. -/
theorem range_reaches {m : Machine} {top bound : Int} {values : List Int}
    (hcode : Sits items m.place (rangeItems n))
    (hstack : OnStack m.memory (m.registers .rsp) top (bound :: values))
    (hroom : s.Spans (m.registers .rsp) top) :
    ∃ k, Reaches s items m k ∧ k.place = m.place + (rangeItems n).length ∧
      OnStack k.memory (k.registers .rsp) top (lastBelow bound :: values) ∧
      k.registers .rsp = m.registers .rsp ∧ k.output = m.output := by
  obtain ⟨k, hpasses, hplace, hresult, hrsp, -, houtput⟩ := range_passes hcode hstack hroom
  have hlabel : items[k.place]? = some (.label (.loopEnd n)) := hcode.line hplace rfl
  refine ⟨k.next, hpasses.reaches.trans (.one (Machine.step_label hlabel)), ?_, ?_, hrsp, houtput⟩
  · rw [Machine.place_next, hplace]
    rfl
  · rw [Machine.registers_next, Machine.memory_next, hrsp]
    exact hresult

end ZebLang
