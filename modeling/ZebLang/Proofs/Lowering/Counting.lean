/-
  The range by itself.

  Lowering puts the same lines wherever a range is counted, but for the number in their labels.  Run from
  their first line with nothing behind them (`lowerRange_correct`):

    * they halt, whatever the bound on top of the stack, at the label behind the loop;
    * the last number counted has taken the place of the bound, and memory is as it was everywhere else;
    * however many turns the loop takes, the stack is never larger than it was at the start;
    * the counter, once it is set, is never above the bound, or above one if the bound is less.  So it stays
      a number that fits, and counting up never wraps;
    * no line faults.

  A run has one way to go, so what holds of the states on the way to the label (`range_passes`) holds of every
  state that is reached.
-/

import ZebLang.Proofs.Lowering.Printing
import ZebLang.Proofs.Lowering.Specification

namespace ZebLang

/-- `CountsTop s items behind m`: code that does nothing but count below the value on top of the stack, from
    the state `m` on. -/
structure CountsTop (s : Space) (items : List Item) (behind : Label) (m : Machine) : Prop where
  /-- It halts at the label behind the loop, which is its last line.  The last number counted lies where the
      bound was, and nothing else has changed in memory. -/
  halts : ∃ steps k, m.run s items steps = some (.ended, k.next) ∧ Reaches s items m k ∧
    items[k.place]? = some (.label behind) ∧ k.top = max (m.top - 1) 0 ∧
    k.registers .rsp = m.registers .rsp ∧ k.output = m.output ∧
    ∀ x, x < m.registers .rsp ∨ m.registers .rsp + 8 ≤ x → k.memory x = m.memory x
  /-- Whatever it stores on the way goes to the slot of the bound. -/
  confined : ∀ j, Reaches s items m j →
    j.Confined s items (m.registers .rsp) (m.registers .rsp + 8)
  /-- Nothing ever lies on the stack above this slot. -/
  stack : ∀ j, Reaches s items m j → m.registers .rsp ≤ j.registers .rsp
  /-- Behind the second line, which sets it, the counter is not above the bound, or not above one. -/
  counter : ∀ j, Reaches s items m j → 2 ≤ j.place →
    0 ≤ j.registers .rbx ∧ j.registers .rbx ≤ max m.top 1
  /-- Counting up does not wrap, neither as a word nor as a signed number. -/
  increases : ∀ j k, Reaches s items m j → items[j.place]? = some (.instr (.inc .rbx)) →
    j.step s items = .goes k →
    k.registers .rbx = j.registers .rbx + 1 ∧ signed (k.registers .rbx) = signed (j.registers .rbx) + 1
  /-- No line faults. -/
  safe : ∀ j, Reaches s items m j → j.step s items ≠ .fault

/-- `OnStack`: the value on top, and no other, lies on a stack that starts behind it. -/
theorem Machine.onStack_top (m : Machine) :
    OnStack m.memory (m.registers .rsp) (m.registers .rsp + 8) [m.top] := by
  refine ⟨by rw [List.length_singleton]; omega, fun i v hv => ?_⟩
  cases i with
  | zero =>
    rw [show m.registers .rsp + 8 * ((0 : Nat) : Int) = m.registers .rsp by omega]
    exact Option.some.inj hv
  | succ i => cases hv

/-- `step` on a counter that stays below the greatest signed number counts up without wrapping. -/
theorem Machine.increases_of_step {s : Space} {items : List Item} {m k : Machine} {limit : Int}
    (hline : items[m.place]? = some (.instr (.inc .rbx))) (hstep : m.step s items = .goes k)
    (hm : 0 ≤ m.registers .rbx ∧ m.registers .rbx ≤ limit)
    (hk : 0 ≤ k.registers .rbx ∧ k.registers .rbx ≤ limit) (hlimit : limit < 9223372036854775808) :
    k.registers .rbx = m.registers .rbx + 1 ∧
      signed (k.registers .rbx) = signed (m.registers .rbx) + 1 := by
  have hexec : m.exec s (.inc .rbx) = some (m.set s .rbx (m.registers .rbx + 1)) := rfl
  have hhold : s.hold .rbx (m.registers .rbx + 1) = m.registers .rbx + 1 :=
    Space.hold_of_word rfl (by omega) (by unfold wordLimit; omega)
  have hnext : k.registers .rbx = m.registers .rbx + 1 := by
    cases (step_exec hline hexec).symm.trans hstep
    simp [hhold]
  refine ⟨hnext, ?_⟩
  rw [signed_of_isSigned ⟨by omega, by omega⟩, signed_of_isSigned ⟨by omega, by omega⟩, hnext]

/-- `CountsTop` holds of `rangeItems`. -/
theorem countsTop_rangeItems (n : Nat) {s : Space} {m : Machine} (hplace : m.place = 0)
    (hroom : s.Spans (m.registers .rsp) (m.registers .rsp + 8)) :
    CountsTop s (rangeItems n) (.loopEnd n) m := by
  have hcode : Sits (rangeItems n) m.place (rangeItems n) := by
    rw [hplace]
    exact sits_self (fresh_range ⟨n, 0⟩).nodup_labelNames
  have hlast : lastBelow m.top + 1 = max m.top 1 := by unfold lastBelow; omega
  have hgreatest : max m.top 1 < 9223372036854775808 := by
    have := (signed_bounds (m.memory.load (m.registers .rsp) 8)).2
    unfold Machine.top
    omega
  obtain ⟨k, hpasses, hend, hstack, hrsp, hrbx, houtput⟩ := range_passes hcode m.onStack_top hroom
  rw [hplace, hlast] at hpasses
  rw [hplace] at hend
  rw [hlast] at hrbx
  have hlabel : (rangeItems n)[k.place]? = some (.label (.loopEnd n)) := by
    rw [hend]
    rfl
  have hover : (rangeItems n)[k.next.place]? = none := by
    rw [Machine.place_next, hend]
    rfl
  have hhalt : k.next.step s (rangeItems n) = .halts .ended k.next := by
    unfold Machine.step
    rw [hover]
  -- the label itself and the end behind it are passed like all other lines
  have hcounter : 0 ≤ k.registers .rbx ∧ k.registers .rbx ≤ max m.top 1 := by omega
  have hlabelled : InBounds s (rangeItems n) 2 (m.registers .rsp) (max m.top 1) k :=
    inBounds_of_silent hlabel (fun _ hi => by cases hi) hrsp hcounter.1 hcounter.2
  have hended : InBounds s (rangeItems n) 2 (m.registers .rsp) (max m.top 1) k.next :=
    ⟨Machine.confined_of_end hover, Int.le_of_eq hrsp.symm, fun _ => hcounter⟩
  have hwhole := hpasses.trans (.one hlabelled (Machine.step_label hlabel))
  have hreached : ∀ j, Reaches s (rangeItems n) m j →
      InBounds s (rangeItems n) 2 (m.registers .rsp) (max m.top 1) j ∧ j.step s (rangeItems n) ≠ .fault :=
    fun j hj => hwhole.of_reached hended hhalt hj
  have hstays : Stays s (rangeItems n) (m.registers .rsp) (m.registers .rsp + 8) m k :=
    hpasses.mono fun _ hj => hj.confined
  refine ⟨?_, fun j hj => (hreached j hj).1.confined, fun j hj => (hreached j hj).1.stack,
    fun j hj => (hreached j hj).1.counter, ?_, fun j hj => (hreached j hj).2⟩
  · obtain ⟨steps, hrun⟩ := hwhole.reaches.run hhalt
    refine ⟨steps, k, hrun, hpasses.reaches, hlabel, ?_, hrsp, houtput, fun x hx => hstays.memory hx⟩
    unfold Machine.top
    rw [hrsp, hstack.load_top]
    rfl
  · intro j j' hj hline hstep
    -- the counter is set before it is counted up
    have hset : 2 ≤ j.place := by
      by_contra hbefore
      have hcases : j.place = 0 ∨ j.place = 1 := by omega
      rcases hcases with h | h <;> rw [h] at hline <;> cases hline
    have hnext : j'.place = j.place + 1 := by
      cases (Machine.step_exec hline rfl).symm.trans hstep
      rfl
    exact Machine.increases_of_step hline hstep ((hreached j hj).1.counter hset)
      ((hreached j' (hj.trans (.one hstep))).1.counter (by omega)) hgreatest

/-- Whatever a frame holds, as long as there is a bound on the stack, a range can be added to it.  The depth
    stays the same, and the lines count below the value on top of the stack: from every state of the machine
    whose addresses reach over the slot of this value. -/
theorem lowerRange_correct (f : Frame) {s : Space} {m : Machine} (hdepth : f.depth ≠ 0) (hplace : m.place = 0)
    (hroom : s.Spans (m.registers .rsp) (m.registers .rsp + 8)) :
    ∃ g code, Lowering.lowerRange.run f = .ok () g ∧
      itemsOf g.lines.toList = itemsOf f.lines.toList ++ code ∧ g.depth = f.depth ∧
      CountsTop s code (.loopEnd f.loops) m := by
  obtain ⟨depth, hdepth'⟩ := Nat.exists_eq_succ_of_ne_zero hdepth
  obtain ⟨g, hrun⟩ := Lowering.range_runs hdepth'
  obtain ⟨-, -, hgains, -⟩ := Lowering.gains_range hrun
  exact ⟨g, rangeItems f.loops, hrun, hgains.items, hgains.depth, countsTop_rangeItems f.loops hplace hroom⟩

/-- A machine with the greatest number on top of the stack. -/
def greatestOnTop : Machine where
  place := 0
  registers := fun _ => 4096
  memory := fun x => if x = 4103 then 127 else 255
  comparison := 0
  output := []

theorem lowerRange_correct_greatestOnTop :
    ({ depth := 1 } : Frame).depth ≠ 0 ∧ greatestOnTop.place = 0 ∧
      Space.words.Spans (greatestOnTop.registers .rsp) (greatestOnTop.registers .rsp + 8) ∧
      greatestOnTop.top = 9223372036854775807 ∧
      ∃ g code, Lowering.lowerRange.run { depth := 1 } = .ok () g ∧
        itemsOf g.lines.toList = itemsOf ({ depth := 1 } : Frame).lines.toList ++ code ∧ g.depth = 1 ∧
        CountsTop .words code (.loopEnd 0) greatestOnTop :=
  ⟨by decide, rfl, by decide, by decide,
    lowerRange_correct { depth := 1 } (by decide) rfl (by decide)⟩

end ZebLang
