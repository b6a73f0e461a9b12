/-
  The printing sequence by itself.

  Lowering puts the same lines wherever a value is printed, but for the number in their labels.  Run from
  their first line with nothing behind them (`lowerPrint_correct`):

    * they halt, whatever the registers and memory hold, and have written the value on top of the stack;
    * what they write is a numeral: digits without a needless zero in front, a minus in front of those of a
      negative value, and a line feed at the end;
    * they store nothing outside the buffer below the top of the stack, so the stack is as it was;
    * no line faults.  Above all, no quotient is too large for its register: what is divided is a single word.

  A run has one way to go, so what holds of the states on the way to the end (`print_stays`) holds of every
  state that is reached.
-/

import ZebLang.Proofs.Lowering.Labels
import ZebLang.Proofs.Machine.Printing

namespace ZebLang

/-! ## Numerals -/

/-- `IsNumeral n digits`: the digits write the number `n`; at least one, and no zero in front of others. -/
structure IsNumeral (n : Nat) (digits : List Char) : Prop where
  nonempty : digits ≠ []
  isDigit : ∀ c ∈ digits, c.isDigit = true
  value : Text.ofDigits 10 digits = n
  leading : digits.head? = some '0' → digits = ['0']

/-- `toDigits` of a number that is not zero does not start with zero. -/
theorem head?_toDigits_ne {n : Nat} (h : n ≠ 0) : (Nat.toDigits 10 n).head? ≠ some '0' := by
  induction n using Nat.strongRecOn with
  | ind n ih =>
  by_cases hsmall : n < 10
  · rw [Nat.toDigits_of_lt_base hsmall]
    have hdigit : ∀ d < 10, d ≠ 0 → some d.digitChar ≠ some '0' := by decide
    exact hdigit n hsmall h
  · -- the digits in front of the last one write the tenth
    rw [Nat.toDigits_of_base_le (by decide) (by omega),
      List.head?_append_of_ne_nil _ (Nat.toDigits_ne_nil)]
    exact ih (n / 10) (by omega) (by omega)

/-- `toDigits` writes an `IsNumeral`. -/
theorem isNumeral_toDigits (n : Nat) : IsNumeral n (Nat.toDigits 10 n) := by
  refine ⟨Nat.toDigits_ne_nil, Text.isDigit_toDigits n, Text.ofDigits_toDigits n, ?_⟩
  intro hzero
  by_cases h : n = 0
  · rw [h]
    rfl
  · exact absurd hzero (head?_toDigits_ne h)

/-- `printedLine` in characters. -/
theorem printedLine_eq (v : Int) : printedLine v = String.ofList
    ((if v < 0 then '-' :: Nat.toDigits 10 v.natAbs else Nat.toDigits 10 v.natAbs) ++ ['\n']) := by
  apply String.toList_inj.mp
  rw [printedLine, String.toList_append, Text.toList_decimal]
  exact String.toList_ofList.symm

/-! ## The sequence -/

/-- `m.top`: the value on top of the stack. -/
def Machine.top (m : Machine) : Int := signed (m.memory.load (m.registers .rsp) 8)

/-- `PrintsTop s items m`: code that does nothing but print the value on top of the stack, from the state
    `m` on. -/
structure PrintsTop (s : Space) (items : List Item) (m : Machine) : Prop where
  /-- It halts behind its last line.  The value is written on a line of its own and still lies on top, and
      memory is the same but for the buffer. -/
  halts : ∃ steps k digits, m.run s items steps = some (.ended, k) ∧ IsNumeral m.top.natAbs digits ∧
    k.output = m.output ++
      bytesOf (String.ofList ((if m.top < 0 then '-' :: digits else digits) ++ ['\n'])) ∧
    k.registers .rsp = m.registers .rsp ∧ k.top = m.top ∧
    ∀ x, x < m.registers .rsp - Lowering.printBuffer ∨ m.registers .rsp ≤ x → k.memory x = m.memory x
  /-- Whatever it stores on the way lies in the buffer below the top of the stack. -/
  confined : ∀ j, Reaches s items m j →
    j.Confined s items (m.registers .rsp - Lowering.printBuffer) (m.registers .rsp)
  /-- Every quotient fits its register. -/
  divides : ∀ j r, Reaches s items m j → items[j.place]? = some (.instr (.div r)) →
    j.registers r ≠ 0 ∧ (j.registers .rdx * wordLimit + j.registers .rax) / j.registers r < wordLimit
  /-- No line faults. -/
  safe : ∀ j, Reaches s items m j → j.step s items ≠ .fault

/-- `step` on a division that does not fault: the quotient fits. -/
theorem Machine.quotient_of_step {s : Space} {items : List Item} {m : Machine} {r : Register}
    (hline : items[m.place]? = some (.instr (.div r))) (h : m.step s items ≠ .fault) :
    m.registers r ≠ 0 ∧ (m.registers .rdx * wordLimit + m.registers .rax) / m.registers r < wordLimit := by
  by_contra hnot
  apply h
  have hnone : m.exec s (.div r) = none := by
    show m.divide s (m.registers r) = none
    unfold divide
    apply if_pos
    omega
  unfold step
  rw [hline]
  dsimp only
  rw [hnone]

/-- `PrintsTop` holds of `printItems`. -/
theorem printsTop_printItems (n : Nat) {s : Space} {m : Machine} (hplace : m.place = 0)
    (hroom : s.Spans (m.registers .rsp - Lowering.printBuffer) (m.registers .rsp)) :
    PrintsTop s (printItems n) m := by
  have hcode : Sits (printItems n) m.place (printItems n) := by
    rw [hplace]
    exact sits_self (fresh_print ⟨0, n⟩).nodup_labelNames
  obtain ⟨k, hstays, hend, hrsp, houtput⟩ := print_stays hcode rfl hroom
  have hover : (printItems n)[k.place]? = none := by
    rw [hend, hplace, Nat.zero_add, List.getElem?_eq_none (Nat.le_refl _)]
  have hhalt : k.step s (printItems n) = .halts .ended k := by
    unfold Machine.step
    rw [hover]
  have hmemory : ∀ x, x < m.registers .rsp - Lowering.printBuffer ∨ m.registers .rsp ≤ x →
      k.memory x = m.memory x := fun x hx => hstays.memory hx
  have hreached : ∀ j, Reaches s (printItems n) m j →
      j.Confined s (printItems n) (m.registers .rsp - Lowering.printBuffer) (m.registers .rsp) ∧
        j.step s (printItems n) ≠ .fault :=
    fun j hj => hstays.of_reached (Machine.confined_of_end hover) hhalt hj
  refine ⟨?_, fun j hj => (hreached j hj).1, ?_, fun j hj => (hreached j hj).2⟩
  · obtain ⟨steps, hrun⟩ := hstays.reaches.run hhalt
    refine ⟨steps, k, Nat.toDigits 10 m.top.natAbs, hrun, isNumeral_toDigits _, ?_, hrsp, ?_, hmemory⟩
    · rw [houtput, printedLine_eq]
      rfl
    · unfold Machine.top
      rw [hrsp, Memory.load_congr fun x hlow _ => hmemory x (.inr hlow)]
  · intro j r hj hline
    exact Machine.quotient_of_step hline (hreached j hj).2

/-- Whatever a frame holds, a printing sequence can be added to it, and its lines print the value on top of
    the stack: from every state of the machine with room for the buffer below the stack. -/
theorem lowerPrint_correct (f : Frame) {s : Space} {m : Machine} (hplace : m.place = 0)
    (hroom : s.Spans (m.registers .rsp - Lowering.printBuffer) (m.registers .rsp)) :
    ∃ g lines, Lowering.lowerPrint.run f = .ok () g ∧ g.lines.toList = f.lines.toList ++ lines ∧
      PrintsTop s (itemsOf lines) m := by
  refine ⟨{ f.nextPrint.2 with lines := f.lines ++ Lowering.printLines f.prints },
    Lowering.printLines f.prints, rfl, ?_, printsTop_printItems f.prints hplace hroom⟩
  exact Array.toList_appendList

/-- A machine with the least number on top of the stack. -/
def leastOnTop : Machine where
  place := 0
  registers := fun _ => 4096
  memory := fun x => if x = 4103 then 128 else 0
  comparison := 0
  output := []

theorem lowerPrint_correct_leastOnTop :
    leastOnTop.place = 0 ∧ Space.words.Spans (leastOnTop.registers .rsp - Lowering.printBuffer)
      (leastOnTop.registers .rsp) ∧ leastOnTop.top = -9223372036854775808 ∧
      ∃ g lines, Lowering.lowerPrint.run {} = .ok () g ∧
        g.lines.toList = ({} : Frame).lines.toList ++ lines ∧
        PrintsTop .words (itemsOf lines) leastOnTop :=
  ⟨rfl, by decide, by decide, lowerPrint_correct {} rfl (by decide)⟩

end ZebLang
