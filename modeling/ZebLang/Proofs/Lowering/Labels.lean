/-
  Labels of lowered programs.

  Every loop and every printing sequence takes the next number of its kind, so a label of the code lies
  between the counters before the code and the counters after it (`Fresh`).  Code that follows starts
  where the counters are, so it has other labels.

  Labels with different numbers or of different kinds are written differently: a name is a word without
  digits, a number, and again a word without digits, and these three can be read off it.

  So the text of a lowered program can be read back, and each jump leads to one place.
-/

import ZebLang.Proofs.Assembly.ReadBack
import ZebLang.Proofs.Lowering.Code

namespace ZebLang

/-! ## Names of labels -/

/-- A text made of a word without digits, digits, and a word without digits determines these three parts. -/
theorem parts_of_append_eq {w w' digits digits' rest rest' : List Char}
    (hw : ∀ c ∈ w, c.isDigit = false) (hw' : ∀ c ∈ w', c.isDigit = false)
    (hdigits : ∀ c ∈ digits, c.isDigit = true) (hdigits' : ∀ c ∈ digits', c.isDigit = true)
    (hne : digits ≠ []) (hne' : digits' ≠ []) (hrest : ∀ c ∈ rest, c.isDigit = false)
    (hrest' : ∀ c ∈ rest', c.isDigit = false) (h : w ++ (digits ++ rest) = w' ++ (digits' ++ rest')) :
    w = w' ∧ digits = digits' ∧ rest = rest' := by
  have hhead : ∀ {ds r : List Char}, (∀ c ∈ ds, c.isDigit = true) → ds ≠ [] →
      ∀ c ∈ (ds ++ r).head?, (!c.isDigit) = false := by
    intro ds r hds hne c hc
    cases ds with
    | nil => exact absurd rfl hne
    | cons d ds =>
      cases hc
      simp [hds c (by simp)]
  have hplain : ∀ {v : List Char}, (∀ c ∈ v, c.isDigit = false) → ∀ c ∈ v, (!c.isDigit) = true := by
    intro v hv c hc
    rw [hv c hc]
    rfl
  -- the first word ends where the first digit stands, and the digits where the second word starts
  have hfirst : w = w' := by
    have hrun := Text.takeWhile_run (hplain hw) (hhead (r := rest) hdigits hne)
    rw [h, Text.takeWhile_run (hplain hw') (hhead hdigits' hne')] at hrun
    exact hrun.symm
  subst hfirst
  have hsecond : digits ++ rest = digits' ++ rest' := List.append_cancel_left h
  have hdig : digits = digits' := by
    have hrun := Text.takeWhile_run hdigits fun c hc => hrest c (List.mem_of_mem_head? hc)
    rw [hsecond, Text.takeWhile_run hdigits' fun c hc => hrest' c (List.mem_of_mem_head? hc)] at hrun
    exact hrun.symm
  subst hdig
  exact ⟨rfl, rfl, List.append_cancel_left hsecond⟩

/-- `l.parts`: the word, the number and the word that `l.text` is made of, for a numbered label. -/
def Label.parts : Label → String × Nat × String
  | loop n => ("loop", n, "")
  | loopEnd n => ("exit", n, "")
  | printDigits n => ("print", n, "_digits")
  | printNext n => ("print", n, "_next")
  | printWrite n => ("print", n, "_write")
  | named name => (name, 0, "")

/-- `text` of a numbered label is made of its `parts`. -/
theorem Label.toList_text {l : Label} (h : l.IsNumbered) :
    l.text.toList =
      l.parts.1.toList ++ (Nat.toDigits 10 l.parts.2.1 ++ l.parts.2.2.toList) := by
  have hempty : "".toList = [] := rfl
  cases l with
  | named name => exact h.elim
  | _ =>
    simp only [Label.text, Label.parts, printGroup, String.toList_append, Text.toList_natural, hempty,
      List.append_nil, List.append_assoc]

/-- The two words of `parts` have no digit. -/
theorem Label.isDigit_parts {l : Label} (h : l.IsNumbered) :
    (∀ c ∈ l.parts.1.toList, c.isDigit = false) ∧ ∀ c ∈ l.parts.2.2.toList, c.isDigit = false := by
  cases l with
  | named name => exact h.elim
  | _ =>
    simp only [Label.parts]
    exact ⟨Text.eq_false_of_any (by decide), Text.eq_false_of_any (by decide)⟩

/-- `Label.text` is injective on numbered labels, by `parts_of_append_eq`. -/
theorem Label.text_injective {l l' : Label} (h : l.IsNumbered) (h' : l'.IsNumbered)
    (heq : l.text = l'.text) : l = l' := by
  have hparts : l.parts.1.toList = l'.parts.1.toList ∧
      Nat.toDigits 10 l.parts.2.1 = Nat.toDigits 10 l'.parts.2.1 ∧
      l.parts.2.2.toList = l'.parts.2.2.toList := by
    refine parts_of_append_eq (isDigit_parts h).1 (isDigit_parts h').1 (Text.isDigit_toDigits _)
      (Text.isDigit_toDigits _) Nat.toDigits_ne_nil Nat.toDigits_ne_nil (isDigit_parts h).2
      (isDigit_parts h').2 ?_
    rw [← toList_text h, ← toList_text h', heq]
  obtain ⟨hword, hdigits, hend⟩ := hparts
  have hword := String.toList_inj.mp hword
  have hend := String.toList_inj.mp hend
  have hnumber : l.parts.2.1 = l'.parts.2.1 := by
    rw [← Text.ofDigits_toDigits l.parts.2.1, hdigits, Text.ofDigits_toDigits]
  cases l with
  | named name => exact h.elim
  | _ =>
    cases l' with
    | named name => exact h'.elim
    | _ => simp_all [Label.parts]

/-! ## Labels of code -/

/-- The label on a line, if there is one. -/
def Item.label? : Item → Option Label
  | label l => some l
  | _ => none

/-- `labelsOf code`: the labels of `code`, in order. -/
def labelsOf (code : List Item) : List Label := code.filterMap Item.label?

theorem labelsOf_append (code code' : List Item) :
    labelsOf (code ++ code') = labelsOf code ++ labelsOf code' := List.filterMap_append

/-- `labelNames` are the texts of `labelsOf`. -/
theorem labelNames_eq (code : List Item) : labelNames code = (labelsOf code).map Label.text := by
  unfold labelNames labelsOf
  rw [List.map_filterMap]
  congr 1
  funext item
  cases item <;> rfl

/-- `l.IsBetween c c'`: the number of `l` was taken from the counters between `c` and `c'`. -/
def Label.IsBetween (c c' : Counters) : Label → Prop
  | loop n | loopEnd n => c.loops ≤ n ∧ n < c'.loops
  | printDigits n | printNext n | printWrite n => c.prints ≤ n ∧ n < c'.prints
  | named _ => False

/-- `Fresh c c' code`: `code` consists of known instructions, its labels are `IsBetween c c'`, and no two
    are equal. -/
structure Fresh (c c' : Counters) (code : List Item) : Prop where
  loops : c.loops ≤ c'.loops
  prints : c.prints ≤ c'.prints
  between : ∀ l ∈ labelsOf code, l.IsBetween c c'
  nodup : (labelsOf code).Nodup
  known : ∀ item ∈ code, item.IsKnown

/-- `IsBetween` is monotone in both counters. -/
theorem Label.IsBetween.mono {c₁ c₂ c₃ c₄ : Counters} {l : Label} (h : l.IsBetween c₂ c₃)
    (hl₁ : c₁.loops ≤ c₂.loops) (hp₁ : c₁.prints ≤ c₂.prints) (hl₃ : c₃.loops ≤ c₄.loops)
    (hp₃ : c₃.prints ≤ c₄.prints) : l.IsBetween c₁ c₄ := by
  cases l with
  | named name => exact h.elim
  | _ => unfold IsBetween at *; omega

/-- `IsBetween c₁ c₂` excludes `IsBetween c₂ c₃`: a number is taken once. -/
theorem Label.IsBetween.not_between {c₁ c₂ c₃ : Counters} {l : Label} (h : l.IsBetween c₁ c₂) :
    ¬ l.IsBetween c₂ c₃ := by
  cases l with
  | named name => exact h.elim
  | _ => unfold IsBetween at *; omega

/-- `Fresh` composes: code after code goes on with the counters. -/
theorem Fresh.append {c₁ c₂ c₃ : Counters} {code code' : List Item} (h : Fresh c₁ c₂ code)
    (h' : Fresh c₂ c₃ code') : Fresh c₁ c₃ (code ++ code') := by
  refine ⟨Nat.le_trans h.loops h'.loops, Nat.le_trans h.prints h'.prints, ?_, ?_, ?_⟩
  · intro l hl
    rw [labelsOf_append] at hl
    rcases List.mem_append.mp hl with hl | hl
    · exact (h.between l hl).mono (Nat.le_refl _) (Nat.le_refl _) h'.loops h'.prints
    · exact (h'.between l hl).mono h.loops h.prints (Nat.le_refl _) (Nat.le_refl _)
  · rw [labelsOf_append]
    refine List.nodup_append.mpr ⟨h.nodup, h'.nodup, ?_⟩
    rintro l hl l' hl' rfl
    exact (h.between l hl).not_between (h'.between l hl')
  · intro item hitem
    rcases List.mem_append.mp hitem with hitem | hitem
    · exact h.known item hitem
    · exact h'.known item hitem

/-- `Fresh` for instructions, which have no label. -/
theorem fresh_instrs {c : Counters} (instrs : List Instr) (h : ∀ i ∈ instrs, i.IsKnown) :
    Fresh c c (instrs.map Item.instr) := by
  have hlabels : labelsOf (instrs.map Item.instr) = [] := by
    unfold labelsOf
    rw [List.filterMap_map]
    exact List.filterMap_eq_nil_iff.mpr fun i _ => rfl
  refine ⟨Nat.le_refl _, Nat.le_refl _, ?_, ?_, ?_⟩
  · rw [hlabels]
    exact fun l hl => nomatch hl
  · rw [hlabels]
    exact List.nodup_nil
  · intro item hitem
    obtain ⟨i, hi, rfl⟩ := List.mem_map.mp hitem
    exact h i hi

/-- `printItems` takes the next number of a printing sequence. -/
theorem fresh_print (c : Counters) :
    Fresh c { c with prints := c.prints + 1 } (printItems c.prints) := by
  have hlabels : labelsOf (printItems c.prints) =
      [.printDigits c.prints, .printNext c.prints, .printWrite c.prints] := rfl
  refine ⟨Nat.le_refl _, Nat.le_succ _, ?_, ?_, ?_⟩
  · simp [hlabels, Label.IsBetween]
  · simp [hlabels]
  · simp [printItems, itemsOf, Lowering.printLines, Item.IsKnown, Instr.IsKnown, Operand.IsKnown,
      Label.IsNumbered, Register.IsKnown, Register.known]

/-- `rangeItems` takes the next number of a loop. -/
theorem fresh_range (c : Counters) :
    Fresh c { c with loops := c.loops + 1 } (rangeItems c.loops) := by
  have hlabels : labelsOf (rangeItems c.loops) = [.loop c.loops, .loopEnd c.loops] := rfl
  refine ⟨Nat.le_succ _, Nat.le_refl _, ?_, ?_, ?_⟩
  · simp [hlabels, Label.IsBetween]
  · simp [hlabels]
  · simp [rangeItems, itemsOf, Lowering.countingLines, Item.IsKnown, Instr.IsKnown, Operand.IsKnown,
      Label.IsNumbered, Register.IsKnown, Register.known]

theorem fresh_literal (c : Counters) (n : Int) :
    Fresh c c [.instr (.mov (.reg .rax) (.imm n)), .instr (.push .rax)] :=
  fresh_instrs [_, _] (by simp [Instr.IsKnown, Operand.IsKnown, Register.IsKnown, Register.known])

theorem fresh_reference (c : Counters) (k : Int) :
    Fresh c c [.instr (.mov (.reg .rax) (.mem .rsp (some k))), .instr (.push .rax)] :=
  fresh_instrs [_, _] (by simp [Instr.IsKnown, Operand.IsKnown, Register.IsKnown, Register.known])

theorem fresh_operator (c : Counters) {operator : String} {combine : Instr}
    (h : Lowering.arithmetic? operator = some combine) :
    Fresh c c [.instr (.pop .rbx), .instr (.pop .rax), .instr combine, .instr (.push .rax)] := by
  refine fresh_instrs [_, _, _, _] ?_
  rcases Lowering.arithmetic_cases h with ⟨-, rfl⟩ | ⟨-, rfl⟩ | ⟨-, rfl⟩ <;>
    simp [Instr.IsKnown, Operand.IsKnown, Register.IsKnown, Register.known]

theorem fresh_exit (c : Counters) : Fresh c c exitItems :=
  fresh_instrs [_, _, _] (by simp [Instr.IsKnown, Operand.IsKnown, Register.IsKnown, Register.known])

/-- `Fresh` for the code of a statement or an expression, by induction on how it is lowered. -/
theorem Lowers.fresh {slots : List (String × Nat)} {depth : Nat} {d : Datum} {c c' : Counters}
    {code : List Item} (h : Lowers slots depth d c code c') : Fresh c c' code := by
  induction h with
  | literal hmin hmax => exact fresh_literal _ _
  | reference hslot => exact fresh_reference _ _
  | binary hleft hright hoperator ihleft ihright =>
    exact ihleft.append (ihright.append (fresh_operator _ hoperator))
  | print hargument ih => exact ih.append (fresh_print _)
  | range hargument ih => exact ih.append (fresh_range _)

/-- `Fresh` for the code of a statement list. -/
theorem LowersAll.fresh {slots : List (String × Nat)} {depth : Nat} {statements : List Datum}
    {c c' : Counters} {code : List Item} (h : LowersAll slots depth statements c code c') :
    Fresh c c' code := by
  induction h with
  | nil => exact fresh_instrs [] (by simp)
  | exit hvalue hrest ih => exact hvalue.fresh.append ((fresh_exit _).append ih)
  | bind hbinds hvalue hrest ih => exact hvalue.fresh.append ih

/-! ## The text of a lowered program -/

theorem Label.IsBetween.isNumbered {c c' : Counters} {l : Label} (h : l.IsBetween c c') :
    l.IsNumbered := by
  cases l with
  | named name => exact h.elim
  | _ => exact trivial

/-- `Fresh` code has no two labels of one name. -/
theorem Fresh.nodup_labelNames {c c' : Counters} {code : List Item} (h : Fresh c c' code) :
    (labelNames code).Nodup := by
  rw [labelNames_eq]
  refine List.Pairwise.map Label.text (R := fun l l' => l ≠ l' ∧ l.IsNumbered ∧ l'.IsNumbered) ?_ ?_
  · rintro l l' ⟨hne, hl, hl'⟩ heq
    exact hne (Label.text_injective hl hl' heq)
  · exact h.nodup.imp_of_mem fun hl hl' hne =>
      ⟨hne, (h.between _ hl).isNumbered, (h.between _ hl').isNumbered⟩

/-- `started code`: `code` behind the label `_start`. -/
def started (code : List Item) : List Item := .label (.named "_start") :: code

/-- A program that `lower` accepts has code by `LowersAll`, and its text is read back by `assemble` as this
    code. -/
theorem lowersAll_of_lower {statements : List Datum} {text : String}
    (hstandard : ∀ d ∈ statements, d.isStandard = true)
    (h : (lower false statements).text = .ok text) :
    ∃ code, LowersAll [] 0 statements ⟨0, 0⟩ code (lower false statements).frame.counters ∧
      assemble text = some ((started code).map Item.named) ∧ (labelNames (started code)).Nodup := by
  unfold lower at h ⊢
  split at h
  next u f hrun =>
    cases h
    obtain ⟨u₁, f₁, hall, hnote⟩ := Lowering.bind_eq_ok hrun
    obtain ⟨code, hcode, hitems, hprologue⟩ := Lowering.lowersAll_of_lowerAll hstandard hall
    have hf : f = { f₁ with notes := f.notes } := by cases hnote; rfl
    have hcounters : f₁.counters = f.counters := by rw [hf]; rfl
    have hcode' : f.lines.toList.map Line.item = code := by rw [hf]; exact hitems
    have hfresh := hcode.fresh
    have htext := @assemble_text f (by rw [hf]; exact hprologue)
      (fun l hl => hfresh.known l.item (hcode' ▸ List.mem_map_of_mem hl))
      (by rw [hcode']; exact hfresh.nodup_labelNames)
    refine ⟨code, hcounters ▸ hcode, ?_, ?_⟩
    · rw [htext, Frame.items, hcode']
      rfl
    · exact List.nodup_cons.mpr ⟨start_not_mem hfresh.known, hfresh.nodup_labelNames⟩
  next => cases h

/-- `assemble` reads the text of an accepted program back as its code, and no two labels of it have one
    name. -/
theorem assemble_of_lower {statements : List Datum} {text : String}
    (hstandard : ∀ d ∈ statements, d.isStandard = true)
    (h : (lower false statements).text = .ok text) :
    ∃ code c, LowersAll [] 0 statements ⟨0, 0⟩ code c ∧
      assemble text = some ((started code).map Item.named) ∧ (labelNames (started code)).Nodup := by
  obtain ⟨code, hcode⟩ := lowersAll_of_lower hstandard h
  exact ⟨code, _, hcode⟩

end ZebLang
