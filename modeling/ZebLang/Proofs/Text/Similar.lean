/-
  What is suggested for a word.

  A score is a fraction with a denominator that is not zero, so scores are compared as the fractions that they
  are (`likeness`).  Suggestions are the first three of the candidates that are close, put in order
  (`closeMatches_eq`); hence they are

    * candidates, each at least three fifths like the word, and at most three;
    * the best ones: a close candidate that is left out is no more like the word than any that is chosen;
    * in order, the best first (`selects_closeMatches`).

  Candidates that are put in order first are the same list however they came (`ascending_eq`).
-/

import Mathlib.Algebra.Order.Field.Basic
import Mathlib.Algebra.Order.Ring.Rat
import Mathlib.Data.List.Perm.Basic
import Mathlib.Tactic.Linarith
import ZebLang.Diagnostic

namespace ZebLang.Text

/-! ## Fractions -/

/-- `likeness word candidate`: the `score` of the two as a fraction of one. -/
def likeness (word candidate : String) : ℚ :=
  let s := score (Places.ofWord word.toList) candidate.toList word.toList
  (s.shared : ℚ) / s.total

section Scores

variable {α : Type} [DecidableEq α]

/-- `score` has a positive total, so it is a fraction. -/
theorem total_score_pos (places : Places α) (candidate word : List α) :
    0 < (score places candidate word).total := by
  unfold score
  split
  · exact Nat.one_pos
  · exact Nat.pos_of_ne_zero ‹_›

variable {s t : Score}

/-- `isClose` compares the fraction with three fifths. -/
theorem Score.isClose_iff (hs : 0 < s.total) : s.isClose = true ↔ (3 / 5 : ℚ) ≤ (s.shared : ℚ) / s.total := by
  have hs' : (0 : ℚ) < s.total := Nat.cast_pos.mpr hs
  rw [isClose, decide_eq_true_eq, div_le_div_iff₀ (by norm_num) hs', mul_comm (s.shared : ℚ)]
  exact_mod_cast Iff.rfl

/-- `Score.lt` compares fractions, by cross-multiplication. -/
theorem Score.lt_iff (hs : 0 < s.total) (ht : 0 < t.total) :
    s.lt t = true ↔ (s.shared : ℚ) / s.total < (t.shared : ℚ) / t.total := by
  have hs' : (0 : ℚ) < s.total := Nat.cast_pos.mpr hs
  have ht' : (0 : ℚ) < t.total := Nat.cast_pos.mpr ht
  rw [lt, decide_eq_true_eq, div_lt_div_iff₀ hs' ht']
  exact_mod_cast Iff.rfl

end Scores

/-! ## The order of candidates -/

/-- A candidate with its score. -/
def rated (word candidate : String) : Score × String :=
  (score (Places.ofWord word.toList) candidate.toList word.toList, candidate)

/-- Whether a candidate may stand before another one. -/
def standsBefore (word a b : String) : Bool := ranksBefore (rated word a) (rated word b)

/-- Whether a candidate is close to a word. -/
def isCloseTo (word candidate : String) : Bool := (rated word candidate).1.isClose

variable {word : String}

/-- `isCloseTo` asks for a `likeness` of at least three fifths. -/
theorem isCloseTo_iff {y : String} : isCloseTo word y = true ↔ 3 / 5 ≤ likeness word y :=
  Score.isClose_iff (total_score_pos _ _ _)

/-- `standsBefore` puts the candidate of greater `likeness` first, and of two with the same the greater
    text. -/
theorem standsBefore_iff {a b : String} : standsBefore word a b = true ↔
    likeness word b < likeness word a ∨ likeness word b ≤ likeness word a ∧ b ≤ a := by
  have hlt : ∀ x y, (rated word x).1.lt (rated word y).1 = true ↔ likeness word x < likeness word y :=
    fun x y => Score.lt_iff (total_score_pos _ _ _) (total_score_pos _ _ _)
  rw [standsBefore, ranksBefore, Bool.or_eq_true, Bool.and_eq_true, Bool.not_eq_true', hlt,
    ← Bool.not_eq_true, hlt, not_lt, decide_eq_true_eq]
  rfl

theorem standsBefore_trans (a b c : String) (hab : standsBefore word a b = true)
    (hbc : standsBefore word b c = true) : standsBefore word a c = true := by
  rw [standsBefore_iff] at *
  rcases hab with hab | ⟨hab, hab'⟩
  · rcases hbc with hbc | ⟨hbc, -⟩
    · exact .inl (hbc.trans hab)
    · exact .inl (hbc.trans_lt hab)
  · rcases hbc with hbc | ⟨hbc, hbc'⟩
    · exact .inl (hbc.trans_le hab)
    · exact .inr ⟨hbc.trans hab, String.le_trans hbc' hab'⟩

/-- `standsBefore` is total, as `List.mergeSort` needs it. -/
theorem standsBefore_total (a b : String) : (standsBefore word a b || standsBefore word b a) = true := by
  rw [Bool.or_eq_true, standsBefore_iff, standsBefore_iff]
  rcases lt_trichotomy (likeness word a) (likeness word b) with h | h | h
  · exact .inr (.inl h)
  · rcases String.le_total a b with hle | hle
    · exact .inr (.inr ⟨h.le, hle⟩)
    · exact .inl (.inr ⟨h.ge, hle⟩)
  · exact .inl (.inl h)

/-- `closeMatches` as the first three of the candidates that are `isCloseTo`, sorted by `standsBefore`. -/
theorem closeMatches_eq (word : String) (candidates : List String) : closeMatches word candidates =
    ((candidates.filter (isCloseTo word)).mergeSort (standsBefore word)).take 3 := by
  have hscored : (candidates.map (rated word)).filter (·.1.isClose) =
      (candidates.filter (isCloseTo word)).map (rated word) := List.filter_map
  have hsorted : ((candidates.filter (isCloseTo word)).map (rated word)).mergeSort ranksBefore =
      ((candidates.filter (isCloseTo word)).mergeSort (standsBefore word)).map (rated word) := by
    symm
    apply List.map_mergeSort
    intro a _ b _
    rfl
  show ((((candidates.map (rated word)).filter (·.1.isClose)).mergeSort ranksBefore).take 3).map (·.2) = _
  rw [hscored, hsorted, ← List.map_take, List.map_map]
  exact List.map_id _

/-! ## What is chosen -/

/-- `Selects word p chosen`: `chosen` are the texts with property `p` that are most like `word`, the best
    first and three at most. -/
structure Selects (word : String) (p : String → Prop) (chosen : List String) : Prop where
  length_le : chosen.length ≤ 3
  nodup : chosen.Nodup
  close : ∀ y ∈ chosen, p y ∧ 3 / 5 ≤ likeness word y
  /-- The best comes first. -/
  ordered : chosen.Pairwise fun y z => likeness word z ≤ likeness word y
  /-- What is close and left out is no better than what is chosen. -/
  best : ∀ y, p y → 3 / 5 ≤ likeness word y → y ∉ chosen →
    chosen.length = 3 ∧ ∀ z ∈ chosen, likeness word y ≤ likeness word z

/-- `closeMatches` meets `Selects`, if no candidate is given twice. -/
theorem selects_closeMatches {candidates : List String} (h : candidates.Nodup) :
    Selects word (· ∈ candidates) (closeMatches word candidates) := by
  rw [closeMatches_eq]
  generalize hsorted : (candidates.filter (isCloseTo word)).mergeSort (standsBefore word) = sorted
  have hperm : sorted.Perm (candidates.filter (isCloseTo word)) := hsorted ▸ List.mergeSort_perm _ _
  have hmem : ∀ y, y ∈ sorted ↔ y ∈ candidates ∧ 3 / 5 ≤ likeness word y := by
    intro y
    rw [hperm.mem_iff, List.mem_filter, isCloseTo_iff]
  have hordered : sorted.Pairwise fun y z => likeness word z ≤ likeness word y := by
    have hpairwise := @List.pairwise_mergeSort _ (standsBefore word) standsBefore_trans standsBefore_total
      (candidates.filter (isCloseTo word))
    rw [hsorted] at hpairwise
    apply hpairwise.imp
    intro y z hyz
    rcases standsBefore_iff.mp hyz with hlt | hle
    · exact hlt.le
    · exact hle.1
  refine ⟨List.length_take_le 3 sorted, ?_, ?_, ?_, ?_⟩
  · exact (hperm.nodup_iff.mpr (h.filter _)).sublist (List.take_sublist 3 sorted)
  · intro y hy
    exact (hmem y).mp (List.mem_of_mem_take hy)
  · exact hordered.sublist (List.take_sublist 3 sorted)
  · intro y hy hclose hleft
    -- what is close and not among the first three comes behind them
    have hbehind : y ∈ sorted.drop 3 := by
      have hsplit : y ∈ sorted.take 3 ++ sorted.drop 3 := by
        rw [List.take_append_drop]
        exact (hmem y).mpr ⟨hy, hclose⟩
      exact (List.mem_append.mp hsplit).resolve_left hleft
    have hlength := List.length_pos_of_mem hbehind
    rw [List.length_drop] at hlength
    refine ⟨List.length_take_of_le (by omega), fun z hz => ?_⟩
    exact hordered.rel_of_mem_take_of_mem_drop hz hbehind

/-! ## The order of names -/

/-- `Cause.ascending` does not depend on the order of the names. -/
theorem ascending_eq {names names' : List String} (h : names.Perm names') :
    Cause.ascending names = Cause.ascending names' := by
  have hsorted : ∀ l : List String, (Cause.ascending l).Pairwise fun a b => a ≤ b := by
    intro l
    have hpairwise : (Cause.ascending l).Pairwise fun a b => decide (a ≤ b) = true := by
      apply List.pairwise_mergeSort
      · intro a b c hab hbc
        exact decide_eq_true (String.le_trans (of_decide_eq_true hab) (of_decide_eq_true hbc))
      · intro a b
        simpa using String.le_total a b
    exact hpairwise.imp fun hab => of_decide_eq_true hab
  have hperm : (Cause.ascending names).Perm (Cause.ascending names') :=
    (List.mergeSort_perm names _).trans (h.trans (List.mergeSort_perm names' _).symm)
  exact hperm.eq_of_pairwise (fun a b _ _ => String.le_antisymm) (hsorted names) (hsorted names')

end ZebLang.Text
