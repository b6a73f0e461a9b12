/-
  Facts about texts.

  1. Decimal text is read back as the number that was written.
  2. Blanks at the ends of a text go, and nothing else does.
  3. A text whose lines hold no line break is split into just these lines.  Split at its line feeds only, a text
     has the rows of its lines one after the other.
-/

import Mathlib.Data.List.Basic
import Mathlib.Data.List.TakeWhile
import ZebLang.Text.Blank
import ZebLang.Text.Decimal
import ZebLang.Text.Lines

namespace ZebLang.Text

/-! ## Runs of characters -/

/-- `takeWhile` takes the run of characters of one class at the front of a text. -/
theorem takeWhile_run {p : Char → Bool} {front back : List Char} (hfront : ∀ c ∈ front, p c = true)
    (hback : ∀ c ∈ back.head?, p c = false) : (front ++ back).takeWhile p = front := by
  rw [List.takeWhile_append_of_pos hfront]
  cases back with
  | nil => simp
  | cons c back => simp [hback c rfl]

/-- Characters of which none is in a class. -/
theorem eq_false_of_any {p : Char → Bool} {chars : List Char} (h : chars.any p = false) :
    ∀ c ∈ chars, p c = false :=
  fun c hc => Bool.eq_false_iff.mpr (List.any_eq_false.mp h c hc)

theorem dropWhile_of_head {p : Char → Bool} {chars : List Char}
    (h : ∀ c ∈ chars.head?, p c = false) : chars.dropWhile p = chars := by
  cases chars with
  | nil => rfl
  | cons c rest => rw [List.dropWhile_cons_of_neg (by simpa using h c rfl)]

/-- `dropWhile` leaves what comes behind the run. -/
theorem dropWhile_run {p : Char → Bool} {front back : List Char} (hfront : ∀ c ∈ front, p c = true)
    (hback : ∀ c ∈ back.head?, p c = false) : (front ++ back).dropWhile p = back := by
  rw [List.dropWhile_append_of_pos hfront, dropWhile_of_head hback]

/-- `take` of the length of a run is the run. -/
theorem take_run (p : Char → Bool) (chars : List Char) :
    chars.take (chars.takeWhile p).length = chars.takeWhile p :=
  (List.prefix_iff_eq_take.mp (List.takeWhile_prefix p)).symm

theorem drop_run (p : Char → Bool) (chars : List Char) :
    chars.drop (chars.takeWhile p).length = chars.dropWhile p := by
  have hall := List.take_append_drop (chars.takeWhile p).length chars
  rw [take_run] at hall
  exact List.append_cancel_left (hall.trans List.takeWhile_append_dropWhile.symm)

/-- `dropWhile` leaves a text that starts with a character of another class. -/
theorem head_dropWhile {p : Char → Bool} {chars : List Char} :
    ∀ c ∈ (chars.dropWhile p).head?, p c = false := by
  intro c hc
  have hnot := List.head?_dropWhile_not p chars
  rw [hc] at hnot
  simpa using hnot

/-! ## Decimal text -/

theorem digitValue_of_isDigit {c : Char} (h : c.isDigit = true) :
    digitValue c = c.toNat - '0'.toNat := if_pos h

/-- `foldl` over digits is their positional value after a number that was read so far. -/
theorem foldl_digits_eq (digits : List Char) (h : ∀ c ∈ digits, c.isDigit = true) (n : Nat) :
    digits.foldl (fun n c => n * 10 + digitValue c) n = Nat.ofDigitChars 10 digits n := by
  induction digits generalizing n with
  | nil => simp
  | cons c rest ih =>
    rw [List.foldl_cons, Nat.ofDigitChars_cons, digitValue_of_isDigit (h c (by simp)),
      Nat.mul_comm n 10]
    exact ih (fun x hx => h x (by simp [hx])) _

theorem isDigit_toDigits (n : Nat) : ∀ c ∈ Nat.toDigits 10 n, c.isDigit = true :=
  fun _ hc => Nat.isDigit_of_mem_toDigits (by decide) (by decide) hc

/-- `ofDigits` undoes `toDigits`. -/
theorem ofDigits_toDigits (n : Nat) : ofDigits 10 (Nat.toDigits 10 n) = n := by
  unfold ofDigits
  rw [foldl_digits_eq _ (isDigit_toDigits n), Nat.ofDigitChars_ten_toDigits]

theorem toList_natural (n : Nat) : (natural n).toList = Nat.toDigits 10 n := String.toList_ofList

/-- `decimal` text is made of digits, after a minus if the number is negative. -/
theorem toList_decimal (n : Int) :
    (decimal n).toList = if n < 0 then '-' :: Nat.toDigits 10 n.natAbs
      else Nat.toDigits 10 n.natAbs := by
  cases n with
  | ofNat k =>
    rw [if_neg (by exact Int.not_lt.mpr (Int.natCast_nonneg k))]
    exact toList_natural k
  | negSucc k =>
    rw [if_pos (Int.negSucc_lt_zero k), decimal, String.toList_append, toList_natural]
    rfl

/-- `decimal` text has no other characters than digits and a minus. -/
theorem mem_decimal {n : Int} {c : Char} (h : c ∈ (decimal n).toList) :
    c.isDigit = true ∨ c = '-' := by
  rw [toList_decimal] at h
  split at h
  · rcases List.mem_cons.mp h with h | h
    · exact .inr h
    · exact .inl (isDigit_toDigits _ c h)
  · exact .inl (isDigit_toDigits _ c h)

/-! ## Blanks at the ends -/

/-- `Solid chars`: the text neither starts nor ends with a blank. -/
def Solid (chars : List Char) : Prop :=
  (∀ c ∈ chars.head?, isBlank c = false) ∧ ∀ c ∈ chars.getLast?, isBlank c = false

/-- `trim` takes off the blanks in front of a `Solid` text. -/
theorem trim_blanks_append {blanks chars : List Char} (hblanks : ∀ c ∈ blanks, isBlank c = true)
    (h : Solid chars) : trim (String.ofList (blanks ++ chars)) = String.ofList chars := by
  unfold trim
  rw [String.toList_ofList, List.dropWhile_append_of_pos hblanks, dropWhile_of_head h.1,
    dropWhile_of_head (by rw [List.head?_reverse]; exact h.2), List.reverse_reverse]

/-- `trim` leaves a `Solid` text as it is. -/
theorem trim_of_solid {text : String} (h : Solid text.toList) : trim text = text := by
  unfold trim
  rw [dropWhile_of_head h.1, dropWhile_of_head (by rw [List.head?_reverse]; exact h.2),
    List.reverse_reverse, String.ofList_toList]

/-- `trim` takes off the blanks behind a `Solid` text. -/
theorem trim_append_blanks {chars blanks : List Char} (hblanks : ∀ c ∈ blanks, isBlank c = true)
    (h : Solid chars) (hne : chars ≠ []) :
    trim (String.ofList (chars ++ blanks)) = String.ofList chars := by
  have hhead : ∀ c ∈ (chars ++ blanks).head?, isBlank c = false := by
    rw [List.head?_append_of_ne_nil _ hne]
    exact h.1
  unfold trim
  rw [String.toList_ofList, dropWhile_of_head hhead, List.reverse_append,
    List.dropWhile_append_of_pos (by simpa using hblanks),
    dropWhile_of_head (by rw [List.head?_reverse]; exact h.2), List.reverse_reverse]

/-! ## Lines -/

/-- `linesFrom` at the next character, unless it may start a pair of carriage return and line feed. -/
theorem linesFrom_cons {c : Char} (hc : c ≠ '\r') (taken rest : List Char) :
    linesFrom taken (c :: rest) =
      if isLineBreak c then String.ofList taken.reverse :: linesFrom [] rest
      else linesFrom (c :: taken) rest := by
  rw [linesFrom.eq_def]
  split
  next heq => cases heq
  next heq => cases heq; exact absurd rfl hc
  next heq => cases heq; rfl

/-- `linesFrom` takes characters that break no line into the line that is read. -/
theorem linesFrom_append {chars : List Char} (h : ∀ c ∈ chars, isLineBreak c = false)
    (taken rest : List Char) :
    linesFrom taken (chars ++ rest) = linesFrom (chars.reverse ++ taken) rest := by
  induction chars generalizing taken with
  | nil => rfl
  | cons c more ih =>
    have hc : isLineBreak c = false := h c (by simp)
    have hreturn : c ≠ '\r' := by rintro rfl; exact absurd hc (by decide)
    rw [List.cons_append, linesFrom_cons hreturn, if_neg (by simp [hc]),
      ih fun x hx => h x (by simp [hx])]
    simp

/-- `linesFrom` ends the line that is read at a line feed. -/
theorem linesFrom_lineFeed (taken rest : List Char) :
    linesFrom taken ('\n' :: rest) = String.ofList taken.reverse :: linesFrom [] rest := by
  rw [linesFrom_cons (by decide), if_pos (by decide)]

/-- `linesFrom` splits lines again that are each ended by a line feed. -/
theorem linesFrom_flatMap (rows : List (List Char))
    (h : ∀ row ∈ rows, ∀ c ∈ row, isLineBreak c = false) :
    linesFrom [] (rows.flatMap fun row => row ++ ['\n']) = rows.map String.ofList := by
  induction rows with
  | nil => rfl
  | cons row rest ih =>
    rw [List.flatMap_cons, List.append_assoc, linesFrom_append (h row (by simp)),
      List.singleton_append, linesFrom_lineFeed, ih fun r hr => h r (by simp [hr])]
    simp

/-! ## Rows -/

/-- `rows text`: what stands between the line feeds of a text. -/
def rows (text : List Char) : List (List Char) := text.splitOn '\n'

example : rows ['a', '\r', '\n', 'b'] = [['a', '\r'], ['b']] := by decide

/-- `rows` of two texts with a line feed between them. -/
theorem rows_append_lineFeed (front back : List Char) :
    rows (front ++ '\n' :: back) = rows front ++ rows back :=
  List.splitOnP_append_cons front back rfl

theorem rows_of_not_mem {chars : List Char} (h : '\n' ∉ chars) : rows chars = [chars] :=
  List.splitOn_eq_singleton h

/-- `rows` behind a text without line feeds: the first one is longer by that text. -/
theorem rows_append_of_not_mem {front : List Char} (h : '\n' ∉ front) (back : List Char) :
    rows (front ++ back) = (rows back).modifyHead (front ++ ·) := by
  induction front with
  | nil => cases hrows : rows back <;> simp [hrows]
  | cons c rest ih =>
    obtain ⟨hc, hrest⟩ := not_or.mp (mt List.mem_cons.mpr h)
    have hcons : rows (c :: (rest ++ back)) = (rows (rest ++ back)).modifyHead (c :: ·) := by
      unfold rows
      rw [List.splitOn_eq_splitOnP, List.splitOnP_cons_eq_if_modifyHead, if_neg (by simpa using Ne.symm hc)]
      rfl
    rw [List.cons_append, hcons, ih hrest, List.modifyHead_modifyHead]
    rfl

/-- `rows` of texts that are each ended by a line feed come one after the other; behind the last line feed
    there is nothing. -/
theorem rows_flatMap (texts : List (List Char)) :
    rows (texts.flatMap fun text => text ++ ['\n']) = texts.flatMap rows ++ [[]] := by
  induction texts with
  | nil => rfl
  | cons text rest ih =>
    have htext : (text :: rest).flatMap (fun text => text ++ ['\n']) =
        text ++ '\n' :: rest.flatMap fun text => text ++ ['\n'] := by simp
    rw [htext, rows_append_lineFeed, ih, List.flatMap_cons, List.append_assoc]

end ZebLang.Text
