/-
  Which runs of characters are numbers, and which number each of them is.

  Where a token starts with a digit, all letters, digits and underscores from there on belong to it.  Such a
  run is a number if one of three regular expressions matches it (`Base.numerals`), and its value is that of
  its digits in their places (`positional`).  Any other run is refused where it starts, for the first of its
  characters that is no digit, or because there is nothing behind the mark of its base.

  1. A run is matched just if it is a mark of a base with digits of this base behind it
     (`Base.mem_numerals_iff`).
  2. The value that is built up digit by digit is the sum over the places (`ofDigits_eq_positional`).
  3. The mark of a run is found before its digits are looked at (`Base.split_run`), so a run that is no
     numeral is all mark, or has a first character behind the mark that is no digit (`scanNumber_other`).
  4. What the lexer does at the start of a token is what the scan there says (`Arrives.lex_eq`).
-/

import Mathlib.Computability.RegularExpressions
import Mathlib.Data.Nat.Digits.Defs
import ZebLang.Proofs.Token.Placement

namespace ZebLang

/-! ## Numerals -/

/-- `alphabet`: the characters that may stand for a digit. -/
def Base.alphabet : Base → List Char
  | binary => "01".toList
  | decimal => "0123456789".toList
  | hexadecimal => "0123456789abcdefABCDEF".toList

/-- `oneOf chars`: any one of these characters. -/
def oneOf : List Char → RegularExpression Char
  | [] => 0
  | c :: rest => .char c + oneOf rest

/-- `oneOrMore r`: one match after another, and at least one. -/
def oneOrMore (r : RegularExpression Char) : RegularExpression Char := r * r.star

/-- The numerals of a base: `0[bB][01]+`, `[0-9]+` and `0[xX][0-9a-fA-F]+`. -/
def Base.numerals : Base → RegularExpression Char
  | binary => .char '0' * oneOf ['b', 'B'] * oneOrMore (oneOf binary.alphabet)
  | decimal => oneOrMore (oneOf decimal.alphabet)
  | hexadecimal => .char '0' * oneOf ['x', 'X'] * oneOrMore (oneOf hexadecimal.alphabet)

/-- `digitOf c`: the value of a digit is its place in the row of all digits; both cases of a letter count
    the same. -/
def digitOf (c : Char) : Nat := "0123456789abcdef".toList.idxOf c.toLower

/-- `positional base digits`: the sum of the digits, each times the power of the base that belongs to its
    place. -/
def positional (base : Nat) (digits : List Char) : Nat :=
  Nat.ofDigits base (digits.reverse.map digitOf)

example : positional 16 ['0', '1', 'f', 'F'] = 1 * 16 ^ 2 + 15 * 16 + 15 := by decide

theorem mem_oneOf_iff {chars w : List Char} :
    w ∈ (oneOf chars).matches' ↔ ∃ c ∈ chars, w = [c] := by
  induction chars with
  | nil => exact ⟨fun h => h.elim, fun ⟨c, hc, _⟩ => nomatch hc⟩
  | cons c rest ih =>
    rw [oneOf, RegularExpression.matches'_add, Language.mem_add, ih, List.exists_mem_cons_iff]
    rfl

theorem mem_oneOrMore_iff {chars w : List Char} :
    w ∈ (oneOrMore (oneOf chars)).matches' ↔ w ≠ [] ∧ ∀ c ∈ w, c ∈ chars := by
  rw [oneOrMore, RegularExpression.matches'_mul, RegularExpression.matches'_star, Language.mem_mul]
  constructor
  · rintro ⟨first, hfirst, more, hmore, rfl⟩
    obtain ⟨c, hc, rfl⟩ := mem_oneOf_iff.mp hfirst
    obtain ⟨pieces, rfl, hpieces⟩ := Language.mem_kstar.mp hmore
    refine ⟨by simp, fun x hx => ?_⟩
    rcases List.mem_cons.mp hx with rfl | hx
    · exact hc
    · obtain ⟨piece, hpiece, hx⟩ := List.mem_flatten.mp hx
      obtain ⟨d, hd, rfl⟩ := mem_oneOf_iff.mp (hpieces piece hpiece)
      rw [List.mem_singleton.mp hx]
      exact hd
  · rintro ⟨hne, hall⟩
    obtain ⟨c, rest, rfl⟩ := List.exists_cons_of_ne_nil hne
    refine ⟨[c], mem_oneOf_iff.mpr ⟨c, hall c (by simp), rfl⟩, rest, ?_, rfl⟩
    -- each character is a match of its own
    refine Language.mem_kstar.mpr ⟨rest.map ([·]), (List.flatMap_singleton' rest).symm, ?_⟩
    intro piece hpiece
    obtain ⟨d, hd, rfl⟩ := List.mem_map.mp hpiece
    exact mem_oneOf_iff.mpr ⟨d, hall d (by simp [hd]), rfl⟩

/-- `matches'` for a zero, a letter, and digits behind them. -/
theorem mem_marked_iff {letters alphabet w : List Char} :
    w ∈ (.char '0' * oneOf letters * oneOrMore (oneOf alphabet) : RegularExpression Char).matches' ↔
      ∃ letter ∈ letters, ∃ digits, w = ['0', letter] ++ digits ∧ digits ≠ [] ∧
        ∀ c ∈ digits, c ∈ alphabet := by
  simp only [RegularExpression.matches'_mul, Language.mem_mul, mem_oneOf_iff, mem_oneOrMore_iff]
  constructor
  · rintro ⟨_, ⟨zero, hzero, _, ⟨letter, hletter, rfl⟩, rfl⟩, digits, hdigits, rfl⟩
    obtain rfl : zero = ['0'] := hzero
    exact ⟨letter, hletter, digits, rfl, hdigits⟩
  · rintro ⟨letter, hletter, digits, rfl, hdigits⟩
    exact ⟨['0', letter], ⟨['0'], rfl, [letter], ⟨letter, hletter, rfl⟩, rfl⟩, digits, hdigits, rfl⟩

/-- `numerals` are a mark of the base and digits behind it, at least one. -/
theorem Base.mem_numerals_iff {base : Base} {w : List Char} :
    w ∈ base.numerals.matches' ↔ ∃ mark ∈ base.marks, ∃ digits, w = mark ++ digits ∧ digits ≠ [] ∧
      ∀ c ∈ digits, c ∈ base.alphabet := by
  cases base with
  | binary | hexadecimal =>
    rw [numerals, mem_marked_iff]
    simp only [marks, List.exists_mem_cons_iff, List.not_mem_nil, false_and, exists_false, or_false]
  | decimal =>
    rw [numerals, mem_oneOrMore_iff]
    simp only [marks, List.mem_singleton, exists_eq_left, List.nil_append, exists_eq_left']

/-! ## Digits -/

/-- `charsFrom first n`: so many characters, from this one on. -/
def charsFrom (first : Char) (n : Nat) : List Char := (List.range' first.toNat n).map Char.ofNat

theorem mem_charsFrom {c first : Char} {n : Nat} (hlow : first.toNat ≤ c.toNat)
    (hhigh : c.toNat < first.toNat + n) : c ∈ charsFrom first n :=
  List.mem_map.mpr ⟨c.toNat, List.mem_range'_1.mpr ⟨hlow, hhigh⟩, Char.ofNat_toNat c⟩

theorem mem_digits_of_isDigit {c : Char} (h : c.isDigit = true) :
    c ∈ charsFrom '0' 10 := by
  obtain ⟨hlow, hhigh⟩ := Char.isDigit_iff_toNat.mp h
  exact mem_charsFrom hlow (Nat.lt_succ_of_le hhigh)

/-- `isDigit` is membership in the `alphabet`. -/
theorem Base.isDigit_iff {base : Base} {c : Char} : base.isDigit c = true ↔ c ∈ base.alphabet := by
  have hall : base.alphabet.all base.isDigit = true := by cases base <;> rfl
  refine ⟨fun h => ?_, List.all_eq_true.mp hall c⟩
  cases base with
  | binary =>
    simp only [isDigit, Bool.or_eq_true, decide_eq_true_eq] at h
    rcases h with rfl | rfl
    · exact List.mem_cons_self
    · exact List.mem_cons_of_mem _ List.mem_cons_self
  | decimal => exact mem_digits_of_isDigit h
  | hexadecimal =>
    have hranges : hexadecimal.alphabet = charsFrom '0' 10 ++ (charsFrom 'a' 6 ++ charsFrom 'A' 6) := rfl
    simp only [isDigit, Bool.or_eq_true, Bool.and_eq_true, decide_eq_true_eq] at h
    rw [hranges, List.mem_append, List.mem_append]
    rcases h with (hdigit | ⟨hlow, hhigh⟩) | ⟨hlow, hhigh⟩
    · exact .inl (mem_digits_of_isDigit hdigit)
    · exact .inr (.inl (mem_charsFrom hlow (Nat.lt_succ_of_le hhigh)))
    · exact .inr (.inr (mem_charsFrom hlow (Nat.lt_succ_of_le hhigh)))

/-- `digitValue` is `digitOf` on the `alphabet`. -/
theorem digitValue_eq_digitOf {base : Base} {c : Char} (h : c ∈ base.alphabet) :
    Text.digitValue c = digitOf c := by
  have hall : base.alphabet.all (fun c => Text.digitValue c == digitOf c) = true := by
    cases base <;> rfl
  exact eq_of_beq (List.all_eq_true.mp hall c h)

/-- `ofDigits`, which reads digit by digit from the most significant one on, comes to the `positional` sum.
    -/
theorem ofDigits_eq_positional {base : Base} {digits : List Char}
    (h : ∀ c ∈ digits, c ∈ base.alphabet) (size : Nat) :
    Text.ofDigits size digits = positional size digits := by
  rw [Text.ofDigits, positional, Nat.ofDigits_eq_foldr, List.foldl_eq_foldr_reverse, List.foldr_map]
  refine List.foldr_ext _ _ _ fun c hc n => ?_
  rw [digitValue_eq_digitOf (h c (List.mem_reverse.mp hc)), Nat.mul_comm, Nat.add_comm]
  rfl

/-! ## Scanning a run -/

/-- `numberMarks`: the marks that a number may start with. -/
def numberMarks : List (List Char) := Base.binary.marks ++ Base.hexadecimal.marks

/-- `Base.ofRun w`: the base whose mark a run starts with, or ten. -/
def Base.ofRun (w : List Char) : Base :=
  if ∃ mark ∈ Base.hexadecimal.marks, mark <+: w then .hexadecimal
  else if ∃ mark ∈ Base.binary.marks, mark <+: w then .binary
  else .decimal

/-- `foreign? w`: the first character behind the mark of a run that is no digit of the base. -/
def foreign? (w : List Char) : Option Char :=
  (w.drop (Base.ofRun w).markLength).find? fun c => decide (c ∉ (Base.ofRun w).alphabet)

example : foreign? "0b012".toList = some '2' := by decide

theorem isWordChar_mark {base : Base} {mark : List Char} (h : mark ∈ base.marks) :
    ∀ c ∈ mark, isWordChar c = true := by
  have hall := isWordChar_number h (fun c hc => nomatch hc : ∀ c ∈ [], base.isDigit c = true)
  rwa [List.append_nil] at hall

/-- `markLength` is the length of every mark of the base. -/
theorem length_mark {base : Base} {mark : List Char} (h : mark ∈ base.marks) :
    mark.length = base.markLength := by
  have hall : ∀ m ∈ base.marks, m.length = base.markLength := by cases base <;> decide
  exact hall mark h

/-- `marks` of one length are different if their bases are. -/
theorem not_mark_of_binary {mark w : List Char} (h : mark ∈ Base.binary.marks) (hw : mark <+: w) :
    ¬∃ m ∈ Base.hexadecimal.marks, m <+: w := by
  rintro ⟨m, hm, hmw⟩
  have hsame : m = mark := (List.prefix_of_prefix_length_le hmw hw (by
    rw [length_mark hm, length_mark h]; decide)).eq_of_length (by rw [length_mark hm, length_mark h]; rfl)
  have hapart : ∀ m ∈ Base.hexadecimal.marks, m ∉ Base.binary.marks := by decide
  exact hapart m hm (hsame ▸ h)

/-- `Base.split` into base ten: the text has no mark. -/
theorem Base.unmarked_of_split {text body : List Char} (h : Base.split text = (.decimal, body)) :
    ∀ m ∈ numberMarks, ¬m <+: text := by
  rintro m hm ⟨rest, rfl⟩
  simp only [numberMarks, Base.marks, List.cons_append, List.nil_append, List.mem_cons, List.not_mem_nil,
    or_false] at hm
  rcases hm with rfl | rfl | rfl | rfl
  all_goals cases h

/-- `Base.split` takes the mark of a run from the run, and leaves what comes behind the run as it is. -/
theorem Base.split_run {w after : List Char} (hrun : ∀ c ∈ w, isWordChar c = true)
    (hapart : Apart after) :
    ∃ mark ∈ (Base.ofRun w).marks, ∃ body, w = mark ++ body ∧
      Base.split (w ++ after) = (Base.ofRun w, body ++ after) := by
  obtain ⟨⟨base, rest⟩, hsplit⟩ : ∃ pair, Base.split (w ++ after) = pair := ⟨_, rfl⟩
  obtain ⟨mark, hmark, htext, -⟩ := Base.split_spec hsplit
  -- the run goes on behind the mark, up to the same place
  have hw : w = mark ++ rest.takeWhile isWordChar := by
    have hleft := Text.takeWhile_run hrun hapart
    rw [htext, List.takeWhile_append_of_pos (isWordChar_mark hmark)] at hleft
    exact hleft.symm
  have hrest : rest = rest.takeWhile isWordChar ++ after := by
    rw [hw, List.append_assoc] at htext
    exact (List.append_cancel_left htext).symm
  have hstart : mark <+: w := hw ▸ List.prefix_append mark _
  have hbase : Base.ofRun w = base := by
    unfold Base.ofRun
    cases base with
    | hexadecimal => rw [if_pos ⟨mark, hmark, hstart⟩]
    | binary => rw [if_neg (not_mark_of_binary hmark hstart), if_pos ⟨mark, hmark, hstart⟩]
    | decimal =>
      have hnone : ∀ m ∈ numberMarks, ¬m <+: w := fun m hm hmw =>
        Base.unmarked_of_split hsplit m hm (hmw.trans (List.prefix_append w after))
      rw [if_neg, if_neg]
      · rintro ⟨m, hm, hmw⟩
        exact hnone m (List.mem_append_left _ hm) hmw
      · rintro ⟨m, hm, hmw⟩
        exact hnone m (List.mem_append_right _ hm) hmw
  rw [hbase]
  refine ⟨mark, hmark, rest.takeWhile isWordChar, hw, ?_⟩
  rw [← hrest, hsplit]

/-- `scanNumber` takes a numeral as a whole, unless it is decimal and too long. -/
theorem scanNumber_numeral {base : Base} {w after : List Char} (h : w ∈ base.numerals.matches')
    (hapart : Apart after)
    (hlimit : (∀ x ∈ w, x.isDigit = true) → w.length ≤ Text.digitLimit) :
    ∃ hpos, scanNumber (w ++ after) =
      .ok ⟨.number, .int (positional base.size (w.drop base.markLength)), w.length, hpos⟩ := by
  obtain ⟨mark, hmark, digits, rfl, hne, halphabet⟩ := Base.mem_numerals_iff.mp h
  have hdigits : ∀ c ∈ digits, base.isDigit c = true := fun c hc => Base.isDigit_iff.mpr (halphabet c hc)
  have hshort : ¬(base = .decimal ∧ Text.digitLimit < digits.length) := by
    rintro ⟨rfl, hlong⟩
    obtain rfl := List.mem_singleton.mp hmark
    have := hlimit hdigits
    rw [List.nil_append] at this
    omega
  have hlength := length_mark hmark
  have hscan := scanNumber_run (Base.split_marked hmark hdigits hapart) hdigits hapart hne
  rw [if_neg hshort, ofDigits_eq_positional halphabet] at hscan
  have hdrop : (mark ++ digits).drop base.markLength = digits := by
    rw [← hlength, List.drop_left]
  rw [List.append_assoc, hscan, hdrop]
  refine ⟨List.length_pos_iff.mpr (List.append_ne_nil_of_right_ne_nil mark hne), ?_⟩
  simp only [List.length_append, hlength]

/-- `scanNumber` where nothing stands behind the mark. -/
theorem scanNumber_bare {base : Base} {text rest : List Char} (hsplit : Base.split text = (base, rest))
    (hapart : Apart rest) : scanNumber text = .error (.report .missingDigits none) := by
  have hnodigit := hapart.not_isDigit base
  have htake : rest.takeWhile base.isDigit = [] := @Text.takeWhile_run _ [] rest (by simp) hnodigit
  have hdrop : rest.dropWhile base.isDigit = rest := Text.dropWhile_of_head hnodigit
  unfold scanNumber
  rw [hsplit]
  simp only [htake, hdrop, hapart.filter_head]
  rfl

/-- `scanNumber` where a word character behind the digits is none of them. -/
theorem scanNumber_stopped {base : Base} {text digits more : List Char} {x : Char}
    (hsplit : Base.split text = (base, digits ++ x :: more))
    (hdigits : ∀ c ∈ digits, base.isDigit c = true) (hx : base.isDigit x = false)
    (hword : isWordChar x = true) : scanNumber text = .error (.report (.invalidDigit x) none) := by
  have hnext : ∀ c ∈ (x :: more).head?, base.isDigit c = false := by
    rintro c hc
    cases hc
    exact hx
  have hdrop : (digits ++ x :: more).dropWhile base.isDigit = x :: more := Text.dropWhile_run hdigits hnext
  unfold scanNumber
  rw [hsplit]
  simp only [hdrop, List.head?_cons, Option.filter_some, hword, if_true]

/-- `scanNumber` on a run that is no numeral: it is all mark, or a character in it is no digit. -/
theorem scanNumber_other {w after : List Char} (hne : w ≠ []) (hrun : ∀ c ∈ w, isWordChar c = true)
    (hapart : Apart after) (hnone : ∀ base : Base, w ∉ base.numerals.matches') :
    (w ∈ numberMarks ∧ scanNumber (w ++ after) = .error (.report .missingDigits none)) ∨
      w ∉ numberMarks ∧ ∃ x, foreign? w = some x ∧
        scanNumber (w ++ after) = .error (.report (.invalidDigit x) none) := by
  obtain ⟨mark, hmark, body, hw, hsplit⟩ := Base.split_run hrun hapart
  have hbody : w.drop (Base.ofRun w).markLength = body := by
    rw [← length_mark hmark]
    exact (congrArg (List.drop mark.length) hw).trans List.drop_left
  by_cases hempty : body = []
  · subst hempty
    rw [List.append_nil] at hw
    refine .inl ⟨?_, scanNumber_bare hsplit hapart⟩
    rw [← hw] at hmark
    generalize Base.ofRun w = base at hmark
    cases base with
    | binary => exact List.mem_append_left _ hmark
    | hexadecimal => exact List.mem_append_right _ hmark
    | decimal => exact absurd (List.mem_singleton.mp hmark) hne
  · -- if there were only digits, the run would be a numeral
    have hforeign : ∃ x ∈ body, x ∉ (Base.ofRun w).alphabet := by
      by_contra hall
      push Not at hall
      exact hnone _ (Base.mem_numerals_iff.mpr ⟨mark, hmark, body, hw, hempty, hall⟩)
    obtain ⟨y, hy, hyforeign⟩ := hforeign
    obtain ⟨x, hx⟩ : ∃ x, foreign? w = some x := by
      rw [foreign?, hbody, ← Option.isSome_iff_exists]
      exact List.find?_isSome.mpr ⟨y, hy, decide_eq_true hyforeign⟩
    refine .inr ⟨fun hmem => ?_, x, hx, ?_⟩
    · -- a mark that is the whole run has nothing behind it
      have hall : ∀ m ∈ numberMarks, m.drop (Base.ofRun m).markLength = [] := by decide
      exact hempty (hbody.symm.trans (hall w hmem))
    · rw [foreign?, hbody] at hx
      obtain ⟨hxforeign, digits, more, hparts, hdigits⟩ := List.find?_eq_some_iff_append.mp hx
      have hstop : Base.split (w ++ after) = (Base.ofRun w, digits ++ x :: (more ++ after)) := by
        rw [hsplit, hparts, List.append_assoc]
        rfl
      refine scanNumber_stopped hstop ?_ ?_ ?_
      · intro c hc
        refine Base.isDigit_iff.mpr ?_
        simpa using hdigits c hc
      · rw [← Bool.not_eq_true, Base.isDigit_iff]
        exact of_decide_eq_true hxforeign
      · exact hrun x (by simp [hw, hparts])

/-! ## Where the lexer comes to a token -/

/-- `Arrives file text tokens c`: the lexer has read these tokens of a text, and stands where the next one
    is due. -/
inductive Arrives (file : String) (text : List Char) : List Token → Cursor → Prop where
  | start : Arrives file text [] (Cursor.start text).skipGap
  | token {tokens : List Token} {c : Cursor} {first : Char} {rest : List Char} {lexeme : Lexeme}
      (h : Arrives file text tokens c) (hrest : c.rest = first :: rest)
      (hscan : scan first rest = .ok lexeme) :
      Arrives file text (tokens ++ [⟨lexeme.kind, lexeme.value, c.line, c.column, file⟩])
        (c.advanceBy lexeme.length).skipGap

/-- `skipGap` is idempotent. -/
theorem Cursor.skipGap_skipGap (c : Cursor) : c.skipGap.skipGap = c.skipGap := by
  have hended := gap_ended c.rest
  rw [← Cursor.rest_skipGap] at hended
  have hgap : gapLength c.skipGap.rest = 0 := by
    cases hrest : c.skipGap.rest with
    | nil => rfl
    | cons first rest =>
      have hfirst := hended first (by rw [hrest]; rfl)
      simp only [List.mem_cons, List.not_mem_nil, or_false, not_or] at hfirst
      obtain ⟨hspace, htab, hreturn, hcomment⟩ := hfirst
      exact gapLength_of_first (by simp [isGapChar, hspace, htab, hreturn]) hcomment rest
  rw [Cursor.skipGap, hgap]
  rfl

namespace Arrives

variable {file : String} {text : List Char} {tokens : List Token} {c : Cursor}

/-- `Arrives`: where a token is due there is no gap. -/
theorem skipGap_eq (h : Arrives file text tokens c) : c.skipGap = c := by
  cases h with
  | start => exact Cursor.skipGap_skipGap _
  | token => exact Cursor.skipGap_skipGap _

/-- `lexFrom` gives the tokens that it has read when it `Arrives`, and those that come from there on. -/
theorem lexFrom_eq (h : Arrives file text tokens c) :
    lexFrom file (.start text) = ⟨tokens ++ (lexFrom file c).tokens, (lexFrom file c).fault⟩ := by
  induction h with
  | start => exact lexFrom_congr (Cursor.skipGap_skipGap _).symm
  | @token tokens c first rest lexeme h hrest hscan ih =>
    have hgap := h.skipGap_eq
    have htoken := @lexFrom_token file c first rest lexeme (by rw [hgap, hrest]) hscan
    rw [hgap] at htoken
    rw [ih, htoken, lexFrom_congr (Cursor.skipGap_skipGap (c.advanceBy lexeme.length)), List.append_assoc]
    rfl

theorem lex_eq {source : String} (h : Arrives file source.toList tokens c) :
    lex source file = ⟨tokens ++ (lexFrom file c).tokens, (lexFrom file c).fault⟩ := h.lexFrom_eq

/-- `Arrives` behind what was read of the text. -/
theorem exists_before (h : Arrives file text tokens c) :
    ∃ before, text = before ++ c.rest ∧ c.IsBehind before := by
  have hskip : ∀ {c : Cursor} {before : List Char}, text = before ++ c.rest → c.IsBehind before →
      ∃ before, text = before ++ c.skipGap.rest ∧ c.skipGap.IsBehind before := by
    intro c before hwhole hbehind
    refine ⟨_, ?_, hbehind.advanceBy (Cursor.gapLength c.rest)⟩
    rw [List.append_assoc, Cursor.rest_skipGap, List.take_append_drop, hwhole]
  induction h with
  | start => exact hskip rfl (Cursor.isBehind_start text)
  | @token tokens c first rest lexeme h hrest hscan ih =>
    obtain ⟨before, hwhole, hbehind⟩ := ih
    refine hskip ?_ (hbehind.advanceBy lexeme.length)
    rw [List.append_assoc, Cursor.rest_advanceBy, List.take_append_drop, hwhole]

end Arrives

/-- The two messages differ in their first letter. -/
theorem text_invalidDigit_ne (x : Char) : (Cause.invalidDigit x).text ≠ Cause.missingDigits.text := by
  intro h
  have hfirst : ("invalid digit '" ++ String.singleton x ++ "' in number").toList.head? =
      "number prefix without digits".toList.head? := congrArg (·.toList.head?) h
  rw [String.toList_append, String.toList_append, List.append_assoc,
    List.head?_append_of_ne_nil _ (by decide)] at hfirst
  exact absurd hfirst (by decide)

/-- Where a token starts with a digit, all word characters from there on are its run `w`.  The lexer reads
    the run as a number, and goes on right behind it, just if the run is a numeral, and the number is the
    positional value of its digits.  Otherwise reading ends with a diagnostic at the start of the run: there
    are no digits behind a mark that is the whole run, or else the first character behind the mark that is no
    digit is named.  Decimal runs are as long as can be read. -/
theorem lex_number {source file : String} {tokens : List Token} {c : Cursor} {w after : List Char}
    (harrives : Arrives file source.toList tokens c) (htext : c.rest = w ++ after)
    (hfirst : ∃ d ∈ w.head?, d.isDigit = true) (hrun : ∀ x ∈ w, isWordChar x = true)
    (hapart : Apart after) (hlimit : (∀ x ∈ w, x.isDigit = true) → w.length ≤ Text.digitLimit) :
    (∃ before, source.toList = before ++ (w ++ after) ∧ c.location file = placeBehind file before) ∧
    (∀ n : Nat, (∃ base : Base, w ∈ base.numerals.matches' ∧
        n = positional base.size (w.drop base.markLength)) ↔
      lex source file =
        ⟨tokens ++ ⟨.number, .int n, c.line, c.column, file⟩ ::
            (lexFrom file (c.advanceBy w.length)).tokens,
          (lexFrom file (c.advanceBy w.length)).fault⟩) ∧
    ((∀ base : Base, w ∉ base.numerals.matches') →
      ∃ d, lex source file = ⟨tokens, some (.diagnostic d)⟩ ∧ d.location = some (.known (c.location file)) ∧
        d.cause.category = some .grammar ∧
        (d.cause.text = "number prefix without digits" ↔ w ∈ numberMarks) ∧
        (w ∉ numberMarks → ∃ x, foreign? w = some x ∧
          d.cause.text = "invalid digit '" ++ String.singleton x ++ "' in number")) := by
  obtain ⟨d, hd, hdigit⟩ := hfirst
  obtain ⟨more, hw⟩ := List.head?_eq_some_iff.mp hd
  have hrest : c.skipGap.rest = d :: (more ++ after) := by
    rw [harrives.skipGap_eq, htext, hw]
    rfl
  have hscan : scan d (more ++ after) = scanNumber (w ++ after) := by
    rw [scan_of_isDigit hdigit, hw]
    rfl
  have hnumber : ∀ base : Base, w ∈ base.numerals.matches' → lex source file =
      ⟨tokens ++ ⟨.number, .int (positional base.size (w.drop base.markLength)), c.line, c.column, file⟩ ::
          (lexFrom file (c.advanceBy w.length)).tokens,
        (lexFrom file (c.advanceBy w.length)).fault⟩ := by
    intro base hbase
    obtain ⟨hpos, hnumeral⟩ := scanNumber_numeral hbase hapart hlimit
    rw [harrives.lex_eq, lexFrom_token hrest (hscan.trans hnumeral), harrives.skipGap_eq]
  have hrefused : ∀ cause, scanNumber (w ++ after) = .error (.report cause none) → ∃ d,
      lex source file = ⟨tokens, some (.diagnostic d)⟩ ∧ d.location = some (.known (c.location file)) ∧
        d.cause = cause := by
    intro cause hcause
    have hstop := @lexFrom_error file c d (more ++ after) _ hrest (hscan.trans hcause)
    rw [harrives.skipGap_eq] at hstop
    have hlex := harrives.lex_eq
    rw [hstop, List.append_nil] at hlex
    exact ⟨_, hlex, rfl, rfl⟩
  have hother := @scanNumber_other w after (by rw [hw]; simp) hrun hapart
  refine ⟨?_, fun n => ⟨?_, fun hlex => ?_⟩, fun hnone => ?_⟩
  · obtain ⟨before, hwhole, hbehind⟩ := harrives.exists_before
    rw [htext] at hwhole
    exact ⟨before, hwhole, hbehind.location_eq file⟩
  · rintro ⟨base, hbase, rfl⟩
    exact hnumber base hbase
  · -- what is no numeral is refused, and a numeral has one value
    by_cases hsome : ∃ base : Base, w ∈ base.numerals.matches'
    · obtain ⟨base, hbase⟩ := hsome
      have hsame := congrArg Lexed.tokens ((hnumber base hbase).symm.trans hlex)
      have htoken := (List.cons.inj (List.append_cancel_left hsame)).1
      injection htoken with _ hvalue
      injection hvalue with hvalue
      exact ⟨base, hbase, (Int.ofNat.inj hvalue).symm⟩
    · exfalso
      have hstop : ∃ cause, scanNumber (w ++ after) = .error (.report cause none) := by
        rcases hother fun base hbase => hsome ⟨base, hbase⟩ with ⟨-, hscan⟩ | ⟨-, x, -, hscan⟩
        · exact ⟨_, hscan⟩
        · exact ⟨_, hscan⟩
      obtain ⟨cause, hcause⟩ := hstop
      obtain ⟨d, hdiagnostic, -⟩ := hrefused cause hcause
      have hsame := congrArg Lexed.tokens (hdiagnostic.symm.trans hlex)
      exact List.cons_ne_nil _ _ (List.append_right_eq_self.mp hsame.symm)
  · rcases hother hnone with ⟨hmark, hscan⟩ | ⟨hmark, x, hforeign, hscan⟩
    · obtain ⟨d, hlex, hplace, hcause⟩ := hrefused _ hscan
      refine ⟨d, hlex, hplace, by rw [hcause]; rfl, ?_, fun hnot => absurd hmark hnot⟩
      rw [hcause]
      exact iff_of_true rfl hmark
    · obtain ⟨d, hlex, hplace, hcause⟩ := hrefused _ hscan
      refine ⟨d, hlex, hplace, by rw [hcause]; rfl, ?_, fun _ => ⟨x, hforeign, by rw [hcause]; rfl⟩⟩
      rw [hcause]
      exact iff_of_false (text_invalidDigit_ne x) hmark

/-- The run `0x1F` is 31, and `0b12` is no number because of its last digit. -/
theorem lex_number_of_two_bases :
    lex "0x1F" "f" = ⟨⟨.number, .int 31, 1, 1, "f"⟩ :: (lexFrom "f" ⟨[], "0x1F".toList, 1, 5⟩).tokens,
      (lexFrom "f" ⟨[], "0x1F".toList, 1, 5⟩).fault⟩ ∧
    ∃ d, lex "31-0b12" "f" =
        ⟨[⟨.number, .int 31, 1, 1, "f"⟩, ⟨.minus, .text "-", 1, 3, "f"⟩], some (.diagnostic d)⟩ ∧
      d.location = some (.known ⟨"f", 1, 4⟩) ∧ d.cause.text = "invalid digit '2' in number" := by
  constructor
  · have hread := @lex_number "0x1F" "f" _ _ "0x1F".toList [] .start rfl ⟨'0', by decide, by decide⟩
      (List.all_eq_true.mp rfl) (by simp [Apart]) (fun _ => by decide)
    exact (hread.2.1 31).mp ⟨.hexadecimal, by decide, by decide⟩
  · have hnumber : Arrives "f" "31-0b12".toList [⟨.number, .int 31, 1, 1, "f"⟩]
        ⟨"-0b12".toList, "31-0b12".toList, 1, 3⟩ :=
      @Arrives.token _ _ _ _ _ _ ⟨.number, .int 31, 2, by decide⟩ .start rfl rfl
    have hminus : Arrives "f" "31-0b12".toList
        [⟨.number, .int 31, 1, 1, "f"⟩, ⟨.minus, .text "-", 1, 3, "f"⟩]
        ⟨"0b12".toList, "31-0b12".toList, 1, 4⟩ :=
      @Arrives.token _ _ _ _ _ _ ⟨.minus, .text "-", 1, by decide⟩ hnumber rfl rfl
    have hread := @lex_number "31-0b12" "f" _ _ "0b12".toList [] hminus rfl ⟨'0', by decide, by decide⟩
      (List.all_eq_true.mp rfl) (by simp [Apart]) (fun _ => by decide)
    obtain ⟨d, hlex, hplace, -, -, hforeign⟩ := hread.2.2 (fun base => by cases base <;> decide)
    obtain ⟨x, hx, htext⟩ := hforeign (by decide)
    obtain rfl : x = '2' := Option.some.inj (hx.symm.trans (by decide))
    exact ⟨d, hlex, hplace, htext⟩

end ZebLang
