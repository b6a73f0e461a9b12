/-
  One token.

  1. Every token carries what tokens of its kind carry, and a name is an identifier.
  2. A scan comes to a token, to a diagnostic of grammar, or to a number with too many digits to be read
     (`Scanned`).  The latter is so just if the text starts with such a number (`StartsLong`).
  3. Words and numbers are maximal runs of word characters.  So one that no such character follows
     (`Apart`) is scanned as a whole.
-/

import ZebLang.Proofs.Program.Grammar
import ZebLang.Proofs.Text
import ZebLang.Token.Lexer

namespace ZebLang

/-! ## What a token carries -/

/-- `IsWord word`: letters, digits and underscores, no digit first. -/
def IsWord (word : String) : Prop :=
  ∃ first rest, word.toList = first :: rest ∧ isWordStart first = true ∧
    ∀ c ∈ rest, isWordChar c = true

theorem isWord_exit : IsWord "exit" := ⟨'e', ['x', 'i', 't'], rfl, rfl, List.all_eq_true.mp rfl⟩

theorem isWord_for : IsWord "for" := ⟨'f', ['o', 'r'], rfl, rfl, List.all_eq_true.mp rfl⟩

theorem isWord_in : IsWord "in" := ⟨'i', ['n'], rfl, rfl, List.all_eq_true.mp rfl⟩

theorem isWord_endfor : IsWord "endfor" :=
  ⟨'e', ['n', 'd', 'f', 'o', 'r'], rfl, rfl, List.all_eq_true.mp rfl⟩

/-- `IsIdentifier word`: a word that is none of the four keywords. -/
structure IsIdentifier (word : String) : Prop where
  spelled : IsWord word
  notKeyword : word ∉ ["exit", "for", "in", "endfor"]

/-- `ofWord` of an `IsIdentifier` is the kind of names. -/
theorem TokenKind.ofWord_of_isIdentifier {word : String} (h : IsIdentifier word) :
    TokenKind.ofWord word = .identifier := by
  have hnot := h.notKeyword
  simp only [List.mem_cons, List.not_mem_nil, or_false, not_or] at hnot
  obtain ⟨hexit, hfor, hin, hendfor⟩ := hnot
  rw [TokenKind.ofWord, if_neg hexit, if_neg hfor, if_neg hin, if_neg hendfor]

/-- `kind.Holds value`: what the tokens of a kind carry, names included. -/
def TokenKind.Holds (kind : TokenKind) (value : Datum) : Prop :=
  kind.Carries value ∧ (kind = .identifier → ∃ word, value = .text word ∧ IsIdentifier word)

/-- `Holds` for a word and the kind that `ofWord` gives it. -/
theorem holds_ofWord {word : String} (h : IsWord word) :
    TokenKind.ofWord word ≠ .endOfFile ∧ (TokenKind.ofWord word).Holds (.text word) := by
  unfold TokenKind.ofWord
  split
  next => exact ⟨nofun, ⟨word, rfl⟩, nofun⟩
  next hexit =>
    split
    next => exact ⟨nofun, ⟨word, rfl⟩, nofun⟩
    next hfor =>
      split
      next => exact ⟨nofun, ⟨word, rfl⟩, nofun⟩
      next hin =>
        split
        next => exact ⟨nofun, ⟨word, rfl⟩, nofun⟩
        next hendfor =>
          refine ⟨nofun, ⟨word, rfl⟩, fun _ => ⟨word, rfl, h, ?_⟩⟩
          simp [hexit, hfor, hin, hendfor]

/-- `signs`: the eight signs and their kinds. -/
def signs : List (Char × TokenKind) :=
  [('+', .plus), ('-', .minus), ('*', .star), ('/', .slash), ('%', .percent), ('=', .assign),
    ('(', .leftParen), (')', .rightParen)]

/-- `TokenKind.ofSign?` is the table `signs`. -/
theorem TokenKind.ofSign?_eq_some_iff {c : Char} {kind : TokenKind} :
    TokenKind.ofSign? c = some kind ↔ (c, kind) ∈ signs := by
  constructor
  · intro h
    unfold TokenKind.ofSign? at h
    split at h
    case h_9 => cases h
    all_goals
      cases h
      simp [signs]
  · intro h
    simp only [signs, List.mem_cons, List.not_mem_nil, or_false, Prod.mk.injEq] at h
    rcases h with ⟨rfl, rfl⟩ | ⟨rfl, rfl⟩ | ⟨rfl, rfl⟩ | ⟨rfl, rfl⟩ | ⟨rfl, rfl⟩ | ⟨rfl, rfl⟩ |
      ⟨rfl, rfl⟩ | ⟨rfl, rfl⟩
    all_goals rfl

/-- `Holds` for a sign and its kind, by the table `signs`. -/
theorem holds_ofSign {c : Char} {kind : TokenKind} (h : TokenKind.ofSign? c = some kind) :
    kind ≠ .endOfFile ∧ kind.Holds (.text (String.singleton c)) := by
  have hall : ∀ sign ∈ signs, sign.2 ≠ .endOfFile ∧ sign.2.Holds (.text (String.singleton sign.1)) := by
    simp [signs, TokenKind.Holds, TokenKind.Carries]
  exact hall _ (TokenKind.ofSign?_eq_some_iff.mp h)

/-! ## What a scan comes to -/

/-- `Apart text`: no word or number before `text` can run into it. -/
def Apart (text : List Char) : Prop := ∀ c ∈ text.head?, isWordChar c = false

/-- `StartsLong text n`: a decimal number of `n` digits comes first, more than can be read. -/
def StartsLong (text : List Char) (n : Nat) : Prop :=
  ∃ digits after, text = digits ++ after ∧ (∀ c ∈ digits, c.isDigit = true) ∧ Apart after ∧
    digits.length = n ∧ Text.digitLimit < n

/-- `Scanned text result`: what the scan of a text can come to.  It is a token that carries what tokens of
    its kind carry and is not the end, or a diagnostic of grammar, or a number that is too long. -/
inductive Scanned (text : List Char) : Except Fault Lexeme → Prop where
  | token {lexeme : Lexeme} (hkind : lexeme.kind ≠ .endOfFile)
      (hholds : lexeme.kind.Holds lexeme.value) : Scanned text (.ok lexeme)
  | refused {cause : Cause} (hcause : cause.category = some .grammar) :
      Scanned text (.error (.report cause none))
  | overlong {n : Nat} (hlong : StartsLong text n) : Scanned text (.error (.unreadable n))

/-- `Base.split` takes no mark off a decimal number. -/
theorem Base.eq_of_split_decimal {text body : List Char} (h : Base.split text = (.decimal, body)) :
    body = text := by
  unfold Base.split at h
  split at h <;> cases h
  rfl

/-- `scanNumber` meets `Scanned`. -/
theorem scanned_number (text : List Char) : Scanned text (scanNumber text) := by
  unfold scanNumber
  split
  next base body hsplit =>
  dsimp only
  split
  next => exact .refused rfl
  next hnext =>
    split
    next => exact .refused rfl
    next =>
      split
      next hlong =>
        -- all digits are taken, so no word character follows them
        obtain ⟨rfl, hlong⟩ := hlong
        obtain rfl := Base.eq_of_split_decimal hsplit
        refine .overlong ⟨_, _, (List.takeWhile_append_dropWhile).symm, ?_, ?_, rfl, hlong⟩
        · exact fun c hc => List.mem_takeWhile_imp hc
        · intro c hc
          rw [hc] at hnext
          simpa using hnext
      next => exact .token nofun ⟨⟨_, rfl⟩, nofun⟩

/-- `scan` meets `Scanned`. -/
theorem scanned (first : Char) (rest : List Char) : Scanned (first :: rest) (scan first rest) := by
  unfold scan
  dsimp only
  split
  next => exact .token nofun ⟨⟨_, rfl⟩, nofun⟩
  next =>
    split
    next => exact scanned_number _
    next =>
      split
      next hstart =>
        have hword : IsWord (String.ofList (first :: rest.takeWhile isWordChar)) :=
          ⟨first, _, String.toList_ofList, hstart, fun c hc => List.mem_takeWhile_imp hc⟩
        exact .token (holds_ofWord hword).1 (holds_ofWord hword).2
      next =>
        split
        next hsign => exact .token (holds_ofSign hsign).1 (holds_ofSign hsign).2
        next => exact .refused rfl

/-- `scan` gives a token that `Holds` what tokens of its kind carry, and is not the end. -/
theorem holds_of_scan {first : Char} {rest : List Char} {lexeme : Lexeme}
    (h : scan first rest = .ok lexeme) : lexeme.kind ≠ .endOfFile ∧ lexeme.kind.Holds lexeme.value := by
  have hscanned := scanned first rest
  rw [h] at hscanned
  cases hscanned with
  | token hkind hholds => exact ⟨hkind, hholds⟩

/-- `scan` fails with a diagnostic of grammar, or on a number too long to be read. -/
theorem fault_of_scan {first : Char} {rest : List Char} {fault : Fault}
    (h : scan first rest = .error fault) :
    (∃ cause, cause.category = some .grammar ∧ fault = .report cause none) ∨
      ∃ digits, fault = .unreadable digits := by
  have hscanned := scanned first rest
  rw [h] at hscanned
  cases hscanned with
  | refused hcause => exact .inl ⟨_, hcause, rfl⟩
  | overlong hlong => exact .inr ⟨_, rfl⟩

/-! ## Words and numbers -/

theorem apart_nil : Apart [] := fun _ hc => nomatch hc

theorem apart_cons {c : Char} (h : isWordChar c = false) (text : List Char) : Apart (c :: text) := by
  rintro d hd
  cases hd
  exact h

/-- `Char.isAlpha` as two ranges of code points. -/
theorem isAlpha_iff {c : Char} :
    c.isAlpha = true ↔ 'A'.val ≤ c.val ∧ c.val ≤ 'Z'.val ∨ 'a'.val ≤ c.val ∧ c.val ≤ 'z'.val := by
  show (decide ('A'.val ≤ c.val ∧ c.val ≤ 'Z'.val) ||
    decide ('a'.val ≤ c.val) && decide (c.val ≤ 'z'.val)) = true ↔ _
  simp only [Bool.or_eq_true, Bool.and_eq_true, decide_eq_true_eq]

/-- `isWordStart` excludes what starts a number, gap or comment or ends a statement. -/
theorem isWordStart_excludes {c : Char} (h : isWordStart c = true) :
    c.isDigit = false ∧ isGapChar c = false ∧ c ≠ '#' ∧ ¬(c = '\n' ∨ c = ';') := by
  have hother : ∀ d, isWordStart d = false → c ≠ d := by
    rintro d hd rfl
    rw [h] at hd
    cases hd
  refine ⟨?_, ?_, hother _ (by decide), ?_⟩
  · simp only [isWordStart, Bool.or_eq_true, decide_eq_true_eq, isAlpha_iff] at h
    rcases h with h | rfl
    · simp only [Char.isDigit, Bool.and_eq_false_iff, decide_eq_false_iff_not]
      grind
    · rfl
  · simp [isGapChar, hother ' ' (by decide), hother '\t' (by decide), hother '\r' (by decide)]
  · rintro (hc | hc)
    · exact hother _ (by decide) hc
    · exact hother _ (by decide) hc

/-- `isWordChar` holds of the digits of every base. -/
theorem Base.isWordChar_of_isDigit {base : Base} {c : Char} (h : base.isDigit c = true) :
    isWordChar c = true := by
  cases base with
  | binary =>
    simp only [Base.isDigit, Bool.or_eq_true, decide_eq_true_eq] at h
    rcases h with rfl | rfl
    · rfl
    · rfl
  | decimal => simp [isWordChar, Char.isAlphanum, show c.isDigit = true from h]
  | hexadecimal =>
    simp only [Base.isDigit, Bool.or_eq_true, Bool.and_eq_true, decide_eq_true_eq, Char.le_def] at h
    simp only [isWordChar, Char.isAlphanum, Bool.or_eq_true, decide_eq_true_eq, isAlpha_iff]
    grind

/-- `isDigit` excludes what starts a gap or comment or ends a statement. -/
theorem isDigit_excludes {c : Char} (h : c.isDigit = true) :
    isGapChar c = false ∧ c ≠ '#' ∧ ¬(c = '\n' ∨ c = ';') := by
  have hother : ∀ d, Char.isDigit d = false → c ≠ d := by
    rintro d hd rfl
    rw [h] at hd
    cases hd
  refine ⟨?_, hother _ (by decide), ?_⟩
  · simp [isGapChar, hother ' ' (by decide), hother '\t' (by decide), hother '\r' (by decide)]
  · rintro (hc | hc)
    · exact hother _ (by decide) hc
    · exact hother _ (by decide) hc

section Digits

variable {digits rest : List Char} (hdigits : ∀ c ∈ digits, c.isDigit = true) (hapart : Apart rest)
include hdigits hapart

/-- No letter comes second in a text that starts with the digits of a number. -/
theorem second_ne_letter {letter : Char} (hletter : isWordChar letter = true)
    (hnot : letter.isDigit = false) (more : List Char) : digits ++ rest ≠ '0' :: letter :: more := by
  intro heq
  -- the second character is a digit, or the first one behind the number
  match digits with
  | [] =>
    rw [List.nil_append] at heq
    exact absurd (hapart '0' (by rw [heq]; rfl)) (by decide)
  | [d] =>
    obtain ⟨-, rfl⟩ := List.cons.inj heq
    exact absurd (hapart letter rfl) (by simp [hletter])
  | d :: e :: _ =>
    obtain ⟨-, htail⟩ := List.cons.inj heq
    obtain ⟨rfl, -⟩ := List.cons.inj htail
    exact absurd (hdigits e (by simp)) (by simp [hnot])

/-- `Base.split` of digits with nothing behind them that could belong to the number: base ten. -/
theorem Base.split_digits : Base.split (digits ++ rest) = (.decimal, digits ++ rest) := by
  unfold Base.split
  split
  next heq => exact absurd heq (second_ne_letter hdigits hapart rfl rfl _)
  next heq => exact absurd heq (second_ne_letter hdigits hapart rfl rfl _)
  next heq => exact absurd heq (second_ne_letter hdigits hapart rfl rfl _)
  next heq => exact absurd heq (second_ne_letter hdigits hapart rfl rfl _)
  next => rfl

end Digits

/-- `Apart`: the text starts with no digit of any base. -/
theorem Apart.not_isDigit {rest : List Char} (h : Apart rest) (base : Base) :
    ∀ c ∈ rest.head?, base.isDigit c = false := by
  intro c hc
  cases hd : base.isDigit c with
  | false => rfl
  | true => exact absurd (h c hc) (by simp [Base.isWordChar_of_isDigit hd])

/-- `Apart`: the text starts with no word character. -/
theorem Apart.filter_head {rest : List Char} (h : Apart rest) : rest.head?.filter isWordChar = none := by
  cases hrest : rest.head? with
  | none => rfl
  | some c => simp [h c hrest]

/-- `scanNumber` takes the run of digits behind the mark of their base, and reads it unless it is decimal
    and too long. -/
theorem scanNumber_run {base : Base} {text digits rest : List Char}
    (hsplit : Base.split text = (base, digits ++ rest))
    (hdigits : ∀ c ∈ digits, base.isDigit c = true) (hapart : Apart rest) (hne : digits ≠ []) :
    scanNumber text =
      if base = .decimal ∧ Text.digitLimit < digits.length then .error (.unreadable digits.length)
      else .ok ⟨.number, .int (Text.ofDigits base.size digits), base.markLength + digits.length,
        Nat.add_pos_right _ (List.length_pos_iff.mpr hne)⟩ := by
  have hnodigit := hapart.not_isDigit base
  have htake : (digits ++ rest).takeWhile base.isDigit = digits := Text.takeWhile_run hdigits hnodigit
  have hdrop : (digits ++ rest).dropWhile base.isDigit = rest := Text.dropWhile_run hdigits hnodigit
  unfold scanNumber
  rw [hsplit]
  simp only [htake, hdrop, hapart.filter_head]
  rw [dif_neg (by simpa using hne)]

/-- `scan` goes by `scanNumber` where a digit comes first. -/
theorem scan_of_isDigit {first : Char} (h : first.isDigit = true) (rest : List Char) :
    scan first rest = scanNumber (first :: rest) := by
  unfold scan
  rw [if_neg (isDigit_excludes h).2.2, if_pos h]

/-- `scan` takes a word as a whole if what follows is `Apart`. -/
theorem scan_word {w : String} {first : Char} {more rest : List Char} (hw : w.toList = first :: more)
    (hfirst : isWordStart first = true) (hmore : ∀ c ∈ more, isWordChar c = true)
    (hapart : Apart rest) :
    scan first (more ++ rest) = .ok ⟨.ofWord w, .text w, 1 + more.length, by omega⟩ := by
  obtain ⟨hdigit, -, -, hend⟩ := isWordStart_excludes hfirst
  have hrun : (more ++ rest).takeWhile isWordChar = more := Text.takeWhile_run hmore hapart
  unfold scan
  rw [if_neg hend, hdigit, if_neg Bool.false_ne_true, if_pos hfirst, scanWord]
  simp only [hrun, ← hw, String.ofList_toList]

/-! ## Numbers that are too long -/

theorem not_startsLong_nil {n : Nat} : ¬StartsLong [] n := by
  rintro ⟨digits, after, htext, -, -, rfl, hlong⟩
  obtain ⟨rfl, -⟩ := List.append_eq_nil_iff.mp htext.symm
  exact absurd hlong (Nat.not_lt_zero _)

/-- `scan` fails with `unreadable` just where the text `StartsLong`. -/
theorem scan_eq_unreadable_iff {first : Char} {rest : List Char} {n : Nat} :
    scan first rest = .error (.unreadable n) ↔ StartsLong (first :: rest) n := by
  constructor
  · intro h
    have hscanned := scanned first rest
    rw [h] at hscanned
    cases hscanned with
    | overlong hlong => exact hlong
  · rintro ⟨digits, after, htext, hdigits, hapart, rfl, hlong⟩
    obtain ⟨d, more, rfl⟩ := List.exists_cons_of_length_pos (Nat.zero_lt_of_lt hlong)
    obtain ⟨rfl, -⟩ := List.cons.inj htext
    rw [scan_of_isDigit (hdigits first (by simp)), htext,
      scanNumber_run (Base.split_digits hdigits hapart) hdigits hapart (by simp),
      if_pos ⟨rfl, hlong⟩]

end ZebLang
