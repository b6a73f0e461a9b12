/-
  Where tokens stand in their text.

  A text that is read comes apart, from its start, into gaps and the spellings of tokens, and nothing of
  it is lost:

      gap spelling gap spelling ... gap rest

  1. What is skipped is a gap, and past it the text has ended or something stands there that is no part of
     a gap (`gap_take`, `gap_ended`).
  2. A scan that gives a token takes a spelling of this token (`standsAt_of_scan`).  Where a spelling
     stands, a token is scanned, unless its digits are too many to be read (`scan_of_standsAt`).
  3. A cursor that has read some text knows the line and the column behind it (`Cursor.IsBehind`).

  By induction along the reading, all tokens stand so (`lexFrom_decomposes`).
-/

import Mathlib.Data.List.DropRight
import ZebLang.Proofs.Token.Composition

namespace ZebLang

/-! ## Gaps -/

/-- `Gap after gap`: a gap in front of `after`, of blanks and comments that each run up to a line feed or to
    the end. -/
inductive Gap (after : List Char) : List Char → Prop where
  | nil : Gap after []
  | blank {c : Char} {rest : List Char} (hc : c ∈ [' ', '\t', '\r']) (h : Gap after rest) :
      Gap after (c :: rest)
  | comment {body rest : List Char} (hbody : '\n' ∉ body)
      (hend : ∀ c ∈ (rest ++ after).head?, c = '\n') (h : Gap after rest) :
      Gap after ('#' :: (body ++ rest))

theorem mem_of_isGapChar {c : Char} (h : isGapChar c = true) : c ∈ [' ', '\t', '\r'] := by
  simp only [isGapChar, Bool.or_eq_true, decide_eq_true_eq] at h
  rcases h with (rfl | rfl) | rfl
  · simp
  · simp
  · simp

/-- `gapLength` of a comment reaches up to the end of its line. -/
theorem Cursor.gapLength_comment (rest : List Char) :
    gapLength ('#' :: rest) = (rest.takeWhile (· != '\n')).length + 1 := by
  show 0 + 1 + _ = _
  omega

/-- `Gap` holds of what is skipped. -/
theorem gap_take (text : List Char) :
    Gap (text.drop (Cursor.gapLength text)) (text.take (Cursor.gapLength text)) := by
  induction text with
  | nil => exact .nil
  | cons c rest ih =>
    by_cases hblank : isGapChar c = true
    · rw [Cursor.gapLength_blank hblank, List.take_succ_cons, List.drop_succ_cons]
      exact .blank (mem_of_isGapChar hblank) ih
    · by_cases hcomment : c = '#'
      · -- a comment takes the whole line, so a gap ends with it
        subst hcomment
        rw [Cursor.gapLength_comment, List.take_succ_cons, List.drop_succ_cons, Text.take_run,
          Text.drop_run, ← List.append_nil (rest.takeWhile _)]
        refine .comment ?_ ?_ .nil
        · intro hmem
          exact absurd (List.mem_takeWhile_imp hmem) (by decide)
        · intro d hd
          simpa using Text.head_dropWhile d hd
      · rw [Cursor.gapLength_of_first (by simpa using hblank) hcomment]
        exact .nil

/-- `gapLength` leaves nothing behind that belongs to the gap. -/
theorem gap_ended (text : List Char) :
    ∀ c ∈ (text.drop (Cursor.gapLength text)).head?, c ∉ [' ', '\t', '\r', '#'] := by
  induction text with
  | nil => exact fun c hc => nomatch hc
  | cons c rest ih =>
    by_cases hblank : isGapChar c = true
    · rw [Cursor.gapLength_blank hblank, List.drop_succ_cons]
      exact ih
    · by_cases hcomment : c = '#'
      · subst hcomment
        rw [Cursor.gapLength_comment, List.drop_succ_cons, Text.drop_run]
        intro d hd
        have hfeed : d = '\n' := by simpa using Text.head_dropWhile d hd
        subst hfeed
        decide
      · rw [Cursor.gapLength_of_first (by simpa using hblank) hcomment, List.drop_zero]
        rintro d hd
        cases hd
        simp only [isGapChar, Bool.or_eq_true, decide_eq_true_eq] at hblank
        simp only [List.mem_cons, List.not_mem_nil, or_false]
        tauto

/-! ## Spellings -/

/-- `keywords`: the four keywords and their kinds. -/
def keywords : List (String × TokenKind) :=
  [("exit", .exitWord), ("for", .forWord), ("in", .inWord), ("endfor", .endforWord)]

/-- `marks`: what may stand in front of the digits of a base. -/
def Base.marks : Base → List (List Char)
  | binary => [['0', 'b'], ['0', 'B']]
  | decimal => [[]]
  | hexadecimal => [['0', 'x'], ['0', 'X']]

/-- `Spelling lexeme kind value`: how a token is spelled. -/
inductive Spelling : List Char → TokenKind → Datum → Prop where
  | separator {c : Char} (hc : c ∈ ['\n', ';']) : Spelling [c] .newline (.text (String.singleton c))
  | sign {c : Char} {kind : TokenKind} (hc : (c, kind) ∈ signs) :
      Spelling [c] kind (.text (String.singleton c))
  | keyword {word : String} {kind : TokenKind} (hword : (word, kind) ∈ keywords) :
      Spelling word.toList kind (.text word)
  | name {word : String} (hword : IsIdentifier word) : Spelling word.toList .identifier (.text word)
  | number {base : Base} {mark digits : List Char} (hmark : mark ∈ base.marks)
      (hdigits : ∀ c ∈ digits, base.isDigit c = true) (hne : digits ≠ []) :
      Spelling (mark ++ digits) .number (.int (Text.ofDigits base.size digits))

/-- `StandsAt lexeme after kind value`: the spelling of a token in front of `after`; a word or a number is
    followed by nothing that it could go on with. -/
structure StandsAt (lexeme after : List Char) (kind : TokenKind) (value : Datum) : Prop where
  spelled : Spelling lexeme kind value
  apart : (∀ c ∈ lexeme, isWordChar c = true) → Apart after

/-- `StartsNone text`: no token starts the text. -/
def StartsNone (text : List Char) : Prop :=
  ∀ lexeme after kind value, text = lexeme ++ after → ¬StandsAt lexeme after kind value

theorem TokenKind.ofWord_of_mem_keywords {word : String} {kind : TokenKind}
    (h : (word, kind) ∈ keywords) : IsWord word ∧ TokenKind.ofWord word = kind := by
  simp only [keywords, List.mem_cons, List.not_mem_nil, or_false, Prod.mk.injEq] at h
  rcases h with ⟨rfl, rfl⟩ | ⟨rfl, rfl⟩ | ⟨rfl, rfl⟩ | ⟨rfl, rfl⟩
  · exact ⟨isWord_exit, rfl⟩
  · exact ⟨isWord_for, rfl⟩
  · exact ⟨isWord_in, rfl⟩
  · exact ⟨isWord_endfor, rfl⟩

/-- `Spelling` of a word is that of a keyword if it is one, and of a name otherwise. -/
theorem spelling_of_isWord {word : String} (h : IsWord word) :
    Spelling word.toList (TokenKind.ofWord word) (.text word) := by
  by_cases hname : word ∈ ["exit", "for", "in", "endfor"]
  · simp only [List.mem_cons, List.not_mem_nil, or_false] at hname
    rcases hname with rfl | rfl | rfl | rfl
    all_goals exact .keyword (by simp [keywords, TokenKind.ofWord])
  · have hident : IsIdentifier word := ⟨h, hname⟩
    rw [TokenKind.ofWord_of_isIdentifier hident]
    exact .name hident

/-- `signs` are no words, no numbers and no separators. -/
theorem sign_excludes {c : Char} {kind : TokenKind} (h : (c, kind) ∈ signs) :
    isWordChar c = false ∧ isWordStart c = false ∧ c.isDigit = false ∧ ¬(c = '\n' ∨ c = ';') := by
  have hall : ∀ sign ∈ signs, isWordChar sign.1 = false ∧ isWordStart sign.1 = false ∧
      sign.1.isDigit = false ∧ ¬(sign.1 = '\n' ∨ sign.1 = ';') := by
    simp only [signs, List.forall_mem_cons]
    decide
  exact hall (c, kind) h

/-! ## One token -/

/-- `Base.split` gives the mark of the base and what comes behind the mark. -/
theorem Base.split_spec {text body : List Char} {base : Base} (h : Base.split text = (base, body)) :
    ∃ mark ∈ base.marks, text = mark ++ body ∧ mark.length = base.markLength := by
  unfold Base.split at h
  split at h
  next rest => cases h; exact ⟨['0', 'x'], by simp [marks], rfl, rfl⟩
  next rest => cases h; exact ⟨['0', 'X'], by simp [marks], rfl, rfl⟩
  next rest => cases h; exact ⟨['0', 'b'], by simp [marks], rfl, rfl⟩
  next rest => cases h; exact ⟨['0', 'B'], by simp [marks], rfl, rfl⟩
  next => cases h; exact ⟨[], by simp [marks], rfl, rfl⟩

/-- `scanNumber` takes the mark of a number and its digits. -/
theorem standsAt_of_scanNumber {text : List Char} {lexeme : Lexeme}
    (h : scanNumber text = .ok lexeme) :
    StandsAt (text.take lexeme.length) (text.drop lexeme.length) lexeme.kind lexeme.value := by
  unfold scanNumber at h
  split at h
  next base body hsplit =>
  obtain ⟨mark, hmark, rfl, hlength⟩ := Base.split_spec hsplit
  dsimp only at h
  split at h
  next => cases h
  next hnext =>
    split at h
    next => cases h
    next hne =>
      split at h
      next => cases h
      next =>
        cases h
        show StandsAt ((mark ++ body).take (base.markLength + (body.takeWhile base.isDigit).length))
          ((mark ++ body).drop (base.markLength + (body.takeWhile base.isDigit).length)) .number
          (.int (Text.ofDigits base.size (body.takeWhile base.isDigit)))
        rw [← hlength, List.take_length_add_append, List.drop_length_add_append, Text.take_run,
          Text.drop_run]
        refine ⟨.number hmark (fun c hc => List.mem_takeWhile_imp hc) ?_, fun _ c hc => ?_⟩
        · rintro hnil
          exact hne (by rw [hnil]; rfl)
        · -- no word character follows the digits
          rw [hc] at hnext
          simpa using hnext

/-- `scan` takes a spelling of the token that it gives. -/
theorem standsAt_of_scan {first : Char} {rest : List Char} {lexeme : Lexeme}
    (h : scan first rest = .ok lexeme) :
    StandsAt ((first :: rest).take lexeme.length) ((first :: rest).drop lexeme.length) lexeme.kind
      lexeme.value := by
  unfold scan at h
  dsimp only at h
  split at h
  next hend =>
    cases h
    refine ⟨.separator (by simpa using hend), fun hword => ?_⟩
    -- neither of the two is a word character
    have hfirst := hword first (by simp)
    rcases hend with rfl | rfl
    · exact absurd hfirst (by decide)
    · exact absurd hfirst (by decide)
  next =>
    split at h
    next => exact standsAt_of_scanNumber h
    next =>
      split at h
      next hstart =>
        cases h
        show StandsAt ((first :: rest).take (1 + _)) ((first :: rest).drop (1 + _)) _ _
        rw [Nat.add_comm, List.take_succ_cons, List.drop_succ_cons, Text.take_run, Text.drop_run]
        refine ⟨?_, fun _ => Text.head_dropWhile⟩
        have hword : IsWord (String.ofList (first :: rest.takeWhile isWordChar)) :=
          ⟨first, _, String.toList_ofList, hstart, fun c hc => List.mem_takeWhile_imp hc⟩
        have hspelled := spelling_of_isWord hword
        rw [String.toList_ofList] at hspelled
        exact hspelled
      next =>
        split at h
        next kind hkind =>
          cases h
          have hsign := TokenKind.ofSign?_eq_some_iff.mp hkind
          refine ⟨.sign hsign, fun hword => ?_⟩
          have hfirst := hword first (by simp)
          rw [(sign_excludes hsign).1] at hfirst
          cases hfirst
        next => cases h

/-- `Base.split` of a number gives its mark and what comes behind the mark. -/
theorem Base.split_marked {base : Base} {mark digits after : List Char} (hmark : mark ∈ base.marks)
    (hdigits : ∀ c ∈ digits, base.isDigit c = true) (hapart : Apart after) :
    Base.split (mark ++ (digits ++ after)) = (base, digits ++ after) := by
  cases base with
  | decimal =>
    obtain rfl := List.mem_singleton.mp hmark
    rw [List.nil_append]
    exact Base.split_digits hdigits hapart
  | binary | hexadecimal =>
    simp only [Base.marks, List.mem_cons, List.not_mem_nil, or_false] at hmark
    rcases hmark with rfl | rfl
    · rfl
    · rfl

/-- `isDigit` holds of the first character of a number: that of its mark, or the first one of its digits. -/
theorem Base.isDigit_of_marked {base : Base} {mark digits rest : List Char} {first : Char}
    (hmark : mark ∈ base.marks) (hdigits : ∀ c ∈ digits, base.isDigit c = true)
    (hfirst : mark ++ digits = first :: rest) : first.isDigit = true := by
  cases base with
  | decimal =>
    obtain rfl := List.mem_singleton.mp hmark
    rw [List.nil_append] at hfirst
    exact hdigits first (by simp [hfirst])
  | binary | hexadecimal =>
    simp only [Base.marks, List.mem_cons, List.not_mem_nil, or_false] at hmark
    rcases hmark with rfl | rfl
    · cases hfirst
      rfl
    · cases hfirst
      rfl

/-- `scan` takes a number where it is spelled, unless it has too many digits. -/
theorem scan_of_number {base : Base} {mark digits after : List Char} {first : Char} {rest : List Char}
    (hmark : mark ∈ base.marks) (hdigits : ∀ c ∈ digits, base.isDigit c = true) (hne : digits ≠ [])
    (hapart : Apart after) (htext : first :: rest = mark ++ digits ++ after) :
    (∃ lexeme, scan first rest = .ok lexeme) ∨ ∃ n, scan first rest = .error (.unreadable n) := by
  obtain ⟨d, more, hspelled⟩ := List.exists_cons_of_ne_nil (List.append_ne_nil_of_right_ne_nil mark hne)
  have hdigit : first.isDigit = true := by
    rw [hspelled] at htext
    obtain ⟨rfl, -⟩ := List.cons.inj htext
    exact Base.isDigit_of_marked hmark hdigits hspelled
  rw [scan_of_isDigit hdigit, htext, List.append_assoc,
    scanNumber_run (Base.split_marked hmark hdigits hapart) hdigits hapart hne]
  split
  · exact .inr ⟨_, rfl⟩
  · exact .inl ⟨_, rfl⟩

/-- `isWordChar` holds of every mark and every digit, so a number is made of these. -/
theorem isWordChar_number {base : Base} {mark digits : List Char} (hmark : mark ∈ base.marks)
    (hdigits : ∀ c ∈ digits, base.isDigit c = true) : ∀ c ∈ mark ++ digits, isWordChar c = true := by
  intro c hc
  rcases List.mem_append.mp hc with hc | hc
  · have hall : ∀ m ∈ base.marks, m.all isWordChar = true := by cases base <;> decide
    exact List.all_eq_true.mp (hall mark hmark) c hc
  · exact Base.isWordChar_of_isDigit (hdigits c hc)

theorem isWordChar_of_isWordStart {c : Char} (h : isWordStart c = true) : isWordChar c = true := by
  simp only [isWordStart, isWordChar, Char.isAlphanum, Bool.or_eq_true] at h ⊢
  exact h.imp_left .inl

/-- `scan` takes a token where a word is spelled. -/
theorem scan_of_isWord {word : String} {after : List Char} {first : Char} {rest : List Char}
    (hword : IsWord word) (hapart : (∀ c ∈ word.toList, isWordChar c = true) → Apart after)
    (htext : first :: rest = word.toList ++ after) : ∃ lexeme, scan first rest = .ok lexeme := by
  obtain ⟨start, more, hspelled, hstart, hmore⟩ := hword
  have hchars : ∀ c ∈ word.toList, isWordChar c = true := by
    rw [hspelled]
    exact List.forall_mem_cons.mpr ⟨isWordChar_of_isWordStart hstart, hmore⟩
  have hscan := scan_word hspelled hstart hmore (hapart hchars)
  rw [hspelled] at htext
  obtain ⟨rfl, rfl⟩ := List.cons.inj htext
  exact ⟨_, hscan⟩

/-- `scan` takes a token where one is spelled, unless it is a number with too many digits. -/
theorem scan_of_standsAt {lexeme after : List Char} {kind : TokenKind} {value : Datum} {first : Char}
    {rest : List Char} (htext : first :: rest = lexeme ++ after) (h : StandsAt lexeme after kind value) :
    (∃ found, scan first rest = .ok found) ∨ ∃ n, scan first rest = .error (.unreadable n) := by
  obtain ⟨hspelled, hapart⟩ := h
  cases hspelled with
  | separator hc =>
    obtain ⟨rfl, -⟩ := List.cons.inj htext
    left
    unfold scan
    rw [if_pos (by simpa using hc)]
    exact ⟨_, rfl⟩
  | sign hc =>
    obtain ⟨rfl, -⟩ := List.cons.inj htext
    obtain ⟨-, hstart, hdigit, hend⟩ := sign_excludes hc
    left
    unfold scan
    rw [if_neg hend, hdigit, if_neg Bool.false_ne_true, hstart, if_neg Bool.false_ne_true,
      TokenKind.ofSign?_eq_some_iff.mpr hc]
    exact ⟨_, rfl⟩
  | keyword hword =>
    exact .inl (scan_of_isWord (TokenKind.ofWord_of_mem_keywords hword).1 hapart htext)
  | name hword => exact .inl (scan_of_isWord hword.spelled hapart htext)
  | number hmark hdigits hne =>
    exact scan_of_number hmark hdigits hne (hapart (isWordChar_number hmark hdigits)) htext

/-- `StartsNone` where `scan` ends with a diagnostic. -/
theorem startsNone_of_scan {first : Char} {rest : List Char} {cause : Cause}
    (h : scan first rest = .error (.report cause none)) : StartsNone (first :: rest) := by
  intro lexeme after kind value htext hstands
  rcases scan_of_standsAt htext hstands with ⟨found, hfound⟩ | ⟨n, hlong⟩
  · cases h.symm.trans hfound
  · cases h.symm.trans hlong

/-! ## Places -/

/-- `placeBehind file before`: the place behind some text; lines end with line feeds, and both numbers count
    from one. -/
def placeBehind (file : String) (before : List Char) : Location :=
  ⟨file, 1 + before.count '\n', 1 + (before.rtakeWhile (· != '\n')).length⟩

example : placeBehind "f" ['x', '\n', ' ', 'y'] = ⟨"f", 2, 3⟩ := rfl

namespace Cursor

/-- `c.IsBehind before`: the cursor has read `before`. -/
structure IsBehind (c : Cursor) (before : List Char) : Prop where
  line : c.line = 1 + before.count '\n'
  column : c.column = 1 + (before.rtakeWhile (· != '\n')).length

theorem isBehind_start (text : List Char) : (start text).IsBehind [] := ⟨rfl, rfl⟩

/-- `location` of a cursor is `placeBehind` what it has read. -/
theorem IsBehind.location_eq {c : Cursor} {before : List Char} (h : c.IsBehind before)
    (file : String) : c.location file = placeBehind file before := by
  unfold location placeBehind
  rw [h.line, h.column]
  rfl

/-- `advance` does nothing at the end. -/
theorem advance_nil {c : Cursor} (h : c.rest = []) : c.advance = c := by
  unfold advance
  rw [h]

/-- `advance` past a line feed starts a line. -/
theorem advance_lineFeed {c : Cursor} {rest : List Char} (h : c.rest = '\n' :: rest) :
    c.advance = ⟨rest, rest, c.line + 1, 1⟩ := by
  unfold advance
  rw [h]
  rfl

/-- `advance` past any other character goes on with the line. -/
theorem advance_of_ne {c : Cursor} {rest : List Char} {x : Char} (h : c.rest = x :: rest)
    (hx : x ≠ '\n') : c.advance = ⟨rest, c.row, c.line, c.column + 1⟩ := by
  unfold advance
  rw [h]
  split
  next heq => cases heq
  next heq => cases heq; exact absurd rfl hx
  next heq => cases heq; rfl

/-- `IsBehind` is kept by `advance`. -/
theorem IsBehind.advance {c : Cursor} {before rest : List Char} {x : Char} (h : c.IsBehind before)
    (hrest : c.rest = x :: rest) : c.advance.IsBehind (before ++ [x]) := by
  by_cases hx : x = '\n'
  · subst hx
    rw [advance_lineFeed hrest]
    constructor
    · show c.line + 1 = _
      rw [h.line, List.count_append]
      rfl
    · rw [List.rtakeWhile_concat_neg _ _ _ (by decide)]
      rfl
  · rw [advance_of_ne hrest hx]
    constructor
    · show c.line = _
      rw [h.line, List.count_append, List.count_singleton, if_neg (by simpa using hx)]
      rfl
    · show c.column + 1 = _
      rw [h.column, List.rtakeWhile_concat_pos _ _ _ (by simpa using hx), List.length_append]
      rfl

/-- `IsBehind` is kept by `advanceBy`. -/
theorem IsBehind.advanceBy {c : Cursor} {before : List Char} (h : c.IsBehind before) (n : Nat) :
    (c.advanceBy n).IsBehind (before ++ c.rest.take n) := by
  induction n generalizing c before with
  | zero =>
    rw [List.take_zero, List.append_nil]
    exact h
  | succ n ih =>
    rw [Cursor.advanceBy]
    cases hrest : c.rest with
    | nil =>
      have hbehind := ih h
      rw [hrest, List.take_nil] at hbehind
      rw [advance_nil hrest, List.take_nil]
      exact hbehind
    | cons x rest =>
      have hbehind := ih (h.advance hrest)
      rw [rest_advance, hrest, List.drop_one, List.tail_cons, List.append_assoc] at hbehind
      exact hbehind

end Cursor

/-! ## All tokens -/

/-- `Placed`: a token with its spelling and the gap in front of it. -/
structure Placed where
  gap : List Char
  lexeme : List Char
  token : Token

/-- `p.chars`: the text of a token and of the gap in front of it. -/
def Placed.chars (p : Placed) : List Char := p.gap ++ p.lexeme

/-- `p.Sits file before after`: the token stands where it says, between the text before its gap and the text
    behind its spelling. -/
structure Placed.Sits (file : String) (before after : List Char) (p : Placed) : Prop where
  gap : Gap (p.lexeme ++ after) p.gap
  stands : StandsAt p.lexeme after p.token.kind p.token.value
  place : p.token.location = placeBehind file (before ++ p.gap)

/-- `Decomposes file before text pieces gap rest`: a text behind `before` comes apart into tokens with their
    gaps, one more gap, and a rest. -/
structure Decomposes (file : String) (before text : List Char) (pieces : List Placed)
    (gap rest : List Char) : Prop where
  whole : text = pieces.flatMap Placed.chars ++ (gap ++ rest)
  sits : ∀ left p right, pieces = left ++ p :: right →
    p.Sits file (before ++ left.flatMap Placed.chars) (right.flatMap Placed.chars ++ (gap ++ rest))
  gap : Gap rest gap
  ended : ∀ c ∈ rest.head?, c ∉ [' ', '\t', '\r', '#']

/-- `Ends file before rest tokens lexed`: how reading ends behind `before`, when these tokens were read and
    this text is left. -/
inductive Ends (file : String) (before rest : List Char) (tokens : List Token) : Lexed → Prop where
  /-- Nothing is left, and a last token marks the end. -/
  | finished {final : Token} (hrest : rest = []) (hkind : final.kind = .endOfFile)
      (hvalue : final.value = .none) (hplace : final.location = placeBehind file before) :
      Ends file before rest tokens ⟨tokens ++ [final], none⟩
  /-- Something is left that no token starts. -/
  | refused {d : Diagnostic} (hrest : rest ≠ []) (hnone : StartsNone rest)
      (hplace : d.location = some (.known (placeBehind file before))) :
      Ends file before rest tokens ⟨tokens, some (.diagnostic d)⟩
  /-- A decimal number is left that has too many digits. -/
  | overlong {n : Nat} (hlong : StartsLong rest n) :
      Ends file before rest tokens ⟨tokens, some (.unreadable n)⟩

section Pieces

variable {file : String} {before gap rest : List Char} {pieces : List Placed}

/-- `Decomposes` with nothing but a gap before the rest. -/
theorem decomposes_gap (file : String) (before text : List Char) :
    Decomposes file before text [] (text.take (Cursor.gapLength text))
      (text.drop (Cursor.gapLength text)) where
  whole := (List.take_append_drop _ text).symm
  sits left p right heq := by simp at heq
  gap := gap_take text
  ended := gap_ended text

/-- `Decomposes` with one more token in front. -/
theorem Decomposes.cons {after : List Char} {p : Placed} (hp : p.Sits file before after)
    (h : Decomposes file (before ++ p.chars) after pieces gap rest) :
    Decomposes file before (p.chars ++ after) (p :: pieces) gap rest where
  whole := by
    rw [List.flatMap_cons, List.append_assoc, ← h.whole]
  sits := by
    intro left q right heq
    cases left with
    | nil =>
      obtain ⟨rfl, rfl⟩ := List.cons.inj heq
      rw [← h.whole, List.flatMap_nil, List.append_nil]
      exact hp
    | cons first left =>
      obtain ⟨rfl, rfl⟩ := List.cons.inj heq
      have hq := h.sits left q right rfl
      rw [List.append_assoc] at hq
      exact hq
  gap := h.gap
  ended := h.ended

theorem Ends.cons {tokens : List Token} {lexed : Lexed} (t : Token)
    (h : Ends file before rest tokens lexed) :
    Ends file before rest (t :: tokens) ⟨t :: lexed.tokens, lexed.fault⟩ := by
  cases h with
  | finished hrest hkind hvalue hplace => exact .finished hrest hkind hvalue hplace
  | refused hrest hnone hplace => exact .refused hrest hnone hplace
  | overlong hlong => exact .overlong hlong

end Pieces

/-- `lexFrom` takes the text apart from its cursor on, by induction along the reading. -/
theorem lexFrom_decomposes (file : String) (c : Cursor) {before : List Char} (h : c.IsBehind before) :
    ∃ pieces gap rest, Decomposes file before c.rest pieces gap rest ∧
      Ends file (before ++ (pieces.flatMap Placed.chars ++ gap)) rest (pieces.map Placed.token)
        (lexFrom file c) := by
  induction c using lexFrom.induct file generalizing before with
  | case1 c hrest =>
    have hbehind := h.advanceBy (Cursor.gapLength c.rest)
    refine ⟨[], _, _, decomposes_gap file before c.rest, ?_⟩
    rw [lexFrom_end hrest, ← Cursor.rest_skipGap, hrest]
    exact .finished rfl rfl rfl (hbehind.location_eq file)
  | case2 c first rest hrest fault hscan =>
    have hbehind := h.advanceBy (Cursor.gapLength c.rest)
    refine ⟨[], _, _, decomposes_gap file before c.rest, ?_⟩
    rw [lexFrom_error hrest hscan, ← Cursor.rest_skipGap, hrest]
    -- a diagnostic is placed where the cursor stands
    rcases fault_of_scan hscan with ⟨cause, -, rfl⟩ | ⟨n, rfl⟩
    · exact .refused (by simp) (startsNone_of_scan hscan)
        (congrArg (some ∘ Origin.known) (hbehind.location_eq file))
    · exact .overlong (scan_eq_unreadable_iff.mp hscan)
  | case3 c first rest hrest lexeme hscan hlt ih =>
    have hbehind := h.advanceBy (Cursor.gapLength c.rest)
    rw [lexFrom_token hrest hscan]
    let t : Token := ⟨lexeme.kind, lexeme.value, c.skipGap.line, c.skipGap.column, file⟩
    let p : Placed :=
      ⟨c.rest.take (Cursor.gapLength c.rest), (first :: rest).take lexeme.length, t⟩
    have hdrop : c.rest.drop (Cursor.gapLength c.rest) = first :: rest := by
      rw [← Cursor.rest_skipGap, hrest]
    have hsits : p.Sits file before ((first :: rest).drop lexeme.length) := by
      refine ⟨?_, standsAt_of_scan hscan, hbehind.location_eq file⟩
      show Gap ((first :: rest).take lexeme.length ++ (first :: rest).drop lexeme.length) p.gap
      rw [List.take_append_drop, ← hdrop]
      exact gap_take c.rest
    have hchars : p.chars ++ (first :: rest).drop lexeme.length = c.rest := by
      show p.gap ++ (first :: rest).take lexeme.length ++ (first :: rest).drop lexeme.length = c.rest
      rw [List.append_assoc, List.take_append_drop, ← hdrop]
      exact List.take_append_drop _ c.rest
    -- reading goes on behind the spelling
    have hnext : (c.skipGap.advanceBy lexeme.length).IsBehind (before ++ p.chars) := by
      have hboth := hbehind.advanceBy lexeme.length
      rw [Cursor.rest_advanceBy, hdrop, List.append_assoc] at hboth
      exact hboth
    obtain ⟨pieces, gap, left, hdecomposes, hends⟩ := ih hnext
    rw [Cursor.rest_advanceBy, hrest] at hdecomposes
    refine ⟨p :: pieces, gap, left, ?_, ?_⟩
    · rw [← hchars]
      exact hdecomposes.cons hsits
    · have hall := hends.cons t
      rw [List.append_assoc, ← List.append_assoc p.chars] at hall
      exact hall

/-- The lexer loses nothing and places every token exactly.  The text comes apart into the spellings of
    the tokens that are read and the gaps between them; each token is placed where its spelling starts, the
    end behind all of the text, and a diagnostic where no spelling starts. -/
theorem lex_decomposes (source file : String) :
    ∃ pieces gap rest, Decomposes file [] source.toList pieces gap rest ∧
      Ends file (pieces.flatMap Placed.chars ++ gap) rest (pieces.map Placed.token)
        (lex source file) :=
  lexFrom_decomposes file (.start source.toList) (Cursor.isBehind_start source.toList)

end ZebLang
