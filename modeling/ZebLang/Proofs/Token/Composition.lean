/-
  Texts put together from tokens.

  A text that is put together from words, numbers and signs is taken apart into these, whatever file it
  stands in and wherever there (`Lexes`).  Each piece is put in front of a text for which that is known,
  so that a text is built from its end.
-/

import ZebLang.Proofs.Token.Lexing

namespace ZebLang

/-! ## Gaps -/

/-- `gapLength` grows by a blank in front. -/
theorem Cursor.gapLength_blank {c : Char} (hc : isGapChar c = true) (rest : List Char) :
    gapLength (c :: rest) = gapLength rest + 1 := by
  unfold gapLength
  rw [List.takeWhile_cons_of_pos hc, List.dropWhile_cons_of_pos hc]
  dsimp only
  split
  · rw [List.length_cons]
    omega
  · rfl

/-- `gapLength` is zero in front of a token. -/
theorem Cursor.gapLength_of_first {first : Char} (hgap : isGapChar first = false)
    (hcomment : first ≠ '#') (rest : List Char) : gapLength (first :: rest) = 0 := by
  unfold gapLength
  rw [List.takeWhile_cons_of_neg (by simp [hgap]), List.dropWhile_cons_of_neg (by simp [hgap])]
  dsimp only
  split
  next heq =>
    cases heq
    exact absurd rfl hcomment
  next => rfl

/-! ## Texts -/

/-- `t.content`: what a token is, apart from its place. -/
def Token.content (t : Token) : TokenKind × Datum := (t.kind, t.value)

/-- `Lexes text contents`: wherever this text is left to read, tokens of these contents are read. -/
def Lexes (text : List Char) (contents : List (TokenKind × Datum)) : Prop :=
  ∀ (file : String) (c : Cursor), c.rest = text →
    (lexFrom file c).fault = none ∧ (lexFrom file c).tokens.map Token.content = contents

/-- `lexFrom` depends on what comes past the gap. -/
theorem lexFrom_congr {file : String} {c c' : Cursor} (h : c.skipGap = c'.skipGap) :
    lexFrom file c = lexFrom file c' := by
  cases hrest : c.skipGap.rest with
  | nil =>
    have hrest' : c'.skipGap.rest = [] := h ▸ hrest
    rw [lexFrom_end hrest, lexFrom_end hrest', h]
  | cons first rest =>
    have hrest' : c'.skipGap.rest = first :: rest := h ▸ hrest
    cases hscan : scan first rest with
    | error fault => rw [lexFrom_error hrest hscan, lexFrom_error hrest' hscan, h]
    | ok lexeme =>
      have hleft := @lexFrom_token file c first rest lexeme hrest hscan
      have hright := @lexFrom_token file c' first rest lexeme hrest' hscan
      rw [hleft, hright, h]

namespace Lexes

variable {contents : List (TokenKind × Datum)} {rest : List Char}

theorem nil : Lexes [] [(.endOfFile, .none)] := by
  intro file c hc
  have hrest : c.skipGap.rest = [] := by rw [Cursor.rest_skipGap, hc, List.drop_nil]
  rw [lexFrom_end hrest]
  exact ⟨rfl, rfl⟩

/-- `Lexes` with a blank in front, which belongs to the gap. -/
theorem blank (h : Lexes rest contents) : Lexes (' ' :: rest) contents := by
  intro file c hc
  have hadvance : c.advance.rest = rest := by rw [Cursor.rest_advance, hc, List.drop_one, List.tail_cons]
  have hskip : c.skipGap = c.advance.skipGap := by
    unfold Cursor.skipGap
    rw [hadvance, hc, Cursor.gapLength_blank rfl, Cursor.advanceBy]
  rw [lexFrom_congr hskip]
  exact h file c.advance hadvance

/-- `Lexes` with a token in front, with no gap before it. -/
theorem token {first : Char} (lexeme : Lexeme) (hgap : isGapChar first = false)
    (hcomment : first ≠ '#') (hscan : scan first rest = .ok lexeme)
    (h : Lexes ((first :: rest).drop lexeme.length) contents) :
    Lexes (first :: rest) ((lexeme.kind, lexeme.value) :: contents) := by
  intro file c hc
  have hskip : c.skipGap = c := by
    unfold Cursor.skipGap
    rw [hc, Cursor.gapLength_of_first hgap hcomment, Cursor.advanceBy]
  rw [lexFrom_token (by rw [hskip, hc]) hscan, hskip]
  obtain ⟨hfault, htokens⟩ := h file (c.advanceBy lexeme.length) (by rw [Cursor.rest_advanceBy, hc])
  exact ⟨hfault, by rw [List.map_cons, htokens]; rfl⟩

/-- `Lexes` with a line feed in front. -/
theorem lineFeed (h : Lexes rest contents) :
    Lexes ('\n' :: rest) ((.newline, .text "\n") :: contents) :=
  token ⟨.newline, .text "\n", 1, Nat.one_pos⟩ rfl (by decide) rfl h

/-- `Lexes` with a sign in front. -/
theorem sign {c : Char} {kind : TokenKind} (hgap : isGapChar c = false) (hcomment : c ≠ '#')
    (hscan : ∀ rest, scan c rest = .ok ⟨kind, .text (String.singleton c), 1, Nat.one_pos⟩)
    (h : Lexes rest contents) :
    Lexes (c :: rest) ((kind, .text (String.singleton c)) :: contents) :=
  token ⟨kind, .text (String.singleton c), 1, Nat.one_pos⟩ hgap hcomment (hscan rest) h

theorem opening (h : Lexes rest contents) :
    Lexes ('(' :: rest) ((.leftParen, .text "(") :: contents) :=
  sign rfl (by decide) (fun _ => rfl) h

theorem closing (h : Lexes rest contents) :
    Lexes (')' :: rest) ((.rightParen, .text ")") :: contents) :=
  sign rfl (by decide) (fun _ => rfl) h

/-- `Lexes` with a word in front. -/
theorem word {w : String} (hw : IsWord w) (hapart : Apart rest) (h : Lexes rest contents) :
    Lexes (w.toList ++ rest) ((.ofWord w, .text w) :: contents) := by
  obtain ⟨first, more, hspelled, hfirst, hmore⟩ := hw
  obtain ⟨-, hgap, hcomment, -⟩ := isWordStart_excludes hfirst
  rw [hspelled, List.cons_append]
  refine token _ hgap hcomment (scan_word hspelled hfirst hmore hapart) ?_
  show Lexes ((first :: (more ++ rest)).drop (1 + more.length)) contents
  rw [Nat.add_comm, List.drop_succ_cons, List.drop_left]
  exact h

/-- `Lexes` with a number in front: digits behind the mark of their base, not too many to be read. -/
theorem number_run (base : Base) {first : Char} {text digits : List Char} (hfirst : first.isDigit = true)
    (hsplit : Base.split (first :: text) = (base, digits ++ rest))
    (hlength : (first :: text).drop (base.markLength + digits.length) = rest)
    (hdigits : ∀ c ∈ digits, base.isDigit c = true) (hapart : Apart rest) (hne : digits ≠ [])
    (hread : ¬(base = .decimal ∧ Text.digitLimit < digits.length)) (h : Lexes rest contents) :
    Lexes (first :: text) ((.number, .int (Text.ofDigits base.size digits)) :: contents) := by
  obtain ⟨hgap, hcomment, -⟩ := isDigit_excludes hfirst
  have hscan := (scan_of_isDigit hfirst text).trans (scanNumber_run hsplit hdigits hapart hne)
  rw [if_neg hread] at hscan
  refine token _ hgap hcomment hscan ?_
  rw [hlength]
  exact h

/-- `Lexes` with a decimal number in front. -/
theorem number {n : Nat} (hn : (Nat.toDigits 10 n).length ≤ Text.digitLimit) (hapart : Apart rest)
    (h : Lexes rest contents) :
    Lexes (Nat.toDigits 10 n ++ rest) ((.number, .int n) :: contents) := by
  have hdigits := Text.isDigit_toDigits n
  obtain ⟨first, more, hcons⟩ := List.exists_cons_of_ne_nil (@Nat.toDigits_ne_nil n 10)
  have htext : Nat.toDigits 10 n ++ rest = first :: (more ++ rest) := by rw [hcons, List.cons_append]
  have hfirst : first.isDigit = true := hdigits first (by simp [hcons])
  have hsplit : Base.split (first :: (more ++ rest)) = (.decimal, Nat.toDigits 10 n ++ rest) := by
    rw [← htext]
    exact Base.split_digits hdigits hapart
  have hdrop : (first :: (more ++ rest)).drop (0 + (Nat.toDigits 10 n).length) = rest := by
    rw [← htext, Nat.zero_add, List.drop_left]
  have hall := number_run .decimal hfirst hsplit hdrop hdigits hapart Nat.toDigits_ne_nil
    (fun hlong => absurd hn (Nat.not_le.mpr hlong.2)) h
  rw [show Base.decimal.size = 10 from rfl, Text.ofDigits_toDigits] at hall
  rw [htext]
  exact hall

/-- `Lexes` with a hexadecimal number in front.  It may have any number of digits. -/
theorem hexadecimal {digits : List Char} (hdigits : ∀ c ∈ digits, Base.isDigit .hexadecimal c = true)
    (hne : digits ≠ []) (hapart : Apart rest) (h : Lexes rest contents) :
    Lexes ('0' :: 'x' :: (digits ++ rest)) ((.number, .int (Text.ofDigits 16 digits)) :: contents) := by
  have hdrop : ('0' :: 'x' :: (digits ++ rest)).drop (2 + digits.length) = rest := by
    rw [Nat.add_comm, List.drop_succ_cons, List.drop_succ_cons, List.drop_left]
  exact number_run .hexadecimal rfl rfl hdrop hdigits hapart hne (fun hlong => nomatch hlong.1) h

end Lexes

end ZebLang
