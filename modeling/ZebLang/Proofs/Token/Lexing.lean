/-
  All tokens of a text.

  Reading goes from gap to token: past the gap there is nothing left, or no token, or a token with the
  rest of the text behind it.  These three (`lexFrom_end`, `lexFrom_error`, `lexFrom_token`) say all that
  a step can do, and what follows is proved from them along the reading.

  1. Without a fault the last token, and no other, marks the end; so the tokens are those of a source
     text in the sense of the grammar.
  2. A fault is a diagnostic of grammar at a place, or a number with too many digits to be read; and
     that it is just if reading comes to such a number (`Leads`).
-/

import ZebLang.Proofs.Token.Scanning

namespace ZebLang

/-! ## Steps -/

section Steps

variable {file : String} {c : Cursor} {first : Char} {rest : List Char}

/-- `lexFrom` where nothing is left. -/
theorem lexFrom_end (h : c.skipGap.rest = []) :
    lexFrom file c = ⟨[⟨.endOfFile, .none, c.skipGap.line, c.skipGap.column, file⟩], none⟩ := by
  rw [lexFrom]
  split
  next => rfl
  next heq =>
    rw [h] at heq
    cases heq

/-- `lexFrom` where no token starts. -/
theorem lexFrom_error {fault : Fault} (h : c.skipGap.rest = first :: rest)
    (hscan : scan first rest = .error fault) :
    lexFrom file c = ⟨[], some (c.skipGap.placing file fault)⟩ := by
  rw [lexFrom]
  split
  next heq =>
    rw [h] at heq
    cases heq
  next heq =>
    rw [h] at heq
    cases heq
    rw [hscan]

/-- `lexFrom` takes a token, and what is read behind it. -/
theorem lexFrom_token {lexeme : Lexeme} (h : c.skipGap.rest = first :: rest)
    (hscan : scan first rest = .ok lexeme) :
    lexFrom file c =
      ⟨⟨lexeme.kind, lexeme.value, c.skipGap.line, c.skipGap.column, file⟩ ::
          (lexFrom file (c.skipGap.advanceBy lexeme.length)).tokens,
        (lexFrom file (c.skipGap.advanceBy lexeme.length)).fault⟩ := by
  rw [lexFrom]
  split
  next heq =>
    rw [h] at heq
    cases heq
  next heq =>
    rw [h] at heq
    cases heq
    rw [hscan]

end Steps

/-! ## All tokens -/

/-- `Holds` for every token that is read. -/
theorem holds_of_mem_lexFrom (file : String) (c : Cursor) :
    ∀ t ∈ (lexFrom file c).tokens, t.kind.Holds t.value := by
  induction c using lexFrom.induct file with
  | case1 c hrest =>
    rw [lexFrom_end hrest]
    simp [TokenKind.Holds, TokenKind.Carries]
  | case2 c first rest hrest fault hscan =>
    rw [lexFrom_error hrest hscan]
    exact List.forall_mem_nil _
  | case3 c first rest hrest lexeme hscan hlt ih =>
    rw [lexFrom_token hrest hscan]
    exact List.forall_mem_cons.mpr ⟨(holds_of_scan hscan).2, ih⟩

/-- `lexFrom` without a fault: the last token and no other marks the end. -/
theorem ends_of_lexFrom (file : String) (c : Cursor) (h : (lexFrom file c).fault = none) :
    ∃ body final, (lexFrom file c).tokens = body ++ [final] ∧ final.kind = .endOfFile ∧
      ∀ t ∈ body, t.kind ≠ .endOfFile := by
  induction c using lexFrom.induct file with
  | case1 c hrest =>
    rw [lexFrom_end hrest]
    exact ⟨[], _, rfl, rfl, List.forall_mem_nil _⟩
  | case2 c first rest hrest fault hscan =>
    rw [lexFrom_error hrest hscan] at h
    cases h
  | case3 c first rest hrest lexeme hscan hlt ih =>
    rw [lexFrom_token hrest hscan] at h ⊢
    obtain ⟨body, final, htokens, hfinal, hbody⟩ := ih h
    refine ⟨_ :: body, final, by rw [htokens]; rfl, hfinal, ?_⟩
    exact List.forall_mem_cons.mpr ⟨(holds_of_scan hscan).1, hbody⟩

/-- `WellLexed` holds of the tokens of a source text that can be read. -/
theorem wellLexed_of_lex {source file : String} {tokens : List Token}
    (h : (lex source file).all = .ok tokens) :
    WellLexed tokens ∧ ∀ t ∈ tokens, t.kind.Holds t.value := by
  unfold Lexed.all at h
  split at h
  next => cases h
  next hfault =>
    cases h
    have hholds := holds_of_mem_lexFrom file (.start source.toList)
    exact ⟨⟨fun t ht => (hholds t ht).1, ends_of_lexFrom file _ hfault⟩, hholds⟩

/-- `lexFrom` fails with a diagnostic of grammar at a place, or with a number that is too long. -/
theorem fault_of_lexFrom {file : String} {c : Cursor} {fault : Fault}
    (h : (lexFrom file c).fault = some fault) :
    (∃ d, fault = .diagnostic d ∧ d.cause.category = some .grammar ∧ d.location.isSome = true) ∨
      ∃ n, fault = .unreadable n := by
  induction c using lexFrom.induct file with
  | case1 c hrest =>
    rw [lexFrom_end hrest] at h
    cases h
  | case2 c first rest hrest found hscan =>
    rw [lexFrom_error hrest hscan] at h
    cases h
    -- the cursor gives a diagnostic its place
    rcases fault_of_scan hscan with ⟨cause, hcause, rfl⟩ | ⟨n, rfl⟩
    · exact .inl ⟨_, rfl, hcause, rfl⟩
    · exact .inr ⟨n, rfl⟩
  | case3 c first rest hrest lexeme hscan hlt ih =>
    rw [lexFrom_token hrest hscan] at h
    exact ih h

/-! ## Numbers that are too long -/

/-- `Leads text target`: read token by token, with the gaps before them, `text` comes down to `target`. -/
inductive Leads : List Char → List Char → Prop where
  | here (text : List Char) : Leads text (text.drop (Cursor.gapLength text))
  | token {text rest target : List Char} {first : Char} {lexeme : Lexeme}
      (hrest : text.drop (Cursor.gapLength text) = first :: rest)
      (hscan : scan first rest = .ok lexeme)
      (h : Leads ((first :: rest).drop lexeme.length) target) : Leads text target

theorem placing_eq_unreadable_iff {c : Cursor} {file : String} {fault : Fault} {n : Nat} :
    c.placing file fault = .unreadable n ↔ fault = .unreadable n := by
  cases fault <;> simp [Cursor.placing]

/-- `Leads`, where nothing is left past the gap. -/
theorem leads_iff_of_end {text target : List Char} (h : text.drop (Cursor.gapLength text) = []) :
    Leads text target ↔ target = [] := by
  constructor
  · intro hleads
    cases hleads with
    | here => exact h
    | token heq => cases h.symm.trans heq
  · rintro rfl
    rw [← h]
    exact .here text

/-- `Leads`, where something stands past the gap: to there, and past the token that stands there. -/
theorem leads_iff_of_cons {text rest target : List Char} {first : Char}
    (h : text.drop (Cursor.gapLength text) = first :: rest) :
    Leads text target ↔ target = first :: rest ∨
      ∃ lexeme, scan first rest = .ok lexeme ∧ Leads ((first :: rest).drop lexeme.length) target := by
  constructor
  · intro hleads
    cases hleads with
    | here => exact .inl h
    | @token _ _ _ _ lexeme heq hscan hleads =>
      cases h.symm.trans heq
      exact .inr ⟨lexeme, hscan, hleads⟩
  · rintro (rfl | ⟨lexeme, hscan, hleads⟩)
    · rw [← h]
      exact .here text
    · exact .token h hscan hleads

/-- `lexFrom` fails with `unreadable` just where it comes to a number that is too long. -/
theorem lexFrom_eq_unreadable_iff {file : String} {c : Cursor} {n : Nat} :
    (lexFrom file c).fault = some (.unreadable n) ↔ ∃ text, Leads c.rest text ∧ StartsLong text n := by
  induction c using lexFrom.induct file with
  | case1 c hrest =>
    rw [lexFrom_end hrest]
    rw [Cursor.rest_skipGap] at hrest
    simp only [leads_iff_of_end hrest, exists_eq_left]
    exact iff_of_false nofun not_startsLong_nil
  | case2 c first rest hrest fault hscan =>
    rw [lexFrom_error hrest hscan, Option.some_inj, placing_eq_unreadable_iff]
    rw [Cursor.rest_skipGap] at hrest
    have hstart : fault = .unreadable n ↔ StartsLong (first :: rest) n := by
      rw [← scan_eq_unreadable_iff, hscan, Except.error.injEq]
    simp only [leads_iff_of_cons hrest, hscan, reduceCtorEq, false_and, exists_false, or_false,
      exists_eq_left]
    exact hstart
  | case3 c first rest hrest lexeme hscan hlt ih =>
    rw [lexFrom_token hrest hscan]
    refine ih.trans ?_
    rw [Cursor.rest_advanceBy, hrest]
    rw [Cursor.rest_skipGap] at hrest
    -- a token starts here, so no number that is too long does
    have hshort : ¬StartsLong (first :: rest) n := by
      rw [← scan_eq_unreadable_iff, hscan]
      nofun
    constructor
    · rintro ⟨text, hleads, hlong⟩
      exact ⟨text, .token hrest hscan hleads, hlong⟩
    · rintro ⟨text, hleads, hlong⟩
      rcases (leads_iff_of_cons hrest).mp hleads with rfl | ⟨found, hfound, hleads⟩
      · exact absurd hlong hshort
      · cases hscan.symm.trans hfound
        exact ⟨text, hleads, hlong⟩

end ZebLang
