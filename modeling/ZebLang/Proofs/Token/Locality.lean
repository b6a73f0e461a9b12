/-
  Reading is local to lines.

  No token and no gap runs past a line feed.  So what is read of a text does not depend on what comes
  behind a line feed, and what is read there does not depend on what came before, but for the numbers of
  the lines.

  1. The gap and the token at the start of a text are the same with a line feed and any text behind it
     (`Cursor.gapLength_lineFeed`, `scan_lineFeed`).
  2. So a cursor in the longer text goes along with the one in the shorter text, as far as that goes
     (`Cursor.followedBy`), and reads the same tokens (`lexFrom_followedBy`).
  3. Two cursors that differ in the number of the line read the same, but for these numbers
     (`lexFrom_movedDown`).
-/

import ZebLang.Proofs.Token.Placement

namespace ZebLang

/-! ## Text in front of a line feed -/

section LineFeed

variable (more : List Char)

/-- `takeWhile` stops at a line feed, if the test fails there. -/
theorem Text.takeWhile_lineFeed {p : Char → Bool} (hp : p '\n' = false) (text : List Char) :
    (text ++ '\n' :: more).takeWhile p = text.takeWhile p := by
  induction text with
  | nil => rw [List.nil_append, List.takeWhile_cons_of_neg (by simp [hp]), List.takeWhile_nil]
  | cons c rest ih => rw [List.cons_append, List.takeWhile_cons, List.takeWhile_cons, ih]

/-- `dropWhile` stops at a line feed, if the test fails there. -/
theorem Text.dropWhile_lineFeed {p : Char → Bool} (hp : p '\n' = false) (text : List Char) :
    (text ++ '\n' :: more).dropWhile p = text.dropWhile p ++ '\n' :: more := by
  have hall := @List.takeWhile_append_dropWhile _ p (text ++ '\n' :: more)
  have hleft := @List.takeWhile_append_dropWhile _ p text
  rw [takeWhile_lineFeed more hp] at hall
  refine List.append_cancel_left (hall.trans ?_)
  rw [← List.append_assoc, hleft]

/-- `gapLength` ends at a line feed. -/
theorem Cursor.gapLength_lineFeed (text : List Char) :
    gapLength (text ++ '\n' :: more) = gapLength text := by
  induction text with
  | nil => exact gapLength_of_first rfl (by decide) more
  | cons c rest ih =>
    rw [List.cons_append]
    by_cases hblank : isGapChar c = true
    · rw [gapLength_blank hblank, gapLength_blank hblank, ih]
    · by_cases hcomment : c = '#'
      · subst hcomment
        rw [gapLength_comment, gapLength_comment, Text.takeWhile_lineFeed more rfl]
      · have hgap : isGapChar c = false := by simpa using hblank
        rw [gapLength_of_first hgap hcomment, gapLength_of_first hgap hcomment]

/-- `Base.split` takes a mark that ends before a line feed. -/
theorem Base.split_lineFeed (text : List Char) :
    Base.split (text ++ '\n' :: more) =
      ((Base.split text).1, (Base.split text).2 ++ '\n' :: more) := by
  fun_cases Base.split text with
  | case1 rest | case2 rest | case3 rest | case4 rest => rfl
  | case5 _ hx hX hb hB =>
    -- a mark that reaches over the line feed would hold it
    have hmark : ∀ c, c ≠ '\n' → (∀ rest, text = '0' :: c :: rest → False) →
        ∀ rest, text ++ '\n' :: more = '0' :: c :: rest → False := by
      intro c hc hnone rest heq
      rcases text with _ | ⟨first, _ | ⟨second, others⟩⟩
      · cases heq
      · cases heq
        exact hc rfl
      · cases heq
        exact hnone _ rfl
    exact Base.split.eq_5 _ (hmark 'x' (by decide) hx) (hmark 'X' (by decide) hX)
      (hmark 'b' (by decide) hb) (hmark 'B' (by decide) hB)

/-- `scanNumber` ends before a line feed. -/
theorem scanNumber_lineFeed (text : List Char) :
    scanNumber (text ++ '\n' :: more) = scanNumber text := by
  have hdigit : ∀ base : Base, base.isDigit '\n' = false := by
    intro base
    cases base <;> rfl
  unfold scanNumber
  rw [Base.split_lineFeed]
  obtain ⟨base, body⟩ := Base.split text
  simp only [Text.takeWhile_lineFeed more (hdigit base), Text.dropWhile_lineFeed more (hdigit base)]
  -- a line feed is no part of a word, so it ends a number as the end of the text does
  cases hrest : body.dropWhile base.isDigit with
  | nil => rfl
  | cons c rest => rfl

/-- `scan` does not run past a line feed. -/
theorem scan_lineFeed (first : Char) (rest : List Char) :
    scan first (rest ++ '\n' :: more) = scan first rest := by
  have hword : scanWord first (rest ++ '\n' :: more) = scanWord first rest := by
    unfold scanWord
    simp only [Text.takeWhile_lineFeed more (show isWordChar '\n' = false from rfl)]
  unfold scan
  rw [hword, ← List.cons_append, scanNumber_lineFeed]

end LineFeed

/-! ## A token is part of its text -/

theorem length_le_of_scanNumber {text : List Char} {lexeme : Lexeme}
    (h : scanNumber text = .ok lexeme) : lexeme.length ≤ text.length := by
  unfold scanNumber at h
  split at h
  next base body hsplit =>
  obtain ⟨mark, -, rfl, hmark⟩ := Base.split_spec hsplit
  dsimp only at h
  split at h
  next => cases h
  next =>
    split at h
    next => cases h
    next =>
      split at h
      next => cases h
      next =>
        cases h
        show base.markLength + (body.takeWhile base.isDigit).length ≤ (mark ++ body).length
        rw [List.length_append, ← hmark]
        exact Nat.add_le_add_left (List.takeWhile_sublist _).length_le _

/-- `scan` gives a token no longer than the text. -/
theorem length_le_of_scan {first : Char} {rest : List Char} {lexeme : Lexeme}
    (h : scan first rest = .ok lexeme) : lexeme.length ≤ (first :: rest).length := by
  have hone : 1 ≤ (first :: rest).length := Nat.succ_le_succ (Nat.zero_le _)
  unfold scan at h
  dsimp only at h
  split at h
  next =>
    cases h
    exact hone
  next =>
    split at h
    next => exact length_le_of_scanNumber h
    next =>
      split at h
      next =>
        cases h
        show 1 + (rest.takeWhile isWordChar).length ≤ rest.length + 1
        have hword : (rest.takeWhile isWordChar).length ≤ rest.length :=
          (List.takeWhile_sublist _).length_le
        omega
      next =>
        split at h
        next =>
          cases h
          exact hone
        next => cases h

/-! ## A text that goes on -/

namespace Cursor

/-- `c.followedBy more`: the same place in a text that goes on behind the end with `more`. -/
def followedBy (c : Cursor) (more : List Char) : Cursor :=
  ⟨c.rest ++ more, c.row ++ more, c.line, c.column⟩

section Followed

variable {c : Cursor} (more : List Char)

/-- `advance` commutes with `followedBy`, before the end. -/
theorem advance_followedBy (h : c.rest ≠ []) :
    (c.followedBy more).advance = c.advance.followedBy more := by
  obtain ⟨x, rest, hrest⟩ := List.exists_cons_of_ne_nil h
  have hlong : (c.followedBy more).rest = x :: (rest ++ more) := by
    show c.rest ++ more = _
    rw [hrest, List.cons_append]
  by_cases hx : x = '\n'
  · subst hx
    rw [advance_lineFeed hrest, advance_lineFeed hlong]
    rfl
  · rw [advance_of_ne hrest hx, advance_of_ne hlong hx]
    rfl

theorem advanceBy_followedBy {n : Nat} (h : n ≤ c.rest.length) :
    (c.followedBy more).advanceBy n = (c.advanceBy n).followedBy more := by
  induction n generalizing c with
  | zero => rfl
  | succ n ih =>
    have hsome : c.rest ≠ [] := by
      intro hnil
      rw [hnil] at h
      exact absurd h (Nat.not_succ_le_zero n)
    have hrest : n ≤ c.advance.rest.length := by
      rw [rest_advance, List.length_drop]
      omega
    rw [advanceBy, advanceBy, advance_followedBy more hsome, ih hrest]

/-- `gapLength` is at most the length of the text. -/
theorem gapLength_le (text : List Char) : gapLength text ≤ text.length := by
  have hshort : ∀ {p : Char → Bool} (l : List Char), (l.takeWhile p).length ≤ l.length :=
    fun l => (List.takeWhile_sublist _).length_le
  induction text with
  | nil => exact Nat.le_refl 0
  | cons c rest ih =>
    by_cases hblank : isGapChar c = true
    · rw [gapLength_blank hblank]
      exact Nat.succ_le_succ ih
    · by_cases hcomment : c = '#'
      · subst hcomment
        rw [gapLength_comment]
        exact Nat.succ_le_succ (hshort rest)
      · rw [gapLength_of_first (by simpa using hblank) hcomment]
        exact Nat.zero_le _

/-- `skipGap` commutes with a line feed behind the end. -/
theorem skipGap_followedBy :
    (c.followedBy ('\n' :: more)).skipGap = c.skipGap.followedBy ('\n' :: more) := by
  show (c.followedBy _).advanceBy (gapLength (c.rest ++ '\n' :: more)) = _
  rw [gapLength_lineFeed, advanceBy_followedBy _ (gapLength_le c.rest)]
  rfl

theorem rest_skipGap_followedBy :
    (c.followedBy ('\n' :: more)).skipGap.rest = c.skipGap.rest ++ '\n' :: more := by
  rw [skipGap_followedBy]
  rfl

/-- `placing` quotes a line that ends at the line feed, so what follows changes nothing. -/
theorem placing_followedBy (file : String) (fault : Fault) :
    (c.followedBy ('\n' :: more)).placing file fault = c.placing file fault := by
  have hquoted : Text.untilLineFeed (c.row ++ '\n' :: more) = Text.untilLineFeed c.row := by
    unfold Text.untilLineFeed
    rw [Text.takeWhile_lineFeed more rfl]
  cases fault with
  | diagnostic d =>
    exact congrArg (fun line => Fault.diagnostic
      { d with location := some (.known (c.location file)), sourceLine := some line }) hquoted
  | _ => rfl

end Followed

/-- `c.movedDown k`: the same place in a text that starts `k` lines further down. -/
def movedDown (c : Cursor) (k : Nat) : Cursor := { c with line := c.line + k }

section Moved

variable {c : Cursor} (k : Nat)

/-- `advance` commutes with `movedDown`. -/
theorem advance_movedDown : (c.movedDown k).advance = c.advance.movedDown k := by
  cases hrest : c.rest with
  | nil => rw [advance_nil hrest, advance_nil (show (c.movedDown k).rest = [] from hrest)]
  | cons x rest =>
    by_cases hx : x = '\n'
    · subst hx
      rw [advance_lineFeed hrest, advance_lineFeed (show (c.movedDown k).rest = '\n' :: rest from hrest)]
      show Cursor.mk rest rest (c.line + k + 1) 1 = Cursor.mk rest rest (c.line + 1 + k) 1
      rw [Nat.add_right_comm]
    · rw [advance_of_ne hrest hx, advance_of_ne (show (c.movedDown k).rest = x :: rest from hrest) hx]
      rfl

theorem advanceBy_movedDown (n : Nat) : (c.movedDown k).advanceBy n = (c.advanceBy n).movedDown k := by
  induction n generalizing c with
  | zero => rfl
  | succ n ih => rw [advanceBy, advanceBy, advance_movedDown, ih]

/-- `skipGap` commutes with `movedDown`. -/
theorem skipGap_movedDown : (c.movedDown k).skipGap = c.skipGap.movedDown k :=
  advanceBy_movedDown k (gapLength c.rest)

end Moved

end Cursor

/-! ## Lines further down -/

/-- So many lines further down. -/
def Location.movedDown (k : Int) (l : Location) : Location := { l with line := l.line + k }

def Origin.movedDown (k : Int) : Origin → Origin
  | .known l => .known (l.movedDown k)
  | other => other

def Token.movedDown (k : Int) (t : Token) : Token := { t with line := t.line + k }

/-- A diagnostic goes along with its place; other faults have none. -/
def Fault.movedDown (k : Int) : Fault → Fault
  | .diagnostic d => .diagnostic { d with location := d.location.map (Origin.movedDown k) }
  | fault => fault

def Lexed.movedDown (k : Int) (l : Lexed) : Lexed :=
  ⟨l.tokens.map (Token.movedDown k), l.fault.map (Fault.movedDown k)⟩

/-- `placing` commutes with `movedDown`: only the line of the place changes. -/
theorem Cursor.placing_movedDown (c : Cursor) (k : Nat) (file : String) (fault : Fault) :
    (c.movedDown k).placing file fault = (c.placing file fault).movedDown k := by
  cases fault with
  | diagnostic d =>
    have hplace : (c.movedDown k).location file = (c.location file).movedDown k := by
      show Location.mk file ((c.line + k : Nat) : Int) c.column = ⟨file, (c.line : Int) + k, c.column⟩
      rw [Int.natCast_add]
    exact congrArg (fun place => Fault.diagnostic
      { d with location := some (.known place), sourceLine := some (Text.untilLineFeed c.row) }) hplace
  | _ => rfl

/-- `lexFrom` commutes with `movedDown`: the same text further down gives the same tokens further down. -/
theorem lexFrom_movedDown (file : String) (c : Cursor) (k : Nat) :
    lexFrom file (c.movedDown k) = (lexFrom file c).movedDown k := by
  have hline : ∀ c : Cursor, ((c.movedDown k).line : Int) = c.line + k := fun c => Int.natCast_add c.line k
  induction c using lexFrom.induct file with
  | case1 c hrest =>
    rw [lexFrom_end hrest, lexFrom_end (by rw [Cursor.skipGap_movedDown]; exact hrest),
      Cursor.skipGap_movedDown, hline]
    rfl
  | case2 c first rest hrest fault hscan =>
    rw [lexFrom_error hrest hscan, lexFrom_error (by rw [Cursor.skipGap_movedDown]; exact hrest) hscan,
      Cursor.skipGap_movedDown, Cursor.placing_movedDown]
    rfl
  | case3 c first rest hrest lexeme hscan hlt ih =>
    rw [lexFrom_token hrest hscan, lexFrom_token (by rw [Cursor.skipGap_movedDown]; exact hrest) hscan,
      Cursor.skipGap_movedDown, Cursor.advanceBy_movedDown, ih, hline]
    rfl

/-! ## Two texts with a line feed between them -/

/-- `lexFrom` where a text ends: the line feed behind it is read, and the next token starts a line. -/
theorem lexFrom_followedBy_of_end (file : String) {c : Cursor} (more : List Char) (hrest : c.skipGap.rest = []) :
    lexFrom file (c.followedBy ('\n' :: more)) =
      ⟨⟨.newline, .text "\n", c.skipGap.line, c.skipGap.column, file⟩ ::
          (lexFrom file ((Cursor.start more).movedDown c.skipGap.line)).tokens,
        (lexFrom file ((Cursor.start more).movedDown c.skipGap.line)).fault⟩ := by
  have hlong : (c.followedBy ('\n' :: more)).skipGap.rest = '\n' :: more := by
    rw [Cursor.rest_skipGap_followedBy, hrest, List.nil_append]
  have hscan : scan '\n' more = .ok ⟨.newline, .text "\n", 1, Nat.one_pos⟩ := rfl
  have hnext : (c.followedBy ('\n' :: more)).skipGap.advanceBy 1 =
      (Cursor.start more).movedDown c.skipGap.line := by
    show Cursor.advance _ = _
    rw [Cursor.advance_lineFeed hlong, Cursor.skipGap_followedBy]
    show Cursor.mk more more (c.skipGap.line + 1) 1 = Cursor.mk more more (1 + c.skipGap.line) 1
    rw [Nat.add_comm]
  rw [lexFrom_token hlong hscan, hnext, Cursor.skipGap_followedBy]
  rfl

/-- `lexFrom` on a text with a line feed and `more` behind it.  If it fails on the text alone, it fails the
    same way.  Otherwise the last token makes room for a separator at the same place, and reading goes on at
    the start of a line. -/
theorem lexFrom_followedBy (file : String) (c : Cursor) (more : List Char) {before : List Char}
    (h : c.IsBehind before) :
    (∀ fault, (lexFrom file c).fault = some fault →
      lexFrom file (c.followedBy ('\n' :: more)) = lexFrom file c) ∧
    ((lexFrom file c).fault = none → ∃ body, ∃ stop : Cursor,
      stop.IsBehind (before ++ c.rest) ∧
      (lexFrom file c).tokens = body ++ [⟨.endOfFile, .none, stop.line, stop.column, file⟩] ∧
      lexFrom file (c.followedBy ('\n' :: more)) =
        ⟨body ++ ⟨.newline, .text "\n", stop.line, stop.column, file⟩ ::
            (lexFrom file ((Cursor.start more).movedDown stop.line)).tokens,
          (lexFrom file ((Cursor.start more).movedDown stop.line)).fault⟩) := by
  induction c using lexFrom.induct file generalizing before with
  | case1 c hrest =>
    have hbehind : c.skipGap.IsBehind (before ++ c.rest) := by
      have htaken := h.advanceBy (Cursor.gapLength c.rest)
      rw [Cursor.rest_skipGap, List.drop_eq_nil_iff] at hrest
      rw [List.take_of_length_le hrest] at htaken
      exact htaken
    rw [lexFrom_end hrest, lexFrom_followedBy_of_end file more hrest]
    refine ⟨fun fault hfault => ?_, fun _ => ⟨[], c.skipGap, hbehind, rfl, rfl⟩⟩
    cases hfault
  | case2 c first rest hrest fault hscan =>
    have hlong : (c.followedBy ('\n' :: more)).skipGap.rest = first :: (rest ++ '\n' :: more) := by
      rw [Cursor.rest_skipGap_followedBy, hrest, List.cons_append]
    rw [lexFrom_error hrest hscan, lexFrom_error hlong ((scan_lineFeed more first rest).trans hscan),
      Cursor.skipGap_followedBy, Cursor.placing_followedBy]
    refine ⟨fun _ _ => rfl, fun hnone => ?_⟩
    cases hnone
  | case3 c first rest hrest lexeme hscan hlt ih =>
    have hlong : (c.followedBy ('\n' :: more)).skipGap.rest = first :: (rest ++ '\n' :: more) := by
      rw [Cursor.rest_skipGap_followedBy, hrest, List.cons_append]
    have hlength : lexeme.length ≤ c.skipGap.rest.length := by
      rw [hrest]
      exact length_le_of_scan hscan
    have hbehind : (c.skipGap.advanceBy lexeme.length).IsBehind
        (before ++ c.rest.take (Cursor.gapLength c.rest) ++ c.skipGap.rest.take lexeme.length) :=
      (h.advanceBy (Cursor.gapLength c.rest)).advanceBy lexeme.length
    -- what was taken and what is left make up the text
    have hall : before ++ c.rest.take (Cursor.gapLength c.rest) ++ c.skipGap.rest.take lexeme.length ++
        (c.skipGap.advanceBy lexeme.length).rest = before ++ c.rest := by
      rw [Cursor.rest_advanceBy, List.append_assoc, List.take_append_drop, Cursor.rest_skipGap,
        List.append_assoc, List.take_append_drop]
    obtain ⟨ihfault, ihnone⟩ := ih hbehind
    rw [hall] at ihnone
    rw [lexFrom_token hrest hscan, lexFrom_token hlong ((scan_lineFeed more first rest).trans hscan),
      Cursor.skipGap_followedBy, Cursor.advanceBy_followedBy _ hlength]
    constructor
    · intro fault hfault
      rw [ihfault fault hfault]
      rfl
    · intro hnone
      obtain ⟨body, stop, hstop, htokens, hjoined⟩ := ihnone hnone
      exact ⟨_ :: body, stop, hstop, by rw [htokens]; rfl, by rw [hjoined]; rfl⟩

/-- `lex` on two texts with a line feed between them. -/
theorem lex_lineFeed (u v file : String) :
    (∀ fault, (lex u file).fault = some fault → lex (u ++ "\n" ++ v) file = lex u file) ∧
    ((lex u file).fault = none → ∃ body final,
      (lex u file).tokens = body ++ [final] ∧ final.kind = .endOfFile ∧
      final.location = placeBehind file u.toList ∧
      lex (u ++ "\n" ++ v) file =
        ⟨body ++ { final with kind := .newline, value := .text "\n" } ::
            ((lex v file).movedDown (1 + u.toList.count '\n' : Nat)).tokens,
          ((lex v file).movedDown (1 + u.toList.count '\n' : Nat)).fault⟩) := by
  have hjoined : lex (u ++ "\n" ++ v) file =
      lexFrom file ((Cursor.start u.toList).followedBy ('\n' :: v.toList)) := by
    unfold lex
    rw [String.toList_append, String.toList_append, List.append_assoc]
    rfl
  obtain ⟨hfault, hnone⟩ := lexFrom_followedBy file (.start u.toList) v.toList
    (Cursor.isBehind_start u.toList)
  rw [hjoined]
  refine ⟨hfault, fun h => ?_⟩
  obtain ⟨body, stop, hstop, htokens, hlong⟩ := hnone h
  refine ⟨body, _, htokens, rfl, hstop.location_eq file, ?_⟩
  rw [hlong, lexFrom_movedDown, hstop.line]
  rfl

end ZebLang
