/-
  Which line a diagnostic quotes.

  Places count line feeds only, so the line of a place is a row: what stands between two line feeds.  The
  caret stands under the character of the row where the place is, or just past the end of the row
  (`getElem?_rows`).

  The lexer quotes the row itself.  It knows where the row started (`Cursor.Stands`).  The parser and lowering
  quote by number, from the lines of the text, and these are split at other line breaks too.  A line is the
  row of the same number if there is no other break up to there than line feeds and carriage returns in front
  of them (`getElem?_linesFrom`); where a comment holds another one, it need not be.

  The place is that of the offending token, or of the text that no token starts.
-/

import ZebLang.Proofs.Compilation
import ZebLang.Proofs.Lowering.Places
import ZebLang.Proofs.Program.Lookahead
import ZebLang.Proofs.Text
import ZebLang.Proofs.Token.Placement

namespace ZebLang

/-! ## Rows -/

namespace Text

/-- `rowBefore before`: what stands in its row before the end of a text. -/
def rowBefore (before : List Char) : List Char := before.rtakeWhile (· != '\n')

/-- `rowAfter after`: what stands in its row from the start of a text on. -/
def rowAfter (after : List Char) : List Char := after.takeWhile (· != '\n')

/-- `chopped row`: the row without the carriage return at its end, if there is one. -/
def chopped (row : List Char) : List Char := if row.getLast? = some '\r' then row.dropLast else row

/-- `IsPlainUpTo text n`: up to the row of index `n` there is no other line break than line feeds and
    carriage returns at the end of a row. -/
def IsPlainUpTo (text : List Char) (n : Nat) : Prop :=
  ∀ row ∈ (rows text).take (n + 1), ∀ c ∈ chopped row, isLineBreak c = false

theorem ne_of_mem_rowBefore {chars : List Char} {c : Char} (h : c ∈ rowBefore chars) : (c != '\n') = true :=
  List.mem_rtakeWhile_imp (p := (· != '\n')) h

theorem not_mem_rowAfter (chars : List Char) : '\n' ∉ rowAfter chars :=
  fun hmem => absurd (List.mem_takeWhile_imp hmem) (by decide)

/-- `rowAfter` is the text, or a line feed and what comes behind it follow. -/
theorem eq_rowAfter (chars : List Char) :
    chars = rowAfter chars ∨ ∃ rest, chars = rowAfter chars ++ '\n' :: rest := by
  have hall : chars = rowAfter chars ++ chars.dropWhile (· != '\n') :=
    List.takeWhile_append_dropWhile.symm
  cases hdrop : chars.dropWhile (· != '\n') with
  | nil =>
    rw [hdrop, List.append_nil] at hall
    exact .inl hall
  | cons c rest =>
    have hfeed : c = '\n' := by simpa using head_dropWhile (p := (· != '\n')) c (by rw [hdrop]; rfl)
    rw [hdrop, hfeed] at hall
    exact .inr ⟨rest, hall⟩

/-- `rows` starts with `rowAfter`. -/
theorem head?_rows (chars : List Char) : (rows chars).head? = some (rowAfter chars) := by
  have hrow := rows_of_not_mem (not_mem_rowAfter chars)
  rcases eq_rowAfter chars with hall | ⟨rest, hall⟩
  · rw [← hall] at hrow
    rw [hrow, ← hall]
    rfl
  · have hrows := rows_append_lineFeed (rowAfter chars) rest
    rw [← hall, hrow] at hrows
    rw [hrows]
    rfl

/-- `rows` are one more than the line feeds. -/
theorem length_rows (chars : List Char) : (rows chars).length = chars.count '\n' + 1 := by
  induction chars with
  | nil => rfl
  | cons c rest ih =>
    unfold rows List.splitOn at ih ⊢
    rw [List.splitOnP_cons_eq_if_modifyHead, List.count_cons]
    split
    · rw [List.length_cons, ih]
    · rw [List.length_modifyHead, ih]

/-- `rowBefore` is empty behind a line feed. -/
theorem rowBefore_lineFeed (init : List Char) : rowBefore (init ++ ['\n']) = [] :=
  List.rtakeWhile_concat_neg _ _ _ (by decide)

theorem rowBefore_concat {c : Char} (hc : c ≠ '\n') (init : List Char) :
    rowBefore (init ++ [c]) = rowBefore init ++ [c] :=
  List.rtakeWhile_concat_pos _ _ _ (by simpa using hc)

theorem rowAfter_cons {c : Char} (hc : c ≠ '\n') (rest : List Char) :
    rowAfter (c :: rest) = c :: rowAfter rest :=
  List.takeWhile_cons_of_pos (by simpa using hc)

/-- `rows` has at a place what stands in its row before it, and from it on. -/
theorem getElem?_rows (before after : List Char) :
    (rows (before ++ after))[before.count '\n']? = some (rowBefore before ++ rowAfter after) := by
  induction before using List.reverseRecOn generalizing after with
  | nil =>
    have hhead := head?_rows after
    rw [List.head?_eq_getElem?] at hhead
    exact hhead
  | append_singleton init x ih =>
    rw [List.append_assoc, List.singleton_append, List.count_append, List.count_singleton]
    by_cases hx : x = '\n'
    · subst hx
      have hhead := head?_rows after
      rw [List.head?_eq_getElem?] at hhead
      rw [rows_append_lineFeed, rowBefore_lineFeed, List.nil_append, ← hhead]
      show (rows init ++ rows after)[init.count '\n' + 1]? = _
      rw [← length_rows, List.getElem?_append_right (Nat.le_refl _), Nat.sub_self]
    · rw [if_neg (by simpa using hx), Nat.add_zero, ih, rowAfter_cons hx, rowBefore_concat hx,
        List.append_assoc]
      rfl

/-! ## Lines and rows -/

/-- `lineAt?` counts from one. -/
theorem lineAt?_succ (lines : List String) (n : Nat) : lineAt? lines (1 + n) = lines[n]? := by
  unfold lineAt?
  rw [if_pos (by omega), show (1 + (n : Int)).toNat - 1 = n by omega]

/-- `chopped` leaves the row, with or without a carriage return behind. -/
theorem chopped_cases (row : List Char) :
    ∃ text, chopped row = text ∧ (row = text ∨ row = text ++ ['\r']) := by
  unfold chopped
  split
  next hlast => exact ⟨_, rfl, .inr (List.dropLast_append_getLast? '\r' hlast).symm⟩
  next => exact ⟨_, rfl, .inl rfl⟩

theorem linesFrom_nil (taken : List Char) :
    linesFrom taken [] = if taken.isEmpty then [] else [String.ofList taken.reverse] := rfl

/-- `linesFrom` makes a line of a row that a line feed ends. -/
theorem linesFrom_row {row : List Char} (h : ∀ c ∈ chopped row, isLineBreak c = false) (rest : List Char) :
    linesFrom [] (row ++ '\n' :: rest) = String.ofList (chopped row) :: linesFrom [] rest := by
  obtain ⟨text, htext, hrow⟩ := chopped_cases row
  rw [htext] at h ⊢
  rcases hrow with rfl | rfl
  · rw [linesFrom_append h, linesFrom_lineFeed, List.append_nil, List.reverse_reverse]
  · rw [List.append_assoc, linesFrom_append h, List.append_nil]
    show String.ofList text.reverse.reverse :: linesFrom [] rest = _
    rw [List.reverse_reverse]

/-- `linesFrom` makes the last line of a row that ends the text, unless nothing stands in it. -/
theorem linesFrom_lastRow {row : List Char} (h : ∀ c ∈ chopped row, isLineBreak c = false) :
    linesFrom [] row = [] ∨ linesFrom [] row = [String.ofList (chopped row)] := by
  obtain ⟨text, htext, hrow⟩ := chopped_cases row
  rw [htext] at h ⊢
  rcases hrow with rfl | rfl
  · rw [← List.append_nil row, linesFrom_append h, List.append_nil, linesFrom_nil, List.reverse_reverse,
      List.append_nil]
    split
    · exact .inl rfl
    · exact .inr rfl
  · rw [linesFrom_append h, List.append_nil]
    right
    show String.ofList text.reverse.reverse :: linesFrom [] [] = _
    rw [List.reverse_reverse]
    rfl

/-- `linesFrom` has at a number the row of this number, `chopped`, if no other break comes up to there. -/
theorem getElem?_linesFrom {n : Nat} {chars row : List Char} {line : String}
    (hplain : IsPlainUpTo chars n) (hrow : (rows chars)[n]? = some row)
    (hline : (linesFrom [] chars)[n]? = some line) : line = String.ofList (chopped row) := by
  induction n generalizing chars with
  | zero =>
    have hfirst : row = rowAfter chars := by
      have hhead := head?_rows chars
      rw [List.head?_eq_getElem?, hrow] at hhead
      exact Option.some.inj hhead
    have hbreaks : ∀ c ∈ chopped row, isLineBreak c = false := by
      refine hplain row ?_
      rw [List.take_one, List.head?_eq_getElem?, hrow]
      exact List.mem_singleton_self row
    rcases eq_rowAfter chars with hchars | ⟨rest, hchars⟩
    · rw [hchars, ← hfirst] at hline
      rcases linesFrom_lastRow hbreaks with hlines | hlines
      · rw [hlines] at hline
        cases hline
      · rw [hlines] at hline
        exact (Option.some.inj hline).symm
    · rw [hchars, ← hfirst, linesFrom_row hbreaks] at hline
      exact (Option.some.inj hline).symm
  | succ n ih =>
    have hfirst := rows_of_not_mem (not_mem_rowAfter chars)
    rcases eq_rowAfter chars with hchars | ⟨rest, hchars⟩
    · -- there is one row only
      rw [← hchars] at hfirst
      rw [hfirst] at hrow
      cases hrow
    · have hrows : rows chars = rowAfter chars :: rows rest := by
        rw [hchars, rows_append_lineFeed, ← hchars, hfirst]
        rfl
      unfold IsPlainUpTo at hplain
      rw [hrows] at hplain hrow
      rw [hchars, linesFrom_row (hplain _ (by simp))] at hline
      exact ih (fun r hr => hplain r (by simp [hr])) hrow hline

end Text

/-! ## Where the lexer stands -/

namespace Cursor

/-- `c.Stands text before`: the cursor has read `before` of a text, and knows the row that it stands in. -/
structure Stands (text before : List Char) (c : Cursor) : Prop where
  whole : text = before ++ c.rest
  behind : c.IsBehind before
  row : c.row = Text.rowBefore before ++ c.rest

theorem stands_start (text : List Char) : (start text).Stands text [] := ⟨rfl, isBehind_start text, rfl⟩

/-- `Stands` is kept by `advance`. -/
theorem Stands.advance {text before rest : List Char} {x : Char} {c : Cursor} (h : c.Stands text before)
    (hrest : c.rest = x :: rest) : c.advance.Stands text (before ++ [x]) := by
  have hnext : c.advance.rest = rest := by rw [rest_advance, hrest]; rfl
  refine ⟨by rw [hnext, h.whole, hrest]; simp, h.behind.advance hrest, ?_⟩
  by_cases hx : x = '\n'
  · subst hx
    rw [advance_lineFeed hrest, Text.rowBefore_lineFeed]
    rfl
  · rw [advance_of_ne hrest hx, Text.rowBefore_concat hx, List.append_assoc]
    show c.row = _
    rw [h.row, hrest]
    rfl

/-- `Stands` is kept by `advanceBy`. -/
theorem Stands.advanceBy {text before : List Char} {c : Cursor} (h : c.Stands text before) (n : Nat) :
    (c.advanceBy n).Stands text (before ++ c.rest.take n) := by
  induction n generalizing c before with
  | zero =>
    rw [List.take_zero, List.append_nil]
    exact h
  | succ n ih =>
    rw [Cursor.advanceBy]
    cases hrest : c.rest with
    | nil =>
      have hstands := ih h
      rw [hrest, List.take_nil] at hstands
      rw [advance_nil hrest, List.take_nil]
      exact hstands
    | cons x rest =>
      have hstands := ih (h.advance hrest)
      rw [rest_advance, hrest, List.drop_one, List.tail_cons, List.append_assoc] at hstands
      exact hstands

end Cursor

/-- `lexFrom` reports a fault where no token starts, and quotes the row of its place. -/
theorem quoted_of_lexFrom {file : String} {c : Cursor} {text before : List Char} {d : Diagnostic}
    (h : c.Stands text before) (hfault : (lexFrom file c).fault = some (.diagnostic d)) :
    ∃ before after, text = before ++ after ∧ d.location = some (.known (placeBehind file before)) ∧ after ≠ [] ∧
      StartsNone after ∧ d.sourceLine = some (String.ofList (Text.rowBefore before ++ Text.rowAfter after)) := by
  induction c using lexFrom.induct file generalizing before with
  | case1 c hrest =>
    rw [lexFrom_end hrest] at hfault
    cases hfault
  | case2 c first rest hrest fault hscan =>
    have hstands := h.advanceBy (Cursor.gapLength c.rest)
    rw [lexFrom_error hrest hscan] at hfault
    rcases fault_of_scan hscan with ⟨cause, -, rfl⟩ | ⟨n, rfl⟩
    · cases hfault
      refine ⟨_, c.skipGap.rest, hstands.whole, congrArg (some ∘ Origin.known) (hstands.behind.location_eq file), ?_, ?_, ?_⟩
      · rw [hrest]
        simp
      · rw [hrest]
        exact startsNone_of_scan hscan
      · show some (Text.untilLineFeed c.skipGap.row) = _
        have hrow : c.skipGap.row = _ := hstands.row
        rw [hrow, Text.untilLineFeed, List.takeWhile_append_of_pos fun c hc => Text.ne_of_mem_rowBefore hc]
        rfl
    · cases hfault
  | case3 c first rest hrest lexeme hscan hlt ih =>
    rw [lexFrom_token hrest hscan] at hfault
    exact ih ((h.advanceBy _).advanceBy lexeme.length) hfault

/-! ## Where tokens stand -/

/-- `t.StartsAt after`: the token is spelled at the start of this text, or marks its end. -/
inductive Token.StartsAt (t : Token) : List Char → Prop where
  | spelled {lexeme rest : List Char} (h : StandsAt lexeme rest t.kind t.value) : StartsAt t (lexeme ++ rest)
  | final (hkind : t.kind = .endOfFile) : StartsAt t []

/-- `lex` places every token where it starts. -/
theorem startsAt_of_lex {source file : String} {tokens : List Token}
    (h : (lex source file).all = .ok tokens) {t : Token} (ht : t ∈ tokens) :
    ∃ before after, source.toList = before ++ after ∧ t.location = placeBehind file before ∧ t.StartsAt after := by
  obtain ⟨pieces, gap, rest, hdecomposes, hends⟩ :=
    lexFrom_decomposes file (.start source.toList) (Cursor.isBehind_start source.toList)
  have hwhole : source.toList = pieces.flatMap Placed.chars ++ (gap ++ rest) := hdecomposes.whole
  unfold lex at h
  generalize lexFrom file (.start source.toList) = lexed at h hends
  cases hends with
  | refused | overlong => cases h
  | @finished final hrest hkind hvalue hplace =>
    cases h
    rcases List.mem_append.mp ht with ht | ht
    · obtain ⟨p, hp, rfl⟩ := List.mem_map.mp ht
      obtain ⟨left, right, rfl⟩ := List.append_of_mem hp
      have hsits := hdecomposes.sits left p right rfl
      refine ⟨_, _, ?_, hsits.place, .spelled hsits.stands⟩
      rw [hwhole, List.flatMap_append, List.flatMap_cons]
      show _ ++ (p.gap ++ p.lexeme ++ _) ++ _ = _
      simp only [List.nil_append, List.append_assoc]
    · cases List.mem_singleton.mp ht
      refine ⟨_, [], ?_, hplace, .final hkind⟩
      rw [hwhole, hrest]
      simp only [List.nil_append, List.append_nil]

/-! ## Diagnostics -/

/-- `Offends lexed place after`: what a diagnostic at a place is about, in the text from there on: a token
    of the text, or something that no token starts. -/
def Offends (lexed : Except Fault (List Token)) (place : Location) (after : List Char) : Prop :=
  match lexed with
  | .ok tokens => ∃ t ∈ tokens, t.location = place ∧ t.StartsAt after
  | .error _ => after ≠ [] ∧ StartsNone after

/-- `parseTokens` reports a fault at one of the tokens. -/
theorem isBare_of_parse {tokens : List Token} (hlexed : WellLexed tokens) {d : Diagnostic}
    (h : parseTokens tokens = .error (.diagnostic d)) : d.IsBare tokens := by
  rcases Parser.spells_or_stops tokens hlexed with ⟨program, hspells⟩ | hstops
  · rw [(parseTokens_eq_ok_iff hlexed).mpr hspells] at h
    cases h
  · obtain @⟨before, after, look, t, fault, hfails, hplace, -, -⟩ := hstops
    rw [parseTokens_of_fails (hfails after) (by simp)] at h
    rcases hplace with rfl | ⟨cause, rfl⟩
    · cases h
    · cases h
      exact ⟨rfl, t, by simp, rfl⟩

/-- `d.Marks source file before after line`: the diagnostic stands where something offends, and quotes this
    line. -/
structure Diagnostic.Marks (d : Diagnostic) (source file : String) (before after : List Char)
    (line : Option String) : Prop where
  whole : source.toList = before ++ after
  place : d.location = some (.known (placeBehind file before))
  offends : Offends (lex source file).all (placeBehind file before) after
  quoted : d.sourceLine = line

/-- `IsBare`: the diagnostic at a token quotes the line of its number. -/
theorem Diagnostic.IsBare.marks {d : Diagnostic} {source file : String} {tokens : List Token}
    (h : d.IsBare tokens) (hall : (lex source file).all = .ok tokens) :
    ∃ before after, (d.quoting (Text.lines source)).Marks source file before after
      (Text.lines source)[before.count '\n']? := by
  obtain ⟨t, ht, hplace⟩ := h.placed
  obtain ⟨before, after, hwhole, hlocation, hstarts⟩ := startsAt_of_lex hall ht
  rw [hlocation] at hplace
  have hquoting : d.quoting (Text.lines source) =
      { d with sourceLine := Text.lineAt? (Text.lines source) (placeBehind file before).line } := by
    unfold Diagnostic.quoting
    rw [h.unquoted, hplace]
  rw [hquoting]
  refine ⟨before, after, hwhole, hplace, ?_, ?_⟩
  · rw [hall]
    exact ⟨t, ht, hlocation, hstarts⟩
  · exact Text.lineAt?_succ _ _

section Stages

variable {options : Options} {source file : String} {r : Report} {d : Diagnostic}

/-- `stopped` reports a fault that is a diagnostic. -/
theorem Compilation.eq_diagnostic_of_stopped {count : Nat} {tree : Option Datum} {notes : List Note}
    {fault : Fault} (hreport : (Compilation.stopped file count tree notes fault).result = .ok r)
    (hfailed : r.outcome = .error d) : fault = .diagnostic d := by
  cases fault with
  | diagnostic found =>
    cases hreport
    cases hfailed
    rfl
  | _ => cases hreport

/-- `quoting` gives a diagnostic of a diagnostic only. -/
theorem Fault.eq_diagnostic_of_quoting {fault : Fault} {lines : List String}
    (h : fault.quoting lines = .diagnostic d) : ∃ bare, fault = .diagnostic bare ∧ d = bare.quoting lines := by
  cases fault with
  | diagnostic bare =>
    cases h
    exact ⟨bare, rfl, rfl⟩
  | _ => cases h

/-- `Marks` for a diagnostic of the parser or of lowering. -/
theorem marks_of_lexed {tokens : List Token} (hall : (lex source file).all = .ok tokens)
    (hreport : (Compilation.ofSource options source file).result = .ok r) (hfailed : r.outcome = .error d) :
    ∃ before after, d.Marks source file before after (Text.lines source)[before.count '\n']? := by
  obtain ⟨hlexed, hholds⟩ := wellLexed_of_lex hall
  unfold Compilation.ofSource Program.ofTokens at hreport
  rw [hall] at hreport
  dsimp only at hreport
  cases hparse : parseTokens tokens with
  | error fault =>
    rw [hparse] at hreport
    obtain ⟨bare, rfl, rfl⟩ := Fault.eq_diagnostic_of_quoting
      (Compilation.eq_diagnostic_of_stopped hreport hfailed)
    exact (isBare_of_parse hlexed hparse).marks hall
  | ok program =>
    rw [hparse] at hreport
    have hspells := (parseTokens_eq_ok_iff hlexed).mp hparse
    have hlowered : ∀ comments, lowerTree comments (Program.toDatum ⟨program, ⟨file, 1, 1⟩⟩) =
        lower comments (program.map Stmt.toDatum) := fun _ => rfl
    unfold Compilation.ofProgram at hreport
    dsimp only at hreport
    rw [hlowered] at hreport
    cases htext : (lower options.comments (program.map Stmt.toDatum)).text with
    | ok text =>
      rw [htext] at hreport
      cases hreport
      cases hfailed
    | error fault =>
      rw [htext] at hreport
      obtain ⟨bare, rfl, rfl⟩ := Fault.eq_diagnostic_of_quoting
        (Compilation.eq_diagnostic_of_stopped hreport hfailed)
      exact (isBare_of_lower hspells (hspells.sourceStatements hholds) htext).marks hall

/-- `Marks` for a diagnostic of the lexer. -/
theorem marks_of_unlexed {fault : Fault} (hall : (lex source file).all = .error fault)
    (hreport : (Compilation.ofSource options source file).result = .ok r) (hfailed : r.outcome = .error d) :
    ∃ before after, d.Marks source file before after
      (some (String.ofList (Text.rowBefore before ++ Text.rowAfter after))) := by
  unfold Compilation.ofSource at hreport
  rw [hall] at hreport
  cases Compilation.eq_diagnostic_of_stopped hreport hfailed
  obtain ⟨before, after, hwhole, hplace, hne, hnone, hquoted⟩ :=
    quoted_of_lexFrom (Cursor.stands_start source.toList) (all_eq_error_iff.mp hall)
  refine ⟨before, after, hwhole, hplace, ?_, hquoted⟩
  rw [hall]
  exact ⟨hne, hnone⟩

end Stages

theorem Diagnostic.quotation_succ (line : String) (n : Nat) :
    Diagnostic.quotation line (1 + n) =
      ["    " ++ line, String.ofList (List.replicate (4 + n) ' ') ++ "^"] := by
  unfold Diagnostic.quotation Diagnostic.caretIndent
  rw [if_pos (by omega), show (4 + (1 + (n : Int)) - 1).toNat = 4 + n by omega]

/-- `d.ShowsCaret place line n`: the message quotes this line behind four blanks, and below it has a caret
    under the character of index `n`. -/
def Diagnostic.ShowsCaret (d : Diagnostic) (place : Location) (line : String) (n : Nat) : Prop :=
  ∃ hint, d.message = Text.joinLines ((place.text ++ ": error: " ++ d.cause.text) :: ("    " ++ line) ::
    (String.ofList (List.replicate (4 + n) ' ') ++ "^") :: hint)

/-- `ShowsCaret` for a diagnostic that `Marks` a place and quotes a line. -/
theorem showsCaret_of_marks {d : Diagnostic} {source file line : String} {before after : List Char}
    {quoted : Option String} (h : d.Marks source file before after quoted) (hline : d.sourceLine = some line) :
    d.ShowsCaret (placeBehind file before) line (Text.rowBefore before).length := by
  have hquotation : Diagnostic.quotation line (placeBehind file before).column = _ :=
    Diagnostic.quotation_succ line (Text.rowBefore before).length
  unfold Diagnostic.ShowsCaret Diagnostic.message
  rw [h.place, hline]
  dsimp only
  rw [hquotation]
  exact ⟨_, rfl⟩

/-- What a diagnostic quotes.  It stands at a place of the text where a token starts, or something that no token
    starts; the row of the place is what stands there before it and from it on; and in the message a caret
    stands under the place, in the line that is quoted.  The lexer quotes the row itself.  The parser and lowering
    quote the line of the same number.  That is the row, without a carriage return at its end, if up to there
    the text has no other line break than line feeds and carriage returns before them. -/
theorem diagnostic_quotes_line {options : Options} {source file : String} {r : Report} {d : Diagnostic}
    (hreport : (Compilation.ofSource options source file).result = .ok r) (hfailed : r.outcome = .error d) :
    ∃ before after, source.toList = before ++ after ∧ d.location = some (.known (placeBehind file before)) ∧
      Offends (lex source file).all (placeBehind file before) after ∧
      (Text.rows source.toList)[before.count '\n']? = some (Text.rowBefore before ++ Text.rowAfter after) ∧
      (∀ line, d.sourceLine = some line →
        d.ShowsCaret (placeBehind file before) line (Text.rowBefore before).length) ∧
      (∀ fault, (lex source file).all = .error fault →
        d.sourceLine = some (String.ofList (Text.rowBefore before ++ Text.rowAfter after))) ∧
      (∀ tokens, (lex source file).all = .ok tokens →
        d.sourceLine = (Text.lines source)[before.count '\n']? ∧
        (Text.IsPlainUpTo source.toList (before.count '\n') → ∀ line, d.sourceLine = some line →
          line = String.ofList (Text.chopped (Text.rowBefore before ++ Text.rowAfter after)))) := by
  cases hall : (lex source file).all with
  | error fault =>
    obtain ⟨before, after, h⟩ := marks_of_unlexed hall hreport hfailed
    have hrow : (Text.rows source.toList)[before.count '\n']? = _ := h.whole ▸ Text.getElem?_rows before after
    exact ⟨before, after, h.whole, h.place, hall ▸ h.offends, hrow, fun _ => showsCaret_of_marks h,
      fun _ _ => h.quoted, fun _ hother => by cases hother⟩
  | ok tokens =>
    obtain ⟨before, after, h⟩ := marks_of_lexed hall hreport hfailed
    have hrow : (Text.rows source.toList)[before.count '\n']? = _ := h.whole ▸ Text.getElem?_rows before after
    refine ⟨before, after, h.whole, h.place, hall ▸ h.offends, hrow, fun _ => showsCaret_of_marks h, ?_, ?_⟩
    · intro _ hother
      cases hother
    · refine fun _ _ => ⟨h.quoted, fun hplain line hline => ?_⟩
      exact Text.getElem?_linesFrom hplain hrow (h.quoted ▸ hline)

/-- A comment that a form feed splits in two, and a second row with a parenthesis that does not fit. -/
def splitComment : String := "#\x0c\n)"

def splitCommentTokens : List Token :=
  [⟨.newline, .text "\n", 1, 3, "f"⟩, ⟨.rightParen, .text ")", 2, 1, "f"⟩, ⟨.endOfFile, .none, 2, 2, "f"⟩]

/-- The second line is the rest of the comment. -/
def splitCommentDiagnostic : Diagnostic :=
  ⟨.unexpectedToken ")" (some "'exit', 'for', 'endfor' or an assignment"), some (.known ⟨"f", 2, 1⟩), some ""⟩

/-- The caret stands under the parenthesis of the second row, but the line above it is not that row. -/
theorem diagnostic_quotes_splitComment :
    (Compilation.ofSource {} splitComment "f").result =
      .ok ⟨"f", 3, none, .error splitCommentDiagnostic⟩ ∧
    (Text.rows splitComment.toList)[1]? = some [')'] ∧
    ∃ before after, splitComment.toList = before ++ after ∧ placeBehind "f" before = ⟨"f", 2, 1⟩ ∧
      Offends (lex splitComment "f").all (placeBehind "f" before) after ∧
      (Text.rows splitComment.toList)[before.count '\n']? =
        some (Text.rowBefore before ++ Text.rowAfter after) ∧
      splitCommentDiagnostic.ShowsCaret (placeBehind "f" before) "" (Text.rowBefore before).length ∧
      splitCommentDiagnostic.sourceLine = (Text.lines splitComment)[before.count '\n']? ∧
      ¬Text.IsPlainUpTo splitComment.toList (before.count '\n') := by
  have hall : (lex splitComment "f").all = .ok splitCommentTokens := by
    have hlexed : lexFrom "f" (.start ['#', '\x0c', '\n', ')']) = ⟨splitCommentTokens, none⟩ := by
      with_unfolding_all rfl
    have hlex : lex splitComment "f" = lexFrom "f" (.start ['#', '\x0c', '\n', ')']) := rfl
    rw [hlex, hlexed]
    rfl
  have hparse : parseTokens splitCommentTokens = .error (.report (.unexpectedToken ")"
      (some "'exit', 'for', 'endfor' or an assignment")) (some (.known ⟨"f", 2, 1⟩))) := by
    with_unfolding_all rfl
  have hreport : (Compilation.ofSource {} splitComment "f").result =
      .ok ⟨"f", 3, none, .error splitCommentDiagnostic⟩ := by
    unfold Compilation.ofSource Program.ofTokens
    rw [hall]
    dsimp only
    rw [hparse]
    rfl
  have hrow : (Text.rows splitComment.toList)[1]? = some [')'] := rfl
  obtain ⟨before, after, hwhole, hplace, hoffends, hrows, hcaret, -, hlines⟩ :=
    diagnostic_quotes_line hreport rfl
  have hplace : placeBehind "f" before = ⟨"f", 2, 1⟩ := (Origin.known.inj (Option.some.inj hplace)).symm
  obtain ⟨hline, hplain⟩ := hlines _ hall
  refine ⟨hreport, hrow, before, after, hwhole, hplace, hoffends, hrows, hcaret "" rfl, hline, fun h => ?_⟩
  -- an empty line would be the row with the parenthesis
  have hcount : before.count '\n' = 1 := by
    have hcounted : (1 : Int) + (before.count '\n' : Nat) = 2 := congrArg Location.line hplace
    omega
  rw [hcount, hrow] at hrows
  have hempty := hplain h "" rfl
  rw [← Option.some.inj hrows] at hempty
  exact absurd hempty (by decide)

end ZebLang
