/-
  What a compilation reports.

  A report is in one of three states: the text was compiled, or not parsed, or parsed and not lowered.
  The stages hand on what makes it so.  Tokens carry what their kind says, so the parser refuses with a
  diagnostic of grammar or builds a program that source text can spell; and of such a program lowering
  finds nothing malformed.

  There is no report just if the text is `Overlong`: reading comes to a decimal number that is too long
  to be read, or the parser comes to a number that is too long to be written where it has to name it.  Such
  a number is out of the range of literals, so the text is wrong; but the fault is not a diagnostic.
-/

import ZebLang.Compilation
import ZebLang.Proofs.Lowering.Rejection
import ZebLang.Proofs.Program.Refusal

namespace ZebLang

/-! ## States of a report -/

/-- `Report.State`: the states in which a report may be. -/
inductive Report.State where
  | compiled
  | unparsed
  | unlowered
  deriving DecidableEq, Repr

/-- `r.IsIn source state`: a report on a source text is in this state. -/
def Report.IsIn (source : String) (r : Report) : Report.State → Prop
  | .compiled =>
      ∃ code, r.outcome = .ok (prologue ++ code) ∧ r.tree.isSome = true ∧ 1 ≤ r.tokenCount
  | .unparsed =>
      ∃ d, r.outcome = .error d ∧ d.cause.category = some .grammar ∧ d.location.isSome = true ∧
        r.tree = none ∧ (r.tokenCount = 0 ↔ ¬∃ tokens, (lex source r.file).all = .ok tokens)
  | .unlowered =>
      ∃ d category, r.outcome = .error d ∧ d.cause.category = some category ∧
        category ∈ loweringCategories ∧ d.location.isSome = true ∧ r.tree.isSome = true ∧
        1 ≤ r.tokenCount

/-- `r.state`: the state that the outcome and the tree of a report speak for. -/
def Report.state (r : Report) : Report.State :=
  match r.outcome, r.tree with
  | .ok _, _ => .compiled
  | .error _, none => .unparsed
  | .error _, some _ => .unlowered

/-- `state` is the one that the report `IsIn`. -/
theorem Report.state_of_isIn {source : String} {r : Report} {s : Report.State}
    (h : r.IsIn source s) : r.state = s := by
  unfold Report.state
  cases s with
  | compiled =>
    obtain ⟨code, houtcome, -⟩ := h
    rw [houtcome]
  | unparsed =>
    obtain ⟨d, houtcome, -, -, htree, -⟩ := h
    rw [houtcome, htree]
  | unlowered =>
    obtain ⟨d, category, houtcome, -, -, -, htree, -⟩ := h
    obtain ⟨tree, htree⟩ := Option.isSome_iff_exists.mp htree
    rw [houtcome, htree]

/-- `IsIn` one state at most. -/
theorem Report.state_unique {source : String} {r : Report} {s s' : Report.State}
    (h : r.IsIn source s) (h' : r.IsIn source s') : s = s' :=
  (Report.state_of_isIn h).symm.trans (Report.state_of_isIn h')

/-! ## Overlong numbers -/

/-- `Overlong source file`: a number is too long to be read, or too long to be written where the parser has
    to quote it. -/
inductive Overlong (source file : String) : Prop where
  | unreadable {text : List Char} {n : Nat} (hleads : Leads source.toList text)
      (hlong : StartsLong text n)
  | unwritable {before after : List Token} {t : Token}
      (hlexed : (lex source file).all = .ok (before ++ t :: after)) (hawaits : AwaitsProgram before)
      (hhuge : t.IsHuge)

theorem all_eq_error_iff {l : Lexed} {fault : Fault} :
    l.all = .error fault ↔ l.fault = some fault := by
  unfold Lexed.all
  cases l.fault with
  | none => simp
  | some found => simp

/-- `all` fails with `unreadable` just if reading comes to a number that is too long. -/
theorem all_eq_unreadable_iff {source file : String} {n : Nat} :
    (lex source file).all = .error (.unreadable n) ↔
      ∃ text, Leads source.toList text ∧ StartsLong text n :=
  all_eq_error_iff.trans lexFrom_eq_unreadable_iff

/-- `Overlong`, where the tokens can be read: the parser comes to a number that cannot be written. -/
theorem overlong_iff {source file : String} {tokens : List Token}
    (hall : (lex source file).all = .ok tokens) :
    Overlong source file ↔ parseTokens tokens = .error .unwritable := by
  rw [parseTokens_eq_unwritable_iff (wellLexed_of_lex hall).1]
  constructor
  · rintro (⟨hleads, hlong⟩ | ⟨hlexed, hawaits, hhuge⟩)
    · have hstop := (@all_eq_unreadable_iff source file _).mpr ⟨_, hleads, hlong⟩
      cases hall.symm.trans hstop
    · cases hall.symm.trans hlexed
      exact ⟨_, _, _, rfl, hawaits, hhuge⟩
  · rintro ⟨before, t, after, rfl, hawaits, hhuge⟩
    exact .unwritable hall hawaits hhuge

/-- `Overlong` holds with any number of too many decimal digits to be read. -/
theorem overlong_of_decimal {digits : List Char} (hdigits : ∀ c ∈ digits, c.isDigit = true)
    (hlong : Text.digitLimit < digits.length) (file : String) :
    Overlong (String.ofList ("exit ".toList ++ digits)) file := by
  obtain ⟨first, more, rfl⟩ := List.exists_cons_of_length_pos (Nat.zero_lt_of_lt hlong)
  obtain ⟨hgap, hcomment, -⟩ := isDigit_excludes (hdigits first (by simp))
  have hblank : Cursor.gapLength (' ' :: first :: more) = 1 := by
    rw [Cursor.gapLength_blank rfl, Cursor.gapLength_of_first hgap hcomment]
  have hleads : Leads (' ' :: first :: more) (first :: more) := by
    have h := Leads.here (' ' :: first :: more)
    rw [hblank] at h
    exact h
  have hall : Leads (String.ofList ("exit ".toList ++ first :: more)).toList (first :: more) := by
    rw [String.toList_ofList]
    exact @Leads.token _ _ _ 'e' _ rfl rfl hleads
  exact .unreadable hall ⟨_, [], (List.append_nil _).symm, hdigits, apart_nil, rfl, hlong⟩

/-- `Overlong` holds with any number of too many digits to be written, even where it can be read. -/
theorem overlong_of_hexadecimal {digits : List Char}
    (hdigits : ∀ c ∈ digits, Base.isDigit .hexadecimal c = true)
    (hhuge : Text.digitLimit < Text.digitCount (Text.ofDigits 16 digits)) (file : String) :
    Overlong (String.ofList ("exit 0x".toList ++ digits)) file := by
  have hne : digits ≠ [] := by
    rintro rfl
    exact absurd hhuge (by decide)
  have hlexes : Lexes ("exit 0x".toList ++ digits) [(.exitWord, .text "exit"),
      (.number, .int (Text.ofDigits 16 digits)), (.endOfFile, .none)] := by
    have hnumber := Lexes.hexadecimal hdigits hne apart_nil .nil
    rw [List.append_nil] at hnumber
    exact Lexes.word_blank .exitWord isWord_exit rfl hnumber
  obtain ⟨hfault, hcontents⟩ := hlexes file (.start _) rfl
  obtain ⟨word, others, htokens, hword, -, hothers⟩ := exists_of_content_cons hcontents
  obtain ⟨t, after, rfl, hkind, hvalue, -⟩ := exists_of_content_cons hothers
  have hall : (lex (String.ofList ("exit 0x".toList ++ digits)) file).all =
      .ok ([word] ++ t :: after) := by
    unfold lex Lexed.all
    rw [String.toList_ofList, hfault, htokens]
    rfl
  refine .unwritable hall (.within (.exit hword ?_)) ⟨hkind, _, hvalue, hhuge⟩
  exact .operand (c := .sum) (.operand (c := .product) (.unary .here))

/-! ## Stages -/

section Stages

variable {options : Options} {source file : String}

/-- `Settles options source file`: the compilation ends with a report in one state, or with a fault if the
    text is `Overlong`. -/
def Settles (options : Options) (source file : String) : Prop :=
  ((∃ r, (Compilation.ofSource options source file).result = .ok r ∧ r.file = file ∧
      ∃! state, r.IsIn source state) ∧ ¬Overlong source file) ∨
    ((∃ fault, (Compilation.ofSource options source file).result = .error fault) ∧
      Overlong source file)

/-- `Settles` by a report, where the text is not `Overlong`. -/
theorem Settles.of_report {r : Report} {state : Report.State}
    (hresult : (Compilation.ofSource options source file).result = .ok r) (hfile : r.file = file)
    (hstate : r.IsIn source state) (hoverlong : ¬Overlong source file) : Settles options source file :=
  .inl ⟨⟨r, hresult, hfile, state, hstate, fun _ h => Report.state_unique h hstate⟩, hoverlong⟩

/-- `Settles` where the text could not be read. -/
theorem settles_of_unread {fault : Fault} (h : (lex source file).all = .error fault) :
    Settles options source file := by
  have hresult : Compilation.ofSource options source file = Compilation.stopped file 0 none [] fault := by
    unfold Compilation.ofSource
    rw [h]
  rcases fault_of_lexFrom (all_eq_error_iff.mp h) with ⟨d, rfl, hcategory, hplace⟩ | ⟨n, rfl⟩
  · -- a diagnostic is reported, without tokens and without a tree
    have hnone : ¬∃ tokens, (lex source file).all = .ok tokens := by
      rintro ⟨tokens, htokens⟩
      cases h.symm.trans htokens
    refine @Settles.of_report options source file _ .unparsed (congrArg Compilation.result hresult) rfl
      ⟨d, rfl, hcategory, hplace, rfl, iff_of_true rfl hnone⟩ ?_
    rintro (⟨hleads, hlong⟩ | ⟨hlexed, -, -⟩)
    · cases h.symm.trans (all_eq_unreadable_iff.mpr ⟨_, hleads, hlong⟩)
    · exact hnone ⟨_, hlexed⟩
  · -- any other fault is a number that is too long to be read
    obtain ⟨text, hleads, hlong⟩ := all_eq_unreadable_iff.mp h
    exact .inr ⟨⟨_, congrArg Compilation.result hresult⟩, .unreadable hleads hlong⟩

/-- `WellLexed`: there is at least the token that marks the end. -/
theorem WellLexed.length_pos {tokens : List Token} (h : WellLexed tokens) : 1 ≤ tokens.length := by
  obtain ⟨body, final, rfl, -⟩ := h.ends
  simp

/-- `Settles` where the tokens spell no program. -/
theorem settles_of_unparsed {tokens : List Token} {fault : Fault}
    (hall : (lex source file).all = .ok tokens) (h : parseTokens tokens = .error fault) :
    Settles options source file := by
  have hlexed := (wellLexed_of_lex hall).1
  have hresult : Compilation.ofSource options source file =
      Compilation.stopped file tokens.length none [] (fault.quoting (Text.lines source)) := by
    unfold Compilation.ofSource Program.ofTokens
    rw [hall]
    dsimp only
    rw [h]
  have hread := reads_parseTokens hlexed
  rw [h] at hread
  rcases hread.quoting (Text.lines source) with ⟨d, hd, hcategory, hplace⟩ | ⟨hunwritable, -⟩
  · rw [hd] at hresult
    refine @Settles.of_report options source file _ .unparsed (congrArg Compilation.result hresult) rfl
      ⟨d, rfl, hcategory, hplace, rfl, ?_⟩ ?_
    · refine iff_of_false ?_ (fun hnone => hnone ⟨tokens, hall⟩)
      exact Nat.ne_of_gt hlexed.length_pos
    · rw [overlong_iff hall, h]
      rintro ⟨⟩
      cases hd
  · -- the parser could not write the number that it had to name
    rw [hunwritable] at hresult
    refine .inr ⟨⟨_, congrArg Compilation.result hresult⟩, (overlong_iff hall).mpr ?_⟩
    rw [h]
    cases hread with
    | report => cases hunwritable
    | unwritable => rfl

/-- `Settles` where the text was parsed. -/
theorem settles_of_parsed {tokens : List Token} {statements : List Stmt}
    (hall : (lex source file).all = .ok tokens) (h : parseTokens tokens = .ok statements) :
    Settles options source file := by
  have hcount : 1 ≤ tokens.length := (wellLexed_of_lex hall).1.length_pos
  have hoverlong : ¬Overlong source file := by
    rw [overlong_iff hall, h]
    rintro ⟨⟩
  have hofTokens : Program.ofTokens tokens file (Text.lines source) = .ok ⟨statements, ⟨file, 1, 1⟩⟩ := by
    unfold Program.ofTokens
    rw [h]
  have hparse : Program.ofSource source file = .ok ⟨statements, ⟨file, 1, 1⟩⟩ := ofSource_of_all hall h
  have hresult : Compilation.ofSource options source file = Compilation.ofProgram options file
      tokens.length (Text.lines source) ⟨statements, ⟨file, 1, 1⟩⟩ := by
    unfold Compilation.ofSource
    rw [hall]
    dsimp only
    rw [hofTokens]
  unfold Compilation.ofProgram at hresult
  dsimp only at hresult
  rcases lowerTree_of_sourceProgram (sourceProgram_of_ofSource hparse) options.comments with
    ⟨code, hcode⟩ | ⟨fault, hfault, hrejects⟩
  · rw [hcode] at hresult
    exact @Settles.of_report options source file _ .compiled (congrArg Compilation.result hresult) rfl
      ⟨code, rfl, rfl, hcount⟩ hoverlong
  · rw [hfault] at hresult
    cases hrejects with
    | report hcause hcategory =>
      exact @Settles.of_report options source file _ .unlowered (congrArg Compilation.result hresult) rfl
        ⟨_, _, rfl, hcause, hcategory, rfl, rfl, hcount⟩ hoverlong

/-- `Settles` for any source text. -/
theorem settles (options : Options) (source file : String) : Settles options source file := by
  cases hall : (lex source file).all with
  | error fault => exact settles_of_unread hall
  | ok tokens =>
    cases hparse : parseTokens tokens with
    | error fault => exact settles_of_unparsed hall hparse
    | ok statements => exact settles_of_parsed hall hparse

end Stages

/-! ## Outcomes -/

namespace Compilation

/-- `c.assembly?`: the assembly of a compilation, if there is one. -/
def assembly? (c : Compilation) : Option String :=
  match c.result with
  | .ok report => report.outcome.toOption
  | .error _ => none

/-- `c.diagnostic?`: the diagnostic that stopped a compilation, if one did. -/
def diagnostic? (c : Compilation) : Option Diagnostic :=
  match c.result with
  | .ok report =>
      match report.outcome with
      | .ok _ => none
      | .error d => some d
  | .error _ => none

/-- `diagnostic?` is none where there is assembly. -/
theorem diagnostic?_of_assembly? {c : Compilation} {assembly : String} (h : c.assembly? = some assembly) :
    c.diagnostic? = none := by
  unfold assembly? at h
  unfold diagnostic?
  cases hresult : c.result with
  | error fault => rfl
  | ok report =>
    rw [hresult] at h
    dsimp only at h ⊢
    cases houtcome : report.outcome with
    | ok text => rfl
    | error d =>
      rw [houtcome] at h
      cases h

theorem assembly?_stopped (file : String) (count : Nat) (tree : Option Datum) (notes : List Note)
    (fault : Fault) : (stopped file count tree notes fault).assembly? = none := by
  cases fault <;> rfl

/-- `ofSource` is `stopped` before there is a tree, or it is the compilation of the program that the text
    spells. -/
theorem ofSource_cases (source file : String) :
    (∃ count fault, ∀ options, ofSource options source file = stopped file count none [] fault) ∨
      ∃ count p, Program.ofSource source file = .ok p ∧
        ∀ options, ofSource options source file = ofProgram options file count (Text.lines source) p := by
  unfold ofSource Program.ofSource
  cases hall : (lex source file).all with
  | error fault => exact .inl ⟨0, fault, fun _ => rfl⟩
  | ok tokens =>
    dsimp only
    cases hparse : Program.ofTokens tokens file (Text.lines source) with
    | error fault => exact .inl ⟨tokens.length, fault, fun _ => rfl⟩
    | ok p => exact .inr ⟨tokens.length, p, hparse, fun _ => rfl⟩

section Reported

variable {options : Options} {source file : String} {r : Report}

/-- `assembly?` is that of the report. -/
theorem assembly?_of_report {assembly : String}
    (h : (ofSource options source file).result = .ok r) (houtcome : r.outcome = .ok assembly) :
    (ofSource options source file).assembly? = some assembly := by
  unfold assembly?
  rw [h]
  dsimp only
  rw [houtcome]
  rfl

/-- `diagnostic?` is that of the report. -/
theorem diagnostic?_of_report {d : Diagnostic} (h : (ofSource options source file).result = .ok r)
    (houtcome : r.outcome = .error d) : (ofSource options source file).diagnostic? = some d := by
  unfold diagnostic?
  rw [h]
  dsimp only
  rw [houtcome]

theorem outcomes_of_fault {fault : Fault} (h : (ofSource options source file).result = .error fault) :
    (ofSource options source file).assembly? = none ∧
      (ofSource options source file).diagnostic? = none := by
  unfold assembly? diagnostic?
  rw [h]
  exact ⟨rfl, rfl⟩

/-- `stopped` without a report: the fault is no diagnostic. -/
theorem ne_diagnostic_of_stopped {count : Nat} {tree : Option Datum} {notes : List Note}
    {found fault : Fault} (h : (stopped file count tree notes found).result = .error fault)
    (d : Diagnostic) : fault ≠ .diagnostic d := by
  rintro rfl
  cases found <;> cases h

theorem tree_of_stopped {count : Nat} {tree : Option Datum} {notes : List Note} {fault : Fault}
    (h : (stopped file count tree notes fault).result = .ok r) : r.tree = tree := by
  cases fault <;> cases h
  rfl

theorem ne_diagnostic_of_result {fault : Fault}
    (h : (ofSource options source file).result = .error fault) (d : Diagnostic) :
    fault ≠ .diagnostic d := by
  rcases ofSource_cases source file with ⟨count, found, hstopped⟩ | ⟨count, p, -, hcompiled⟩
  · rw [hstopped] at h
    exact ne_diagnostic_of_stopped h d
  · rw [hcompiled] at h
    unfold ofProgram at h
    dsimp only at h
    split at h
    · exact ne_diagnostic_of_stopped h d
    · cases h

/-- `IsIn` one of the states. -/
theorem exists_isIn (h : (ofSource options source file).result = .ok r) : ∃ state, r.IsIn source state := by
  rcases settles options source file with ⟨⟨r', hr', -, state, hstate, -⟩, -⟩ | ⟨⟨fault, hfault⟩, -⟩
  · cases h.symm.trans hr'
    exact ⟨state, hstate⟩
  · cases h.symm.trans hfault

/-- `SourceProgram` holds of the tree of a report. -/
theorem sourceProgram_of_tree {tree : Datum} (h : (ofSource options source file).result = .ok r)
    (htree : r.tree = some tree) : SourceProgram tree := by
  rcases ofSource_cases source file with ⟨count, found, hstopped⟩ | ⟨count, p, hparse, hcompiled⟩
  · rw [hstopped] at h
    rw [tree_of_stopped h] at htree
    cases htree
  · have hsource := sourceProgram_of_ofSource hparse
    rw [hcompiled] at h
    unfold ofProgram at h
    dsimp only at h
    split at h
    · rw [tree_of_stopped h] at htree
      cases htree
      exact hsource
    · cases h
      cases htree
      exact hsource

end Reported

end Compilation

/-! ## Reports -/

/-- `ofSource` ends with a report in exactly one of three states just if the text is not `Overlong`, and
    without a report just if it is. -/
theorem ofSource_reports_iff (options : Options) (source file : String) :
    ((∃ r, (Compilation.ofSource options source file).result = .ok r ∧ r.file = file ∧
        ∃! state, r.IsIn source state) ↔ ¬Overlong source file) ∧
      ((∃ fault, (Compilation.ofSource options source file).result = .error fault) ↔
        Overlong source file) := by
  have hexclusive : ∀ {r fault}, (Compilation.ofSource options source file).result = .ok r →
      (Compilation.ofSource options source file).result = .error fault → False := by
    intro r fault hok herror
    cases hok.symm.trans herror
  rcases settles options source file with ⟨hreport, hnot⟩ | ⟨⟨fault, hfault⟩, hoverlong⟩
  · refine ⟨iff_of_true hreport hnot, iff_of_false ?_ hnot⟩
    rintro ⟨fault, hfault⟩
    obtain ⟨r, hr, -⟩ := hreport
    exact hexclusive hr hfault
  · refine ⟨iff_of_false ?_ (not_not_intro hoverlong), iff_of_true ⟨fault, hfault⟩ hoverlong⟩
    rintro ⟨r, hr, -⟩
    exact hexclusive hr hfault

end ZebLang
