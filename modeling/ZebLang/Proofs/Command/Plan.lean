/-
  What a request comes to.

  The plan of a request is decided by the source text alone.  It opens with steps that only print
  (`Request.opening`), and what follows them has one of few shapes (`Request.Plans`, `Request.plans_core`).  It
  fails with a diagnostic just if the view of the source text that is wanted comes to one (`Request.Meets`): the
  listing of tokens comes to errors of the lexer, the outline to those of grammar, and assembly to every error.
  It writes just if assembly is wanted and there is one (`Request.Makes`), and lines are printed after it.
-/

import ZebLang.Command
import ZebLang.Proofs.Transparency

namespace ZebLang

/-! ## Exit codes of failures -/

namespace Failure

theorem exitCode_ne_zero (f : Failure) : f.exitCode ≠ 0 := by
  unfold exitCode
  split <;> decide

/-- `exitCode` is 1 for diagnostics only. -/
theorem exitCode_eq_one_iff {f : Failure} : f.exitCode = 1 ↔ ∃ d, f = .fault (.diagnostic d) := by
  constructor
  · intro h
    unfold exitCode at h
    cases f with
    | fault fault =>
      cases fault with
      | diagnostic d => exact ⟨d, rfl⟩
      | _ => cases h
    | system e =>
      have hseverity : (system e).severity = if e.isUnavailable then .usage else .unforeseen := rfl
      rw [hseverity] at h
      cases hunavailable : e.isUnavailable with
      | true =>
        rw [hunavailable, if_pos rfl] at h
        cases h
      | false =>
        rw [hunavailable, if_neg Bool.false_ne_true] at h
        cases h
    | _ => cases h
  · rintro ⟨d, rfl⟩
    rfl

end Failure

/-- `failure` of a refusal is no fault of the compiler. -/
theorem Refusal.failure_ne (refusal : Refusal) (fault : Fault) : refusal.failure ≠ .fault fault := by
  intro h
  cases refusal <;> cases h

/-! ## Listings -/

/-- `t.ListsUnlessHuge`: the token can be listed, unless it is a number that is too long to be written. -/
def Token.ListsUnlessHuge (t : Token) : Prop :=
  (∃ line, t.text = .ok line) ∧ ¬t.IsHuge ∨ t.text = .error .unwritable ∧ t.IsHuge

theorem Token.listsUnlessHuge_of_carries {t : Token} (hkind : t.kind ≠ .endOfFile)
    (h : t.kind.Carries t.value) : t.ListsUnlessHuge := by
  rcases TokenKind.number_or_text h hkind with ⟨hnumber, n, hvalue⟩ | ⟨word, hvalue⟩
  · have htext : t.text = writeInt n >>= fun shown => .ok ("Token(" ++ t.kind.name ++ ", " ++ shown ++ ", " ++
        (Text.decimal t.line ++ ":" ++ Text.decimal t.column ++ ")")) := by
      unfold text
      rw [hvalue]
      rfl
    cases hwrite : writeInt n with
    | ok shown =>
      refine .inl ⟨⟨_, by rw [htext, hwrite]; rfl⟩, ?_⟩
      rintro ⟨-, m, hm, hhuge⟩
      cases hvalue.symm.trans hm
      cases hwrite.symm.trans (writeInt_of_huge hhuge)
    | error fault =>
      obtain ⟨rfl, hhuge⟩ := writeInt_eq_error hwrite
      exact .inr ⟨by rw [htext, hwrite]; rfl, hnumber, n, hvalue, hhuge⟩
  · left
    constructor
    · unfold text
      rw [hvalue]
      exact ⟨_, rfl⟩
    · rintro ⟨-, n, hn, -⟩
      cases hvalue.symm.trans hn

/-- `ListsUnlessHuge` holds of every token that is read. -/
theorem listsUnlessHuge_of_mem_lexFrom (file : String) (c : Cursor) :
    ∀ t ∈ (lexFrom file c).tokens, t.ListsUnlessHuge := by
  induction c using lexFrom.induct file with
  | case1 c hrest =>
    rw [lexFrom_end hrest]
    refine List.forall_mem_singleton.mpr (.inl ⟨⟨_, rfl⟩, ?_⟩)
    rintro ⟨hkind, -⟩
    cases hkind
  | case2 c first rest hrest fault hscan =>
    rw [lexFrom_error hrest hscan]
    intro t ht
    cases ht
  | case3 c first rest hrest lexeme hscan hlt ih =>
    obtain ⟨hkind, hholds⟩ := holds_of_scan hscan
    rw [lexFrom_token hrest hscan]
    exact List.forall_mem_cons.mpr ⟨Token.listsUnlessHuge_of_carries hkind hholds.1, ih⟩

/-- `listTokens` stops at an error just if reading does, and every token in front of it can be listed. -/
theorem listTokens_eq_diagnostic_iff {tokens : List Token} {fault : Option Fault} {d : Diagnostic}
    (h : ∀ t ∈ tokens, t.ListsUnlessHuge) :
    (listTokens tokens fault).2 = some (.diagnostic d) ↔
      fault = some (.diagnostic d) ∧ ∀ t ∈ tokens, ¬t.IsHuge := by
  induction tokens with
  | nil => exact ⟨fun hfault => ⟨hfault, fun _ ht => nomatch ht⟩, And.left⟩
  | cons t rest ih =>
    have hrest := ih fun x hx => h x (by simp [hx])
    rw [listTokens, List.forall_mem_cons]
    rcases h t (by simp) with ⟨⟨line, hline⟩, hsmall⟩ | ⟨herror, hhuge⟩
    · rw [hline]
      show (listTokens rest fault).2 = _ ↔ _
      rw [hrest]
      exact and_congr_right fun _ => (and_iff_right hsmall).symm
    · rw [herror]
      constructor
      · intro hfault
        cases hfault
      · rintro ⟨-, hnot, -⟩
        exact absurd hhuge hnot

/-! ## Outlines -/

theorem SourceStatement.rule_eq {d : Datum} (h : SourceStatement d) : d.rule? = d.kind? := by
  cases h with
  | exit htag | assign htag | loop htag | endLoop htag => simp [Datum.rule?, Datum.kind?, Datum.node?, htag]

/-- `outlineLine` of a `SourceStatement` can be written. -/
theorem exists_outlineLine {d : Datum} (h : SourceStatement d) : ∃ line, d.outlineLine = .ok line := by
  unfold Datum.outlineLine
  rw [h.rule_eq]
  cases h with
  | @exit tag e htag he =>
    obtain ⟨text, htext, -⟩ := exists_expressionText he
    refine ⟨"Exit " ++ text, ?_⟩
    show (e.expressionText >>= fun text => _) = _
    rw [htext]
    rfl
  | @assign tag name e htag hname he =>
    obtain ⟨text, htext, -⟩ := exists_expressionText he
    refine ⟨"Assign " ++ name ++ " = " ++ text, ?_⟩
    show (e.expressionText >>= fun text => _) = _
    rw [htext]
    rfl
  | @loop tag name e htag hname he =>
    obtain ⟨text, htext, -⟩ := exists_expressionText he
    refine ⟨"For " ++ name ++ " in " ++ text, ?_⟩
    show (e.expressionText >>= fun text => _) = _
    rw [htext]
    rfl
  | @endLoop tag htag => exact ⟨_, rfl⟩

/-- `outlineAll` of a list of `SourceStatement`s can be written. -/
theorem exists_outlineAll {statements : List Datum} (h : ∀ d ∈ statements, SourceStatement d)
    (level : Nat) : ∃ lines, Datum.outlineAll level statements = .ok lines := by
  induction statements with
  | nil => exact ⟨[], by rw [Datum.outlineAll]⟩
  | cons d rest ih =>
    obtain ⟨line, hline⟩ := exists_outlineLine (h d (by simp))
    obtain ⟨lines, hlines⟩ := ih fun x hx => h x (by simp [hx])
    have hfirst : d.outlineLines level = .ok [Datum.indented level line] := by
      cases h d (by simp) with
      | exit | assign | loop | endLoop =>
        rw [Datum.outlineLines, hline]
        · rfl
        · exact fun _ _ hprogram => nomatch hprogram
    rw [Datum.outlineAll, hfirst, hlines]
    exact ⟨_, rfl⟩

/-- `outline` of a `SourceProgram` can be written. -/
theorem exists_outline {d : Datum} (h : SourceProgram d) : ∃ text, d.outline = .ok text := by
  cases h with
  | @program tag statements htag heach =>
    obtain ⟨lines, hlines⟩ := exists_outlineAll heach 1
    have hrule : (Datum.program tag statements).rule? = some .program := by
      simp [Datum.rule?, Datum.node?, htag]
    unfold Datum.outline
    rw [Datum.outlineLines, if_pos hrule, hlines]
    exact ⟨_, rfl⟩

namespace Command

/-! ## Views of a source text -/

/-- `View`: what the command shows or makes of a source text. -/
inductive View where
  | tokens
  | outline
  | assembly
  deriving DecidableEq

/-- `view.Meets options source file`: the view comes to an error in a source text.  The listing of tokens
    does so if it gets past all the tokens in front of the error; it stops at a number that is too long to
    be written. -/
def View.Meets (options : Options) (source file : String) : View → Prop
  | .tokens => (∃ d, (lex source file).fault = some (.diagnostic d)) ∧
      ∀ t ∈ (lex source file).tokens, ¬t.IsHuge
  | .outline => ∃ d, (Compilation.ofSource options source file).diagnostic? = some d ∧
      d.cause.category = some .grammar
  | .assembly => ∃ d, (Compilation.ofSource options source file).diagnostic? = some d

namespace Request

/-- `r.view`: the view that a request asks for; the listing of tokens comes before the outline. -/
def view (r : Request) : View :=
  if r.tokens then .tokens else if r.ast then .outline else .assembly

/-- `r.Meets options source`: the view of the request comes to an error in the source text. -/
def Meets (r : Request) (options : Options) (source : String) : Prop :=
  r.view.Meets options source r.input.text

/-- `r.Makes options source assembly`: the request asks for assembly, and this is that of the source text. -/
def Makes (r : Request) (options : Options) (source assembly : String) : Prop :=
  r.view = .assembly ∧ (Compilation.ofSource options source r.input.text).assembly? = some assembly

theorem view_eq_assembly_iff {r : Request} : r.view = .assembly ↔ r.tokens = false ∧ r.ast = false := by
  unfold view
  cases r.tokens <;> cases r.ast <;> decide

/-- `Makes` excludes `Meets`: where there is an error, there is no assembly. -/
theorem Makes.not_meets {r : Request} {options : Options} {source assembly : String}
    (h : r.Makes options source assembly) : ¬r.Meets options source := by
  obtain ⟨hview, hassembly⟩ := h
  unfold Meets
  rw [hview]
  rintro ⟨d, hd⟩
  cases (Compilation.diagnostic?_of_assembly? hassembly).symm.trans hd

end Request

/-! ## Shapes of plans -/

/-- `isQuiet`: a step that only prints. -/
def Step.isQuiet : Step → Bool
  | echo _ | note _ => true
  | write _ | fail _ => false

namespace Request

/-- `r.opening options source`: the steps of a plan up to the first that does more than print. -/
def opening (r : Request) (options : Options) (source : String) : List Step :=
  (r.plan options source).takeWhile Step.isQuiet

/-- `r.core options source`: the steps of a plan from the first that does more than print. -/
def core (r : Request) (options : Options) (source : String) : List Step :=
  (r.plan options source).dropWhile Step.isQuiet

/-- `r.Plans options source steps`: the shapes that the steps after the opening of a plan can have. -/
inductive Plans (r : Request) (options : Options) (source : String) : List Step → Prop where
  /-- The view comes to an error. -/
  | rejected {d : Diagnostic} (hmeets : r.Meets options source) :
      Plans r options source [.fail (.fault (.diagnostic d))]
  /-- Something else goes wrong, as a number that is too long to be read or written. -/
  | broken {f : Failure} (hmeets : ¬r.Meets options source)
      (hmakes : ∀ assembly, ¬r.Makes options source assembly) (hfailure : ∀ d, f ≠ .fault (.diagnostic d)) :
      Plans r options source [.fail f]
  /-- The view is shown. -/
  | shown (hmeets : ¬r.Meets options source) (hview : r.view ≠ .assembly) : Plans r options source []
  /-- Assembly is written. -/
  | written {report : Report} {assembly : String} (hmakes : r.Makes options source assembly) :
      Plans r options source (.write assembly :: (r.summary report assembly).map .echo)

variable {r : Request} {options : Options} {source : String}

/-- `Plans` for the listing of the tokens. -/
theorem plans_listing (htokens : r.tokens = true) :
    r.Plans options source ((r.listing source).dropWhile Step.isQuiet) := by
  have hview : r.view = .tokens := by
    unfold view
    rw [if_pos htokens]
  have hassembly : r.view ≠ .assembly := by
    rw [hview]
    decide
  have hmeets : r.Meets options source ↔
      ∃ d, (lex source r.input.text).listing.2 = some (.diagnostic d) := by
    have hlisting : ∀ d, (lex source r.input.text).listing.2 = some (.diagnostic d) ↔ _ := fun d =>
      listTokens_eq_diagnostic_iff (listsUnlessHuge_of_mem_lexFrom _ _)
    unfold Meets
    rw [hview, exists_congr hlisting]
    exact exists_and_right.symm
  unfold listing
  generalize (lex source r.input.text).listing = listing at hmeets ⊢
  obtain ⟨listed, fault⟩ := listing
  have hquiet : ∀ step ∈ listed.map fun shown => Step.echo shown.2, step.isQuiet = true :=
    List.forall_mem_map.mpr fun _ _ => rfl
  dsimp only
  rw [List.dropWhile_append_of_pos hquiet]
  cases fault with
  | none =>
    refine .shown (fun h => ?_) hassembly
    obtain ⟨d, hd⟩ := hmeets.mp h
    cases hd
  | some fault =>
    by_cases hdiagnostic : ∃ d, fault = .diagnostic d
    · obtain ⟨d, rfl⟩ := hdiagnostic
      exact .rejected (hmeets.mpr ⟨d, rfl⟩)
    · refine .broken (fun h => ?_) (fun _ h => hassembly h.1) fun d hd => ?_
      · obtain ⟨d, hd⟩ := hmeets.mp h
        exact hdiagnostic ⟨d, Option.some.inj hd⟩
      · exact hdiagnostic ⟨d, Failure.fault.inj hd⟩

section Compiled

variable {report : Report}
  (hresult : (Compilation.ofSource options source r.input.text).result = .ok report)
include hresult

/-- `Meets` for the outline: it comes to an error just where there is no tree. -/
theorem outline_meets_iff :
    View.outline.Meets options source r.input.text ↔ report.tree = none := by
  obtain ⟨state, hstate⟩ := Compilation.exists_isIn hresult
  cases state with
  | compiled =>
    obtain ⟨code, houtcome, htree, -⟩ := hstate
    have hnone := Compilation.diagnostic?_of_assembly? (Compilation.assembly?_of_report hresult houtcome)
    constructor
    · rintro ⟨d, hd, -⟩
      cases hnone.symm.trans hd
    · intro hnot
      rw [hnot] at htree
      cases htree
  | unparsed =>
    obtain ⟨d, houtcome, hcategory, -, htree, -⟩ := hstate
    exact iff_of_true ⟨d, Compilation.diagnostic?_of_report hresult houtcome, hcategory⟩ htree
  | unlowered =>
    obtain ⟨d, category, houtcome, hcategory, hmem, -, htree, -⟩ := hstate
    have hsome := Compilation.diagnostic?_of_report hresult houtcome
    constructor
    · rintro ⟨d', hd', hgrammar⟩
      cases hsome.symm.trans hd'
      cases hcategory.symm.trans hgrammar
      exact absurd hmem (by decide)
    · intro hnot
      rw [hnot] at htree
      cases htree

end Compiled

/-- `Plans` for a fault that is no diagnostic, which breaks the plan off. -/
theorem plans_fault {fault : Fault} (htokens : r.tokens = false)
    (hresult : (Compilation.ofSource options source r.input.text).result = .error fault) :
    r.Plans options source [.fail (.fault fault)] := by
  obtain ⟨hassembly, hnone⟩ := Compilation.outcomes_of_fault hresult
  refine .broken ?_ ?_ fun d hd => ?_
  · unfold Meets view
    rw [htokens, if_neg Bool.false_ne_true]
    split
    · rintro ⟨d, hd, -⟩
      cases hnone.symm.trans hd
    · rintro ⟨d, hd⟩
      cases hnone.symm.trans hd
  · rintro assembly ⟨-, hsome⟩
    cases hassembly.symm.trans hsome
  · exact Compilation.ne_diagnostic_of_result hresult d (Failure.fault.inj hd)

/-- `Plans` for the conclusion of a request for the outline: a tree is shown, and without one there is an error. -/
theorem plans_outline {report : Report} (htokens : r.tokens = false) (hast : r.ast = true)
    (hresult : (Compilation.ofSource options source r.input.text).result = .ok report) : r.Plans options source
    ((r.conclusion (Compilation.ofSource options source r.input.text)).dropWhile Step.isQuiet) := by
  have hview : r.view = .outline := by
    unfold view
    rw [htokens, hast]
    rfl
  have hmeets : r.Meets options source ↔ report.tree = none := by
    unfold Meets
    rw [hview]
    exact outline_meets_iff hresult
  unfold conclusion outline?
  rw [hresult]
  dsimp only
  rw [if_pos hast]
  cases htree : report.tree with
  | some tree =>
    obtain ⟨text, htext⟩ := exists_outline (Compilation.sourceProgram_of_tree hresult htree)
    rw [Option.map_some, htext]
    refine .shown ?_ (by rw [hview]; decide)
    rw [hmeets, htree]
    exact Option.some_ne_none tree
  | none =>
    have herror := hmeets.mpr htree
    rw [Option.map_none]
    dsimp only
    cases houtcome : report.outcome with
    | error d => exact .rejected herror
    | ok assembly =>
      have hassembly := Compilation.assembly?_of_report hresult houtcome
      have hnone := Compilation.diagnostic?_of_assembly? hassembly
      unfold Meets at herror
      rw [hview] at herror
      obtain ⟨d, hd, -⟩ := herror
      cases hnone.symm.trans hd

/-- `Plans` for the conclusion of a request for assembly. -/
theorem plans_assembly {report : Report} (htokens : r.tokens = false) (hast : r.ast = false)
    (hresult : (Compilation.ofSource options source r.input.text).result = .ok report) : r.Plans options source
    ((r.conclusion (Compilation.ofSource options source r.input.text)).dropWhile Step.isQuiet) := by
  have hview := view_eq_assembly_iff.mpr ⟨htokens, hast⟩
  unfold conclusion outline?
  rw [hresult]
  dsimp only
  rw [if_neg (Bool.eq_false_iff.mp hast)]
  dsimp only
  cases houtcome : report.outcome with
  | error d =>
    refine .rejected ?_
    unfold Meets
    rw [hview]
    exact ⟨d, Compilation.diagnostic?_of_report hresult houtcome⟩
  | ok assembly => exact .written ⟨hview, Compilation.assembly?_of_report hresult houtcome⟩

/-- `Plans` for what becomes of a compilation. -/
theorem plans_conclusion (htokens : r.tokens = false) : r.Plans options source
    ((r.conclusion (Compilation.ofSource options source r.input.text)).dropWhile Step.isQuiet) := by
  cases hresult : (Compilation.ofSource options source r.input.text).result with
  | error fault =>
    unfold conclusion outline?
    rw [hresult]
    exact plans_fault htokens hresult
  | ok report =>
    cases hast : r.ast with
    | true => exact plans_outline htokens hast hresult
    | false => exact plans_assembly htokens hast hresult

/-- `Plans` for every `core`. -/
theorem plans_core (r : Request) (options : Options) (source : String) :
    r.Plans options source (r.core options source) := by
  unfold core plan
  split
  · next htokens => exact plans_listing htokens
  · next htokens =>
    have hquiet : ∀ step ∈ r.preface (Compilation.ofSource options source r.input.text),
        step.isQuiet = true := by
      unfold preface
      split
      · exact List.forall_mem_cons.mpr ⟨rfl, List.forall_mem_map.mpr fun _ _ => rfl⟩
      · exact List.forall_mem_nil _
    rw [List.dropWhile_append_of_pos hquiet]
    exact plans_conclusion (Bool.eq_false_iff.mpr htokens)

/-- `core` writes the assembly before it prints lines. -/
theorem core_of_makes {assembly : String} (h : r.Makes options source assembly) :
    ∃ report, r.core options source = .write assembly :: (r.summary report assembly).map .echo := by
  have hplans := r.plans_core options source
  generalize r.core options source = steps at hplans
  cases hplans with
  | rejected hmeets => exact absurd hmeets h.not_meets
  | broken _ hmakes => exact absurd h (hmakes assembly)
  | shown _ hview => exact absurd h.1 hview
  | written hmakes =>
    cases hmakes.2.symm.trans h.2
    exact ⟨_, rfl⟩

/-- `core` writes nothing where there is no assembly, and where it is asked for this is a failure. -/
theorem core_of_not_makes (h : ∀ assembly, ¬r.Makes options source assembly) :
    (∃ f, r.core options source = [.fail f]) ∨ r.core options source = [] ∧ r.view ≠ .assembly := by
  have hplans := r.plans_core options source
  generalize r.core options source = steps at hplans
  cases hplans with
  | rejected => exact .inl ⟨_, rfl⟩
  | broken => exact .inl ⟨_, rfl⟩
  | shown _ hview => exact .inr ⟨rfl, hview⟩
  | written hmakes => exact absurd hmakes (h _)

/-- `opening` prints nothing before assembly is written, unless details are asked for. -/
theorem opening_eq_nil (hview : r.view = .assembly) (hverbose : r.verbose = false) :
    r.opening options source = [] := by
  obtain ⟨htokens, hast⟩ := view_eq_assembly_iff.mp hview
  unfold opening plan preface conclusion outline?
  rw [htokens, hverbose, hast, if_neg Bool.false_ne_true]
  dsimp only
  cases (Compilation.ofSource options source r.input.text).result with
  | error fault => rfl
  | ok report =>
    cases houtcome : report.outcome with
    | error d => simp only [houtcome]; rfl
    | ok assembly => simp only [houtcome]; rfl

/-- `core` is a diagnostic just if the view comes to an error. -/
theorem exists_core_iff_meets :
    (∃ d, r.core options source = [.fail (.fault (.diagnostic d))]) ↔ r.Meets options source := by
  have hplans := r.plans_core options source
  generalize r.core options source = steps at hplans
  cases hplans with
  | @rejected d hmeets => exact iff_of_true ⟨d, rfl⟩ hmeets
  | @broken f hmeets _ hfailure =>
    refine iff_of_false ?_ hmeets
    rintro ⟨d, hd⟩
    exact hfailure d (Step.fail.inj (List.singleton_inj.mp hd))
  | shown hmeets =>
    refine iff_of_false ?_ hmeets
    rintro ⟨d, hd⟩
    cases hd
  | written hmakes =>
    refine iff_of_false ?_ hmakes.not_meets
    rintro ⟨d, hd⟩
    cases hd

end Request

end Command

end ZebLang
