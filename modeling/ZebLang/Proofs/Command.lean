/-
  What the command does to the files, and how it ends.

  The command runs on any lawful system; any step may be refused there.  A request reads its source text and
  performs the opening of its plan (`Request.Opens`).  If it gets that far, the rest of the plan decides
  (`Request.run_work_of_opens`); if not, the files are as they were (`Request.run_work_of_not_opens`).  Reading and
  printing keep the files, so what changes is what the one write changes.

  Lines are printed after the assembly is written, and a write may be cut short.  So the exit code may be another
  than 0 although the output has changed; it is so in these two cases only.
-/

import ZebLang.Proofs.Command.Plan
import ZebLang.Proofs.FileTree

namespace ZebLang.Command

variable {σ : Type} {system : System (StateM σ)} {files : Files σ} {output : String} {s t : σ}

/-- `run` of a `bind`: the second part starts where the first ends. -/
theorem run_bind_eq {α β : Type} (x : StateM σ α) (k : α → StateM σ β) (s : σ) :
    (x >>= k).run s = (k (x.run s).1).run (x.run s).2 := rfl

/-! ## Steps -/

section Perform

variable {step : Step} {front rest : List Step} {f : Failure}

/-- `perform` after a step that is done. -/
theorem run_perform_cons_of_ok (h : (step.perform system output).run s = (.ok (), t)) :
    (perform system output (step :: rest)).run s = (perform system output rest).run t := by
  rw [perform, run_bind_eq, h]

/-- `perform` ends at a step that fails. -/
theorem run_perform_cons_of_error (h : (step.perform system output).run s = (.error f, t)) :
    (perform system output (step :: rest)).run s = (.error f, t) := by
  rw [perform, run_bind_eq, h]
  rfl

/-- `perform` after steps that are done. -/
theorem run_perform_append_of_ok (h : (perform system output front).run s = (.ok (), t)) :
    (perform system output (front ++ rest)).run s = (perform system output rest).run t := by
  induction front generalizing s with
  | nil =>
    cases h
    rfl
  | cons step more ih =>
    obtain ⟨answer, u, hstep⟩ : ∃ answer u, (step.perform system output).run s = (answer, u) := ⟨_, _, rfl⟩
    cases answer with
    | ok =>
      rw [run_perform_cons_of_ok hstep] at h
      rw [List.cons_append, run_perform_cons_of_ok hstep, ih h]
    | error f =>
      rw [run_perform_cons_of_error hstep] at h
      cases h

/-- `perform` ends at the first of the steps that fails. -/
theorem run_perform_append_of_error (h : (perform system output front).run s = (.error f, t)) :
    (perform system output (front ++ rest)).run s = (.error f, t) := by
  induction front generalizing s with
  | nil => cases h
  | cons step more ih =>
    obtain ⟨answer, u, hstep⟩ : ∃ answer u, (step.perform system output).run s = (answer, u) := ⟨_, _, rfl⟩
    cases answer with
    | ok =>
      rw [run_perform_cons_of_ok hstep] at h
      rw [List.cons_append, run_perform_cons_of_ok hstep, ih h]
    | error f' =>
      rw [run_perform_cons_of_error hstep] at h
      rw [List.cons_append, run_perform_cons_of_error hstep, h]

end Perform

/-- `perform` on a `write` fails just if the system refuses it. -/
theorem Step.run_perform_write {text : String} {answer : Except Refusal Unit}
    (h : (system.write output text).run s = (answer, t)) :
    ((Step.write text).perform system output).run s = (answer.mapError Refusal.failure, t) := by
  rw [Step.perform, run_bind_eq, h]
  rfl

/-! ## Steps that print -/

section Quiet

variable (hlawful : system.Lawful files)
include hlawful

/-- `isQuiet`: the step keeps the files; it is done, or the system refuses it. -/
theorem Step.perform_of_isQuiet {step : Step} (h : step.isQuiet = true) (output : String) (s : σ) :
    ∃ answer t, (step.perform system output).run s = (answer, t) ∧ files.Same s t ∧
      ∀ f, answer = .error f → ∃ refusal : Refusal, f = refusal.failure := by
  cases step with
  | echo line =>
    have hsame := hlawful.print .output (Text.visible line ++ "\n") s
    obtain ⟨answer, t, hprint⟩ :
      ∃ answer t, (system.print .output (Text.visible line ++ "\n")).run s = (answer, t) := ⟨_, _, rfl⟩
    rw [hprint] at hsame
    have hstep : ((echo line).perform system output).run s = (answer.mapError Refusal.failure, t) := by
      rw [Step.perform, run_bind_eq, hprint]
      rfl
    refine ⟨_, t, hstep, hsame, fun f hf => ?_⟩
    cases answer with
    | ok => cases hf
    | error refusal =>
      cases hf
      exact ⟨refusal, rfl⟩
  | note line =>
    refine ⟨.ok (), _, rfl, hlawful.print .error _ s, fun f hf => ?_⟩
    cases hf
  | write | fail => cases h

/-- `isQuiet` of all steps in a row: they keep the files; they are done, or the system refuses one. -/
theorem perform_of_isQuiet {steps : List Step} (h : ∀ step ∈ steps, step.isQuiet = true) (output : String)
    (s : σ) : ∃ answer t, (perform system output steps).run s = (answer, t) ∧ files.Same s t ∧
      ∀ f, answer = .error f → ∃ refusal : Refusal, f = refusal.failure := by
  induction steps generalizing s with
  | nil =>
    refine ⟨.ok (), s, rfl, .refl files s, fun f hf => ?_⟩
    cases hf
  | cons step rest ih =>
    rw [List.forall_mem_cons] at h
    obtain ⟨answer, t, hstep, hsame, hrefusal⟩ := Step.perform_of_isQuiet hlawful h.1 output s
    cases answer with
    | ok =>
      obtain ⟨answer, u, hrest, hsame', hrefusal'⟩ := ih h.2 t
      exact ⟨answer, u, (run_perform_cons_of_ok hstep).trans hrest, hsame.trans hsame', hrefusal'⟩
    | error f => exact ⟨_, t, run_perform_cons_of_error hstep, hsame, hrefusal⟩

/-- `printAll` keeps the files. -/
theorem same_printAll (stream : Stream) (texts : List String) (s : σ) :
    files.Same s ((system.printAll stream texts).run s).2 := by
  induction texts generalizing s with
  | nil => exact .refl files s
  | cons text rest ih =>
    have hprint := hlawful.print stream text s
    rw [System.printAll, run_bind_eq]
    split
    · exact hprint.trans (ih _)
    · exact hprint

/-- `endWith` keeps the files. -/
theorem same_endWith (code : Nat) (stream : Stream) (texts : List String) (s : σ) :
    files.Same s ((endWith system code stream texts).run s).2 := by
  have hprint := same_printAll hlawful stream texts s
  rw [endWith, run_bind_eq]
  split
  · exact hprint
  · exact hprint

end Quiet

/-! ## Requests -/

namespace Request

/-- `r.Opens system options s source t`: the request reads the source text and performs the opening of its plan,
    which leaves the state `t`. -/
def Opens (r : Request) (system : System (StateM σ)) (options : Options) (s : σ) (source : String) (t : σ) :
    Prop :=
  ∃ bytes u, (system.read r.input.text).run s = (.ok bytes, u) ∧ sourceText bytes = .ok source ∧
    (perform system r.output.text (r.opening options source)).run u = (.ok (), t)

variable {r : Request} {options : Options} {setting : Option String} {source : String}

theorem Opens.unique {source' : String} {t' : σ} (h : r.Opens system options s source t)
    (h' : r.Opens system options s source' t') : source = source' ∧ t = t' := by
  obtain ⟨bytes, u, hread, hsource, hopening⟩ := h
  obtain ⟨bytes', u', hread', hsource', hopening'⟩ := h'
  cases hread.symm.trans hread'
  cases hsource.symm.trans hsource'
  cases hopening.symm.trans hopening'
  exact ⟨rfl, rfl⟩

/-- `opening` and `core` are the plan. -/
theorem opening_append_core (r : Request) (options : Options) (source : String) :
    r.opening options source ++ r.core options source = r.plan options source :=
  List.takeWhile_append_dropWhile

theorem isQuiet_of_mem_echoes (lines : List String) : ∀ step ∈ lines.map Step.echo, step.isQuiet = true :=
  List.forall_mem_map.mpr fun _ _ => rfl

/-- `opening` is `isQuiet`. -/
theorem isQuiet_of_mem_opening (r : Request) (options : Options) (source : String) :
    ∀ step ∈ r.opening options source, step.isQuiet = true :=
  fun _ hstep => List.mem_takeWhile_imp hstep

section Work

variable (hlawful : system.Lawful files)
include hlawful

/-- `Opens` keeps the files. -/
theorem Opens.same (h : r.Opens system options s source t) : files.Same s t := by
  obtain ⟨bytes, u, hread, -, hopening⟩ := h
  have hsame := hlawful.read r.input.text s
  rw [hread] at hsame
  obtain ⟨answer, t', hrun, hsame', -⟩ :=
    perform_of_isQuiet hlawful (r.isQuiet_of_mem_opening options source) r.output.text u
  cases hrun.symm.trans hopening
  exact hsame.trans hsame'

omit hlawful in
/-- `work` does what `core` does, once the request `Opens`. -/
theorem run_work_of_opens (h : r.Opens system (r.options setting) s source t) :
    (r.work system setting).run s =
      (perform system r.output.text (r.core (r.options setting) source)).run t := by
  obtain ⟨bytes, u, hread, hsource, hopening⟩ := h
  rw [work, run_bind_eq, hread]
  dsimp only
  rw [hsource]
  dsimp only
  rw [← opening_append_core, run_perform_append_of_ok hopening]

/-- `work` fails, though not with a diagnostic, and keeps the files, if the request does not get past its
    opening. -/
theorem run_work_of_not_opens (h : ∀ source t, ¬r.Opens system (r.options setting) s source t) :
    ∃ f t, (r.work system setting).run s = (.error f, t) ∧ files.Same s t ∧
      ∀ d, f ≠ .fault (.diagnostic d) := by
  have hsame := hlawful.read r.input.text s
  obtain ⟨answer, u, hread⟩ : ∃ answer u, (system.read r.input.text).run s = (answer, u) := ⟨_, _, rfl⟩
  rw [work, run_bind_eq, hread]
  rw [hread] at hsame
  cases answer with
  | error refusal => exact ⟨_, u, rfl, hsame, fun d => refusal.failure_ne _⟩
  | ok bytes =>
    dsimp only
    cases hsource : sourceText bytes with
    | error failure =>
      refine ⟨failure, u, rfl, hsame, ?_⟩
      rintro d rfl
      unfold sourceText at hsource
      split at hsource
      · cases hsource
      · cases hsource
    | ok source =>
      dsimp only
      obtain ⟨answer, t, hrun, hsame', hrefusal⟩ :=
        perform_of_isQuiet hlawful (r.isQuiet_of_mem_opening (r.options setting) source) r.output.text u
      cases answer with
      | ok => exact absurd ⟨bytes, u, hread, hsource, hrun⟩ (h source t)
      | error f =>
        obtain ⟨refusal, rfl⟩ := hrefusal f rfl
        rw [← opening_append_core, run_perform_append_of_error hrun]
        exact ⟨_, t, rfl, hsame.trans hsame', fun d => refusal.failure_ne _⟩

end Work

/-! ## How a request ends -/

section Ends

variable {code : Nat} {s' : σ}

/-- `run` answers 0 where the work succeeds. -/
theorem run_eq_of_ok (h : (r.work system setting).run s = (.ok (), t)) :
    (r.run system setting).run s = (0, t) := by
  rw [Request.run, run_bind_eq, h]
  rfl

/-- `run` reports a failure of the work by `endWith`. -/
theorem run_eq_of_error {f : Failure} (h : (r.work system setting).run s = (.error f, t)) :
    (r.run system setting).run s = (endWith system f.exitCode .error (f.texts r.verbose)).run t := by
  rw [Request.run, run_bind_eq, h]

/-- `endWith` answers its code, or 1 if the report cannot be printed. -/
theorem run_endWith_fst (code : Nat) (stream : Stream) (texts : List String) (s : σ) :
    ((endWith system code stream texts).run s).1 =
      if ((system.printAll stream texts).run s).1 = .ok () then code else 1 := by
  rw [endWith, run_bind_eq]
  cases hprint : ((system.printAll stream texts).run s).1 with
  | ok => rfl
  | error refusal => rfl

/-- `run` answers 0 just if `work` succeeds. -/
theorem code_eq_zero_iff (h : (r.run system setting).run s = (code, s')) :
    code = 0 ↔ ((r.work system setting).run s).1 = .ok () := by
  obtain ⟨answer, t, hwork⟩ : ∃ answer t, (r.work system setting).run s = (answer, t) := ⟨_, _, rfl⟩
  rw [hwork]
  cases answer with
  | ok =>
    rw [run_eq_of_ok hwork] at h
    cases h
    exact iff_of_true rfl rfl
  | error f =>
    rw [run_eq_of_error hwork] at h
    have hcode := @run_endWith_fst _ system f.exitCode .error (f.texts r.verbose) t
    rw [h] at hcode
    dsimp only at hcode
    refine iff_of_false ?_ fun hok => ?_
    · rw [hcode]
      split
      · exact f.exitCode_ne_zero
      · exact Nat.one_ne_zero
    · cases hok

/-- `run` answers 1 just if a diagnostic is reported, or a failure cannot be. -/
theorem code_eq_one_iff (h : (r.run system setting).run s = (code, s')) :
    code = 1 ↔ (∃ d t, (r.work system setting).run s = (.error (.fault (.diagnostic d)), t)) ∨
      ∃ f t, (r.work system setting).run s = (.error f, t) ∧
        ((system.printAll .error (f.texts r.verbose)).run t).1 ≠ .ok () := by
  obtain ⟨answer, t, hwork⟩ : ∃ answer t, (r.work system setting).run s = (answer, t) := ⟨_, _, rfl⟩
  cases answer with
  | ok =>
    rw [run_eq_of_ok hwork] at h
    cases h
    refine iff_of_false Nat.zero_ne_one ?_
    rintro (⟨d, t', hd⟩ | ⟨f, t', hf, -⟩)
    · cases hwork.symm.trans hd
    · cases hwork.symm.trans hf
  | error f =>
    have hcode := @run_endWith_fst _ system f.exitCode .error (f.texts r.verbose) t
    rw [← run_eq_of_error hwork, h] at hcode
    dsimp only at hcode
    constructor
    · intro hone
      by_cases hprinted : ((system.printAll .error (f.texts r.verbose)).run t).1 = .ok ()
      · rw [if_pos hprinted, hone] at hcode
        obtain ⟨d, rfl⟩ := Failure.exitCode_eq_one_iff.mp hcode.symm
        exact .inl ⟨d, t, hwork⟩
      · exact .inr ⟨f, t, hwork, hprinted⟩
    · rintro (⟨d, t', hd⟩ | ⟨f', t', hf, hprinted⟩)
      · cases hwork.symm.trans hd
        rw [hcode]
        exact ite_id _
      · cases hwork.symm.trans hf
        rw [hcode, if_neg hprinted]

/-- `run` keeps the files after `work`. -/
theorem same_of_run (hlawful : system.Lawful files) (h : (r.run system setting).run s = (code, s')) :
    files.Same ((r.work system setting).run s).2 s' := by
  obtain ⟨answer, t, hwork⟩ : ∃ answer t, (r.work system setting).run s = (answer, t) := ⟨_, _, rfl⟩
  rw [hwork]
  cases answer with
  | ok =>
    rw [run_eq_of_ok hwork] at h
    cases h
    exact .refl files _
  | error f =>
    have hsame := same_endWith hlawful f.exitCode .error (f.texts r.verbose) t
    rw [← run_eq_of_error hwork, h] at hsame
    exact hsame

/-- `work` keeps the files if the request `Makes` no assembly, and where assembly is asked for, it fails. -/
theorem run_work_of_not_makes (hlawful : system.Lawful files)
    (h : ∀ source t assembly, r.Opens system (r.options setting) s source t →
      ¬r.Makes (r.options setting) source assembly) :
    files.Same s ((r.work system setting).run s).2 ∧
      (r.view = .assembly → ((r.work system setting).run s).1 ≠ .ok ()) := by
  by_cases hopens : ∃ source t, r.Opens system (r.options setting) s source t
  · obtain ⟨source, t, hopens⟩ := hopens
    have hsame := hopens.same hlawful
    rw [run_work_of_opens hopens]
    rcases core_of_not_makes (fun assembly => h source t assembly hopens) with ⟨f, hcore⟩ | ⟨hcore, hview⟩
    · rw [hcore]
      refine ⟨hsame, fun _ hok => ?_⟩
      cases hok
    · rw [hcore]
      exact ⟨hsame, fun hassembly => absurd hassembly hview⟩
  · obtain ⟨f, t, hwork, hsame, -⟩ :=
      run_work_of_not_opens hlawful fun source t h => hopens ⟨source, t, h⟩
    rw [hwork]
    refine ⟨hsame, fun _ hok => ?_⟩
    cases hok

/-- `work` of a request that `Makes` assembly writes it and prints the lines after it. -/
theorem run_work_of_makes (hlawful : system.Lawful files) {assembly : String} {answer : Except Refusal Unit}
    {u : σ} (hopens : r.Opens system (r.options setting) s source t)
    (hmakes : r.Makes (r.options setting) source assembly)
    (hwrite : (system.write r.output.text assembly).run t = (answer, u)) :
    files.Same u ((r.work system setting).run s).2 ∧
      (((r.work system setting).run s).1 = .ok () ↔ answer = .ok () ∧
        ((perform system r.output.text (r.core (r.options setting) source).tail).run u).1 = .ok ()) := by
  obtain ⟨report, hcore⟩ := core_of_makes hmakes
  have hlines := isQuiet_of_mem_echoes (r.summary report assembly)
  have hstep := Step.run_perform_write hwrite
  rw [run_work_of_opens hopens, hcore, List.tail_cons]
  cases answer with
  | ok =>
    obtain ⟨answer, v, hrun, hsame, -⟩ := perform_of_isQuiet hlawful hlines r.output.text u
    rw [run_perform_cons_of_ok hstep, hrun]
    exact ⟨hsame, (and_iff_right rfl).symm⟩
  | error refusal =>
    rw [run_perform_cons_of_error hstep]
    refine ⟨.refl files u, iff_of_false (fun hok => ?_) fun hok => ?_⟩
    · cases hok
    · cases hok.1

/-- `perform` on a `write` and lines after it fails only where the system refuses one. -/
theorem refusal_of_written (hlawful : system.Lawful files) {lines : List String} {assembly : String}
    {f : Failure} (h : (perform system output (.write assembly :: lines.map .echo)).run s = (.error f, t)) :
    ∃ refusal : Refusal, f = refusal.failure := by
  obtain ⟨answer, u, hwrite⟩ : ∃ answer u, (system.write output assembly).run s = (answer, u) := ⟨_, _, rfl⟩
  have hstep := Step.run_perform_write hwrite
  cases answer with
  | ok =>
    obtain ⟨answer, v, hrun, -, hrefusal⟩ :=
      perform_of_isQuiet hlawful (isQuiet_of_mem_echoes lines) output u
    rw [run_perform_cons_of_ok hstep, hrun] at h
    cases h
    exact hrefusal f rfl
  | error refusal =>
    rw [run_perform_cons_of_error hstep] at h
    cases h
    exact ⟨refusal, rfl⟩

/-- `work` fails with a diagnostic just if the request `Opens` and its view comes to an error. -/
theorem exists_work_eq_diagnostic_iff (hlawful : system.Lawful files) :
    (∃ d t, (r.work system setting).run s = (.error (.fault (.diagnostic d)), t)) ↔
      ∃ source t, r.Opens system (r.options setting) s source t ∧ r.Meets (r.options setting) source := by
  constructor
  · rintro ⟨d, t, hwork⟩
    by_cases hopens : ∃ source t, r.Opens system (r.options setting) s source t
    · obtain ⟨source, t', hopens⟩ := hopens
      refine ⟨source, t', hopens, ?_⟩
      rw [run_work_of_opens hopens] at hwork
      have hplans := r.plans_core (r.options setting) source
      generalize r.core (r.options setting) source = steps at hplans hwork
      cases hplans with
      | rejected hmeets => exact hmeets
      | broken _ _ hfailure =>
        cases hwork
        exact absurd rfl (hfailure d)
      | shown => cases hwork
      | written =>
        -- the write or a line after it is refused
        obtain ⟨refusal, hrefusal⟩ := refusal_of_written hlawful hwork
        exact absurd hrefusal.symm (refusal.failure_ne _)
    · obtain ⟨f, t', hwork', -, hdiagnostic⟩ :=
        run_work_of_not_opens hlawful fun source t h => hopens ⟨source, t, h⟩
      cases hwork.symm.trans hwork'
      exact absurd rfl (hdiagnostic d)
  · rintro ⟨source, t, hopens, hmeets⟩
    obtain ⟨d, hcore⟩ := exists_core_iff_meets.mpr hmeets
    refine ⟨d, t, ?_⟩
    rw [run_work_of_opens hopens, hcore]
    rfl

/-- `run` keeps the files, or the request `Makes` assembly. -/
theorem same_or_makes_of_run (hlawful : system.Lawful files)
    (h : (r.run system setting).run s = (code, s')) :
    files.Same s s' ∨ ∃ source t assembly, r.Opens system (r.options setting) s source t ∧
      r.Makes (r.options setting) source assembly := by
  by_cases hmakes : ∃ source t assembly, r.Opens system (r.options setting) s source t ∧
      r.Makes (r.options setting) source assembly
  · exact .inr hmakes
  · left
    have hwork := run_work_of_not_makes hlawful fun source t assembly hopens h =>
      hmakes ⟨source, t, assembly, hopens, h⟩
    exact hwork.1.trans (same_of_run hlawful h)

/-- `run` changes what its write changes, if the request `Makes` assembly. -/
theorem writes_of_run (hlawful : system.Lawful files) (h : (r.run system setting).run s = (code, s'))
    {assembly : String} {answer : Except Refusal Unit} {u : σ}
    (hopens : r.Opens system (r.options setting) s source t)
    (hmakes : r.Makes (r.options setting) source assembly)
    (hwrite : (system.write r.output.text assembly).run t = (answer, u)) :
    files.Writes r.output.text assembly (answer = .ok ()) s s' := by
  have hlaw := hlawful.write r.output.text assembly t
  rw [hwrite] at hlaw
  have hsame := (run_work_of_makes hlawful hopens hmakes hwrite).1
  exact .of_same (hopens.same hlawful) hlaw (hsame.trans (same_of_run hlawful h))

end Ends

end Request

/-! ## The command -/

/-- `run` of words that the reader accepts is that of the request. -/
theorem run_of_accepted {reader : Reader (StateM σ)} {words : List String} {r : Request}
    (h : (reader words).run s = (.ok r, s)) (setting : Option String) :
    (run system reader words setting).run s = (r.run system setting).run s := by
  rw [run, run_bind_eq, h]

/-- What the command does to the files, and its exit code, on every lawful system and for every reader of words
    that accepts them.

    * The files are as they were, or the request has made assembly of its source text.
    * If it has, it writes the assembly to its output, and nothing but this write changes the files.  The exit
      code is 0 just if the write and all lines after it are done.  So the output may have changed although the
      exit code is another: a write that is refused may leave a beginning of the assembly, and a line that cannot
      be printed leaves all of it.
    * If assembly is asked for, the exit code is 0 only if it is made.
    * The exit code is 1 just if the view that is asked for comes to an error in the source text, or if a failure
      cannot be reported. -/
theorem run_changes_only_output (hlawful : system.Lawful files) {reader : Reader (StateM σ)}
    {words : List String} {r : Request} (haccepted : (reader words).run s = (.ok r, s))
    (setting : Option String) {code : Nat} {s' : σ}
    (hrun : (run system reader words setting).run s = (code, s')) :
    (files.Same s s' ∨ ∃ source t assembly, r.Opens system (r.options setting) s source t ∧
      r.Makes (r.options setting) source assembly) ∧
    (∀ source t assembly answer u, r.Opens system (r.options setting) s source t →
      r.Makes (r.options setting) source assembly →
      (system.write r.output.text assembly).run t = (answer, u) →
        files.Writes r.output.text assembly (answer = .ok ()) s s' ∧
        (code = 0 ↔ answer = .ok () ∧
          ((perform system r.output.text (r.core (r.options setting) source).tail).run u).1 = .ok ())) ∧
    (r.tokens = false → r.ast = false → code = 0 → ∃ source t assembly,
      r.Opens system (r.options setting) s source t ∧ r.Makes (r.options setting) source assembly) ∧
    (code = 1 ↔
      (∃ source t, r.Opens system (r.options setting) s source t ∧ r.Meets (r.options setting) source) ∨
      ∃ f t, (r.work system setting).run s = (.error f, t) ∧
        ((system.printAll .error (f.texts r.verbose)).run t).1 ≠ .ok ()) := by
  rw [run_of_accepted haccepted] at hrun
  refine ⟨Request.same_or_makes_of_run hlawful hrun, ?_, ?_, ?_⟩
  · intro source t assembly answer u hopens hmakes hwrite
    have hok := (Request.run_work_of_makes hlawful hopens hmakes hwrite).2
    exact ⟨Request.writes_of_run hlawful hrun hopens hmakes hwrite,
      (Request.code_eq_zero_iff hrun).trans hok⟩
  · intro htokens hast hzero
    by_contra hnot
    have hview := Request.view_eq_assembly_iff.mpr ⟨htokens, hast⟩
    have hfails := (Request.run_work_of_not_makes hlawful fun source t assembly hopens h =>
      hnot ⟨source, t, assembly, hopens, h⟩).2
    exact hfails hview ((Request.code_eq_zero_iff hrun).mp hzero)
  · rw [Request.code_eq_one_iff hrun, Request.exists_work_eq_diagnostic_iff hlawful]

/-- A session with a source text that has assembly, and one that has none. -/
def twoSources : Session where
  files := { entries := [(["a.zb"], .file (bytesOf "exit 7")), (["b.zb"], .file (bytesOf "@"))] }

/-- Sessions in which nobody reads standard output. -/
def unheard : System (StateM Session) where
  status := Session.system.status
  read := Session.system.read
  write := Session.system.write
  print
    | .output, _ => return .error (.system ⟨32, "Broken pipe", none⟩)
    | .error, text => Session.system.print .error text

theorem lawful_unheard : unheard.Lawful Session.view where
  read := Session.lawful.read
  write := Session.lawful.write
  bytes := Session.lawful.bytes
  print stream text s := by
    cases stream with
    | output => exact .refl _ s
    | error => exact Session.lawful.print .error text s

/-- The request to compile a file with comments. -/
def annotating (name : String) : Request :=
  ⟨⟨"", [name]⟩, none, false, false, true, false, List.cons_ne_nil _ _⟩

/-- `readWords` accepts the words of `annotating`, if its checks pass. -/
theorem readWords_annotating {σ : Type} {system : System (StateM σ)} {name : String} {s : σ}
    (hsorted : sortWords ["-c", name] = .ok ⟨[.flag .comments], [name]⟩)
    (hrequest : (Words.request system ⟨[.flag .comments], [name]⟩).run s = (.ok (annotating name), s)) :
    (readWords system ["-c", name]).run s = (.ok (annotating name), s) := by
  unfold readWords
  rw [hsorted]
  show (Words.request system ⟨[.flag .comments], [name]⟩ >>= _).run s = _
  rw [run_bind_eq, hrequest]
  rfl

/-- `annotating` opens a source text that can be read: nothing is printed before. -/
theorem opens_annotating {σ : Type} {system : System (StateM σ)} {name source : String} {bytes : List UInt8}
    {s : σ} (hread : (system.read (annotating name).input.text).run s = (.ok bytes, s))
    (hsource : sourceText bytes = .ok source) : (annotating name).Opens system ⟨true⟩ s source s := by
  refine ⟨bytes, s, hread, hsource, ?_⟩
  rw [Request.opening_eq_nil rfl rfl]
  rfl

/-- The assembly of `exit 7`, with comments. -/
def annotatedExit : String :=
  "global _start\n_start:\n    ; exit 7\n    mov rax, 7\n    push rax\n    mov rax, 60\n    pop rdi\n" ++
    "    syscall\n"

/-- `assembly?` of `exit 7` is `annotatedExit`, whatever the file is called. -/
theorem assembly?_exitSeven (file : String) :
    (Compilation.ofSource ⟨true⟩ "exit 7" file).assembly? = some annotatedExit := by
  have hlexed : (lex "exit 7" file).all = .ok [⟨.exitWord, .text "exit", 1, 1, file⟩,
      ⟨.number, .int 7, 1, 6, file⟩, ⟨.endOfFile, .none, 1, 7, file⟩] := by with_unfolding_all rfl
  have hparsed : parseTokens [⟨.exitWord, .text "exit", 1, 1, file⟩, ⟨.number, .int 7, 1, 6, file⟩,
      ⟨.endOfFile, .none, 1, 7, file⟩] =
        .ok [.exit (.literal (.int 7) ⟨file, 1, 6⟩) ⟨file, 1, 1⟩] := by cbv
  unfold Compilation.ofSource Program.ofTokens
  dsimp only
  rw [hlexed]
  dsimp only
  rw [hparsed]
  apply Compilation.assembly?_ofProgram
  with_unfolding_all rfl

/-- An at sign starts no token, whatever the file is called. -/
theorem diagnostic?_atSign (options : Options) (file : String) :
    (Compilation.ofSource options "@" file).diagnostic? =
      some ⟨.invalidCharacter '@', some (.known ⟨file, 1, 1⟩), some "@"⟩ := by
  have hlexed : (lex "@" file).all =
      .error (.diagnostic ⟨.invalidCharacter '@', some (.known ⟨file, 1, 1⟩), some "@"⟩) := by
    with_unfolding_all rfl
  unfold Compilation.ofSource
  dsimp only
  rw [hlexed]
  rfl

/-- The first source text is compiled.  It is so where its last line cannot be printed, and the exit code is
    another than 0 then.  The second is rejected, and the files are as they were. -/
theorem run_changes_only_output_twoSources :
    (∃ s' file, (run Session.system (readWords Session.system) ["-c", "a.zb"] none).run twoSources = (0, s') ∧
      Session.view.leads s' "a.asm" = some file ∧
      (Session.view.bytes s' file = none ∨ Session.view.bytes s' file = some (bytesOf annotatedExit))) ∧
    (∃ code s' file, (run unheard (readWords unheard) ["-c", "a.zb"] none).run twoSources = (code, s') ∧
      code ≠ 0 ∧ Session.view.leads s' "a.asm" = some file ∧
      (Session.view.bytes s' file = none ∨ Session.view.bytes s' file = some (bytesOf annotatedExit))) ∧
    ∃ s', (run Session.system (readWords Session.system) ["-c", "b.zb"] none).run twoSources = (1, s') ∧
      Session.view.Same twoSources s' := by
  have hsorted : sortWords ["-c", "a.zb"] = .ok ⟨[.flag .comments], ["a.zb"]⟩ := by decide +kernel
  have hsorted' : sortWords ["-c", "b.zb"] = .ok ⟨[.flag .comments], ["b.zb"]⟩ := by decide +kernel
  have haccepted := @readWords_annotating _ Session.system _ twoSources hsorted rfl
  have hunheard := @readWords_annotating _ unheard _ twoSources hsorted rfl
  have hrejected := @readWords_annotating _ Session.system _ twoSources hsorted' rfl
  have hfirst : (annotating "a.zb").Opens Session.system ⟨true⟩ twoSources "exit 7" twoSources :=
    @opens_annotating _ _ _ _ (bytesOf "exit 7") _ rfl rfl
  have hfirst' : (annotating "a.zb").Opens unheard ⟨true⟩ twoSources "exit 7" twoSources :=
    @opens_annotating _ _ _ _ (bytesOf "exit 7") _ rfl rfl
  have hsecond : (annotating "b.zb").Opens Session.system ⟨true⟩ twoSources "@" twoSources :=
    @opens_annotating _ _ _ _ (bytesOf "@") _ rfl rfl
  have htarget : twoSources.files.target "a.asm" = .ok ["a.asm"] := rfl
  have hwrite := Session.run_write_of_ok (@Session.write_of_target _ _ annotatedExit _ htarget)
  have hmakes : (annotating "a.zb").Makes ⟨true⟩ "exit 7" annotatedExit := ⟨rfl, assembly?_exitSeven _⟩
  obtain ⟨report, hcore⟩ := Request.core_of_makes hmakes
  obtain ⟨-, hdone, -, -⟩ := run_changes_only_output Session.lawful haccepted none (Prod.eta _).symm
  obtain ⟨-, hcut, -, -⟩ := run_changes_only_output lawful_unheard hunheard none (Prod.eta _).symm
  obtain ⟨hkept, -, -, hone⟩ := run_changes_only_output Session.lawful hrejected none (Prod.eta _).symm
  obtain ⟨hwrites, hzero⟩ := hdone _ _ _ _ _ hfirst hmakes hwrite
  obtain ⟨hwrites', hnonzero⟩ := hcut _ _ _ _ _ hfirst' hmakes hwrite
  obtain ⟨file, hleads, hbytes⟩ := hwrites.whole rfl
  obtain ⟨file', hleads', hbytes'⟩ := hwrites'.whole rfl
  change (annotating "a.zb").core ((annotating "a.zb").options none) "exit 7" = _ at hcore
  rw [hcore] at hzero hnonzero
  refine ⟨⟨_, file, Prod.ext (hzero.mpr ⟨rfl, rfl⟩) rfl, hleads, hbytes⟩,
    ⟨_, _, file', (Prod.eta _).symm, ?_, hleads', hbytes'⟩, ?_⟩
  · intro hcode
    cases (hnonzero.mp hcode).2
  · have hmeets : (annotating "b.zb").Meets ⟨true⟩ "@" := ⟨_, diagnostic?_atSign _ _⟩
    refine ⟨_, Prod.ext (hone.mpr (.inl ⟨_, _, hsecond, hmeets⟩)) rfl, hkept.resolve_right ?_⟩
    rintro ⟨source, t, assembly, hopens, hmakes⟩
    obtain ⟨rfl, -⟩ := hopens.unique hsecond
    exact hmakes.not_meets hmeets

end ZebLang.Command
