/-
  Names that are suggested for one that is not bound.

  Lowering of a list stops at one of its statements (`StopsAt`), and the names that are bound by then are those
  that the statements in front of it bind.

  1. Wherever lowering stops for a name that is not bound, the name is none of the names that the frame knows,
     and what is suggested is chosen from these (`StopOf.suggests`).
  2. The frame knows each name once, however often it was bound (`nodup_names_of_lowerAll`).
  3. The names are put in order before the choice is made.  So the choice depends on nothing but the set of
     the names.
-/

import ZebLang.Proofs.Lowering.Bindings
import ZebLang.Proofs.Lowering.Faults
import ZebLang.Proofs.Text.Similar

namespace ZebLang

open Lowering

/-! ## Where lowering stops -/

/-- `StopsAt comments statements before d`: lowering goes through the statements `before` and stops at `d`
    behind them. -/
def StopsAt (comments : Bool) (statements before : List Datum) (d : Datum) : Prop :=
  ∃ after, statements = before ++ d :: after ∧ (lower comments before).fault = none ∧
    (lower comments (before ++ [d])).fault ≠ none

/-- `boundNames statements`: the names that statements bind, in their order and as often as they are bound.
    -/
def boundNames (statements : List Datum) : List String := statements.filterMap Datum.newName?

theorem mem_boundNames {statements : List Datum} {y : String} :
    y ∈ boundNames statements ↔ ∃ d ∈ statements, d.newName? = some y := List.mem_filterMap

section Stops

variable {comments : Bool} {statements before : List Datum} {d : Datum}

/-- `StopsAt` some statement holds of a list that is refused. -/
theorem exists_stopsAt {fault : Fault} (h : (lower comments statements).fault = some fault) :
    ∃ before d, StopsAt comments statements before d := by
  cases hrun : (lowerAll comments statements).run {} with
  | ok u g =>
    rw [lower_of_ok hrun] at h
    cases h
  | error found g =>
    obtain ⟨before, d, after, f, hsplit, hbefore, hd⟩ := refused_of_lowerAll hrun
    have hlast : (lowerAll comments (before ++ [d])).run {} = .error found g :=
      (run_lowerAll_append hbefore).trans (run_bind_error hd)
    refine ⟨before, d, after, hsplit, ?_, ?_⟩
    · rw [lower_of_ok hbefore]
    · rw [lower_of_error hlast]
      exact Option.some_ne_none _

/-- `StopsAt`: what stops a list is what stops the statement. -/
theorem StopsAt.refused (h : StopsAt comments statements before d) :
    ∃ f fault g, (lowerAll comments before).run {} = .ok () f ∧
      (lowerElement comments d).run f = .error fault g ∧ (lower comments statements).fault = some fault := by
  obtain ⟨after, rfl, haccepted, hrefused⟩ := h
  cases hbefore : (lowerAll comments before).run {} with
  | error fault g =>
    rw [lower_of_error hbefore] at haccepted
    cases haccepted
  | ok u f =>
    cases hd : (lowerElement comments d).run f with
    | ok u g =>
      have hlast : (lowerAll comments (before ++ [d])).run {} = .ok () g :=
        (run_lowerAll_append hbefore).trans (run_bind hd)
      rw [lower_of_ok hlast] at hrefused
      exact absurd rfl hrefused
    | error fault g =>
      have hall : (lowerAll comments (before ++ d :: after)).run {} = .error fault g :=
        (run_lowerAll_append hbefore).trans (run_bind_error hd)
      refine ⟨f, fault, g, rfl, hd, ?_⟩
      rw [lower_of_error hall]

end Stops

/-! ## The names of a frame -/

/-- `bindName` keeps each name once. -/
theorem nodup_bindName {known : List String} (h : known.Nodup) (name : String) :
    (bindName known name).Nodup := by
  apply List.nodup_cons.mpr
  constructor
  · simp
  · exact h.filter _

/-- `lowerAll` leaves a frame that knows each name once. -/
theorem Lowering.nodup_names_of_lowerAll {comments : Bool} {statements : List Datum} :
    ∀ {f g : Frame} {u : Unit}, (∀ d ∈ statements, d.isStandard = true) → f.names.Nodup →
      (lowerAll comments statements).run f = .ok u g → g.names.Nodup := by
  induction statements with
  | nil =>
    intro f g u _ hf h
    cases h
    exact hf
  | cons d rest ih =>
    intro f g u hstandard hf h
    obtain ⟨u₁, f₁, helement, hrest⟩ := bind_eq_ok h
    refine ih (fun x hx => hstandard x (by simp [hx])) ?_ hrest
    cases enters_of_lowerElement (hstandard d (by simp)) helement with
    | pass _ hslots _ =>
      rw [Frame.names, hslots]
      exact hf
    | @bind name _ hslots _ =>
      have hnames : f₁.names = (f.bind name f.depth).names := by
        rw [Frame.names, hslots]
        rfl
      rw [hnames, Frame.names_bind]
      exact nodup_bindName hf name

/-- `StopOf`: a report on an undeclared variable names one that the frame does not know, and suggests what is
    chosen from the names that it knows. -/
theorem StopOf.suggests {d : Datum} {fault : Fault} {g : Frame} {x : String} {similar : List String}
    {place : Option Origin} (h : StopOf d fault g) (hfault : fault = .report (.undeclaredVariable x similar) place) :
    x ∉ g.names ∧ similar = Text.closeMatches x (Cause.ascending g.names) := by
  induction h with
  | report _ _ hundeclared =>
    cases hfault
    exact hundeclared x similar rfl
  | iterable | missing | unwritable | unbalanced => cases hfault
  | operand _ _ ih | added _ _ _ ih => exact ih hfault

/-! ## Suggestions -/

/-- `StopsAt` a name that is not bound: it is none of `boundNames`, and what is suggested is chosen from
    these, each taken once. -/
theorem StopsAt.chosen {comments : Bool} {statements before : List Datum} {d : Datum} {x : String}
    {similar : List String} {place : Option Origin} (h : StopsAt comments statements before d)
    (hstandard : ∀ d ∈ statements, d.isStandard = true)
    (hfault : (lower comments statements).fault = some (.report (.undeclaredVariable x similar) place)) :
    ∃ known : List String, known.Nodup ∧ (∀ y, y ∈ known ↔ y ∈ boundNames before) ∧ x ∉ known ∧
      similar = Text.closeMatches x (Cause.ascending known) := by
  obtain ⟨f, fault, g, hbefore, hd, hsame⟩ := h.refused
  obtain ⟨after, rfl, -, -⟩ := h
  obtain rfl : fault = .report (.undeclaredVariable x similar) place :=
    Option.some.inj (hsame.symm.trans hfault)
  have hstandard' : ∀ d ∈ before, d.isStandard = true := fun d hd => hstandard d (by simp [hd])
  have htable := tabulates_of_lowerAll hstandard' .nil hbefore
  -- the statement stops before it binds a name
  have hstop := stops_element comments d f trivial
  rw [hd] at hstop
  have hnames : g.names = f.names := congrArg (List.map _) (spares_element (hstandard d (by simp)) hd)
  obtain ⟨hx, hsimilar⟩ := hstop.suggests rfl
  rw [hnames] at hx hsimilar
  have hnodup := nodup_names_of_lowerAll (f := {}) hstandard' List.nodup_nil hbefore
  refine ⟨f.names, hnodup, fun y => ?_, hx, hsimilar⟩
  rw [htable.mem_names_iff, List.nil_append, mem_boundNames]

/-- Suggestions are sound, and do not depend on how names were bound.  If a list is refused for a name `x` that
    is not bound, lowering stops at one of its statements, and at most three names are suggested, no name
    twice and never `x`: the best of those that the statements before bind and that are at least three
    fifths like `x`, the best first.  Any other list that is refused for `x`, with the same names bound before
    the statement at which it stops, gives the same suggestions in the same order, and the same hint. -/
theorem suggestions_of_lower {comments : Bool} {statements : List Datum} {x : String}
    {similar : List String} {place : Option Origin} (hstandard : ∀ d ∈ statements, d.isStandard = true)
    (hfault : (lower comments statements).fault = some (.report (.undeclaredVariable x similar) place)) :
    (∃ before d, StopsAt comments statements before d) ∧
      ∀ before d, StopsAt comments statements before d →
        x ∉ similar ∧ Text.Selects x (· ∈ boundNames before) similar ∧
        ∀ comments' statements' similar' place' before' d', (∀ d ∈ statements', d.isStandard = true) →
          (lower comments' statements').fault = some (.report (.undeclaredVariable x similar') place') →
          StopsAt comments' statements' before' d' →
          (∀ y, y ∈ boundNames before' ↔ y ∈ boundNames before) →
          similar' = similar ∧
            (Cause.undeclaredVariable x similar').hint = (Cause.undeclaredVariable x similar).hint := by
  refine ⟨exists_stopsAt hfault, fun before d hstops => ?_⟩
  obtain ⟨known, hnodup, hknown, hx, rfl⟩ := hstops.chosen hstandard hfault
  have hascending : (Cause.ascending known).Perm known := List.mergeSort_perm known _
  have hselects := @Text.selects_closeMatches x _ (hascending.nodup_iff.mpr hnodup)
  have hmem : ∀ y, y ∈ Cause.ascending known ↔ y ∈ boundNames before :=
    fun y => hascending.mem_iff.trans (hknown y)
  simp only [hmem] at hselects
  refine ⟨fun hsame => ?_, hselects, ?_⟩
  · exact hx ((hknown x).mpr (hselects.close x hsame).1)
  · intro comments' statements' similar' place' before' d' hstandard' hfault' hstops' hsame
    obtain ⟨known', hnodup', hknown', -, rfl⟩ := hstops'.chosen hstandard' hfault'
    have hperm : known'.Perm known := (List.perm_ext_iff_of_nodup hnodup' hnodup).mpr fun y =>
      (hknown' y).trans ((hsame y).trans (hknown y).symm)
    rw [Text.ascending_eq hperm]
    exact ⟨rfl, rfl⟩

/-- Two names are bound, and one is read that looks like both. -/
def misspelled : List Datum :=
  [.assign {} (.text "mount") (.literal {} (.int 1)),
    .loop {} (.text "count") (.call {} (.text "range") (.literal {} (.int 2))),
    .exit {} (.reference {} (.text "coun"))]

/-- The same names, in another order and one of them twice. -/
def misspelledLater : List Datum :=
  [.assign {} (.text "count") (.literal {} (.int 1)), .assign {} (.text "count") (.literal {} (.int 2)),
    .assign {} (.text "mount") (.reference {} (.text "count")),
    .assign {} (.text "x") (.reference {} (.text "coun"))]

theorem ascending_count_mount : Cause.ascending ["count", "mount"] = ["count", "mount"] :=
  List.mergeSort_of_pairwise (by decide)

/-- Four characters of `count` and three of `mount` are in `coun`. -/
theorem closeMatches_count_mount : Text.closeMatches "coun" ["count", "mount"] = ["count", "mount"] := by
  have hscored : (["count", "mount"].map fun c =>
      (Text.score (Text.Places.ofWord "coun".toList) c.toList "coun".toList, c)) =
        [(⟨8, 9⟩, "count"), (⟨6, 9⟩, "mount")] := by decide +kernel
  have hranked : (List.filter (fun scored => scored.1.isClose)
      [((⟨8, 9⟩ : Text.Score), "count"), (⟨6, 9⟩, "mount")]).mergeSort Text.ranksBefore =
        [(⟨8, 9⟩, "count"), (⟨6, 9⟩, "mount")] := List.mergeSort_of_pairwise (by decide)
  unfold Text.closeMatches Text.closest
  dsimp only
  rw [hscored, hranked]
  rfl

/-- `misspelled` and `misspelledLater` get the same suggestions. -/
theorem suggestions_of_misspelled :
    (lower true misspelled).fault =
        some (.report (.undeclaredVariable "coun" ["count", "mount"]) none) ∧
      Text.Selects "coun" (· ∈ ["mount", "count"]) ["count", "mount"] ∧
      ∀ similar place, (lower false misspelledLater).fault =
          some (.report (.undeclaredVariable "coun" similar) place) → similar = ["count", "mount"] := by
  have hfault : (lower true misspelled).fault =
      some (.report (.undeclaredVariable "coun" ["count", "mount"]) none) := by
    have hchosen : Cause.undeclared "coun" ["count", "mount"] =
        .undeclaredVariable "coun" ["count", "mount"] := by
      unfold Cause.undeclared
      rw [ascending_count_mount, closeMatches_count_mount]
    rw [← hchosen]
    rfl
  have hstops : StopsAt true misspelled (misspelled.take 2) (.exit {} (.reference {} (.text "coun"))) := by
    refine ⟨[], rfl, by decide +kernel, fun hnone => ?_⟩
    cases hfault.symm.trans hnone
  obtain ⟨-, hselects, hsame⟩ := (suggestions_of_lower (by decide) hfault).2 _ _ hstops
  refine ⟨hfault, hselects, fun similar place hlater => ?_⟩
  refine (hsame _ _ similar place (misspelledLater.take 3) _ (by decide) hlater
    ⟨[], rfl, by decide +kernel, fun hnone => ?_⟩ ?_).1
  · cases hlater.symm.trans hnone
  · have hnames : boundNames (misspelled.take 2) = ["mount", "count"] := rfl
    have hlaterNames : boundNames (misspelledLater.take 3) = ["count", "count", "mount"] := rfl
    rw [hnames, hlaterNames]
    simp [or_comm]

end ZebLang
