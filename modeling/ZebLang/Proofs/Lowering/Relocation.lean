/-
  Code that stands behind other code.

  A statement list that is lowered behind another one has the code that it has by itself, but for the
  numbers of its labels, which are counted on.  No slot moves: a name is read from as far below the top of
  the stack as before, however much lies below.

  1. Lowering goes through a list from its front, so a list is lowered from the frame that the list in
     front leaves, and a fault in front is the fault of both (`run_lowerAll_append`).
  2. Lowering is uniform in what a frame holds already (`Lowering.mirrors_all`), so from that frame it adds
     the code that it adds to an empty one, numbered anew.
  3. The lines are those of known code, so the same is said of their text (`raisedText_lines`).
-/

import ZebLang.Proofs.Lowering.Numbering
import ZebLang.Proofs.Lowering.Uniformity

namespace ZebLang

namespace Lowering

section Lists

variable {comments : Bool} {p q : List Datum} {f g : Frame} {u : Unit} {e : Fault}

/-- `lowerAll` on a list behind another one starts from the frame that the other one leaves. -/
theorem run_lowerAll_append (h : (lowerAll comments p).run f = .ok u g) :
    (lowerAll comments (p ++ q)).run f = (lowerAll comments q).run g := by
  induction p generalizing f with
  | nil =>
    cases h
    rfl
  | cons d rest ih =>
    obtain ⟨u₁, f₁, hd, hrest⟩ := bind_eq_ok h
    exact (run_bind hd).trans (ih hrest)

/-- `lowerAll` on a list that is refused stops every longer one. -/
theorem run_lowerAll_append_error (h : (lowerAll comments p).run f = .error e g) :
    (lowerAll comments (p ++ q)).run f = .error e g := by
  induction p generalizing f with
  | nil => cases h
  | cons d rest ih =>
    cases hd : (lowerElement comments d).run f with
    | ok u₁ f₁ =>
      have hrest : (lowerAll comments rest).run f₁ = .error e g := (run_bind hd).symm.trans h
      exact (run_bind hd).trans (ih hrest)
    | error e₁ f₁ =>
      cases (run_bind_error hd).symm.trans h
      exact run_bind_error hd

end Lists

end Lowering

section Lowered

variable {comments : Bool} {p : List Datum} {f : Frame} {u : Unit} {e : Fault}

/-- `lower` of a list that is lowered to its end leaves a note on it. -/
theorem lower_of_ok (h : (Lowering.lowerAll comments p).run {} = .ok u f) :
    lower comments p = ⟨f.note (.generated p.length f.depth f.loops), none⟩ := by
  have hrun : (Lowering.lowerProgram comments p).run {} =
      .ok () (f.note (.generated p.length f.depth f.loops)) := Lowering.run_bind h
  unfold lower
  rw [hrun]

theorem lower_of_error (h : (Lowering.lowerAll comments p).run {} = .error e f) :
    lower comments p = ⟨f, some e⟩ := by
  have hrun : (Lowering.lowerProgram comments p).run {} = .error e f := Lowering.run_bind_error h
  unfold lower
  rw [hrun]

/-- `lower` gives the text of the frame that `lowerAll` leaves. -/
theorem exists_run_of_text {text : String} (h : (lower comments p).text = .ok text) :
    ∃ f, (Lowering.lowerAll comments p).run {} = .ok () f ∧ text = f.text := by
  cases hrun : (Lowering.lowerAll comments p).run {} with
  | ok u f =>
    rw [lower_of_ok hrun] at h
    cases h
    exact ⟨f, rfl, rfl⟩
  | error e f =>
    rw [lower_of_error hrun] at h
    cases h

end Lowered

/-! ## Frames behind one another -/

/-- `atop`: the text of `base`, and behind it that of the frame with its labels raised. -/
theorem Frame.text_atop (base f : Frame) (s : Respelling) (hprologue : f.prologue = base.prologue)
    (hknown : ∀ l ∈ f.lines.toList, l.item.IsKnown) :
    (base.atop s f).text =
      base.text ++ raisedText base.counters (String.join (f.lines.toList.map Line.text)) := by
  have hlines : (base.atop s f).lines.toList =
      base.lines.toList ++ f.lines.toList.map (Line.raised base.counters) := by
    simp [Frame.atop]
  rw [raisedText_lines hknown]
  show f.prologue ++ String.join ((base.atop s f).lines.toList.map Line.text) = _
  rw [hlines, List.map_append, String.join_append, hprologue, ← String.append_assoc]
  rfl

/-- `LowersAll`: the counters after a program tell how many calls it has. -/
theorem counters_of_lowersAll {statements : List Datum} {code : List Item} {c : Counters}
    (h : LowersAll [] 0 statements ⟨0, 0⟩ code c) : c = countersOf (callSites statements) := by
  obtain ⟨-, hcounters⟩ := h.labels 0 [] rfl
  rw [hcounters, List.append_nil]
  unfold countersOf callsOf
  rw [List.countP_reverse, List.countP_reverse]
  rfl

/-- `lowerAll` from the frame that a list leaves does what it does from an empty frame, `atop` of that. -/
theorem run_lowerAll_atop {base f : Frame} {q : List Datum} (hq : ∀ d ∈ q, d.isStandard = true)
    (hprologue : base.prologue = prologue) (h : (Lowering.lowerAll false q).run {} = .ok () f) :
    (Lowering.lowerAll false q).run base = .ok () (base.atop .unchanged f) := by
  have hmirrors := @Lowering.mirrors_all base .unchanged q hq q 0 List.drop_zero {}
  rw [h, Datum.respelledAll_unchanged, Frame.atop_empty base _ hprologue] at hmirrors
  exact hmirrors

/-- Programs are lowered one behind the other.  The text of two programs that are accepted is that of the
    first, and behind it that of the second without its start, in which the labels of loops are raised by the
    number of ranges in the first and those of printing sequences by the number of its prints.  Nothing
    else in it changes.  What stops the first program stops both, at the same point. -/
theorem lower_append (p q : List Datum) :
    ((∀ d ∈ p, d.isStandard = true) → (∀ d ∈ q, d.isStandard = true) →
      ∀ a b, (lower false p).text = .ok a → (lower false q).text = .ok b →
        ∃ body, b = prologue ++ body ∧ (lower false (p ++ q)).text =
          .ok (a ++ raisedText (countersOf (callSites p)) body)) ∧
    ∀ e, (lower false p).fault = some e → lower false (p ++ q) = lower false p := by
  constructor
  · intro hp hq a b ha hb
    obtain ⟨base, hbase, rfl⟩ := exists_run_of_text ha
    obtain ⟨f, hf, rfl⟩ := exists_run_of_text hb
    obtain ⟨code, hcode, -, hprologue⟩ := Lowering.lowersAll_of_lowerAll hp hbase
    obtain ⟨code', hcode', hitems, hprologue'⟩ := Lowering.lowersAll_of_lowerAll hq hf
    have hknown : ∀ l ∈ f.lines.toList, l.item.IsKnown := by
      intro l hl
      refine hcode'.fresh.known l.item ?_
      have hmem : l.item ∈ itemsOf f.lines.toList := List.mem_map_of_mem hl
      rw [hitems] at hmem
      exact hmem
    have hrun := (Lowering.run_lowerAll_append hbase).trans (run_lowerAll_atop hq hprologue hf)
    refine ⟨String.join (f.lines.toList.map Line.text), congrArg (· ++ _) hprologue', ?_⟩
    rw [lower_of_ok hrun]
    show Except.ok (base.atop .unchanged f).text = _
    rw [Frame.text_atop base f .unchanged (hprologue'.trans hprologue.symm) hknown,
      ← counters_of_lowersAll hcode]
  · intro e he
    cases hrun : (Lowering.lowerAll false p).run {} with
    | ok u f =>
      rw [lower_of_ok hrun] at he
      cases he
    | error e' f =>
      rw [lower_of_error hrun, lower_of_error (Lowering.run_lowerAll_append_error hrun)]

/-- A loop that counts up to `n`, and what it counted to, printed as the status. -/
def countedTo (n : Int) : List Datum :=
  [.loop {} (.text "i") (.call {} (.text "range") (.literal {} (.int n))),
    .exit {} (.call {} (.text "print") (.reference {} (.text "i")))]

theorem lower_append_countedTo :
    (∃ a body, (lower false (countedTo 3)).text = .ok a ∧
      (lower false (countedTo 5)).text = .ok (prologue ++ body) ∧
      (lower false (countedTo 3 ++ countedTo 5)).text = .ok (a ++ raisedText ⟨1, 1⟩ body)) ∧
    (∃ e, (lower false [.endLoop {}]).fault = some e) ∧
      lower false ([.endLoop {}] ++ countedTo 5) = lower false [.endLoop {}] := by
  have hstandard : ∀ n, ∀ d ∈ countedTo n, d.isStandard = true := fun n => List.all_eq_true.mp rfl
  have haccepted : ∀ n, (lower false (countedTo n)).fault = none →
      (lower false (countedTo n)).text = .ok (lower false (countedTo n)).frame.text := by
    intro n h
    rw [Lowered.text, h]
  have hthree := haccepted 3 (by decide +kernel)
  have hfive := haccepted 5 (by decide +kernel)
  obtain ⟨body, hbody, hboth⟩ :=
    (lower_append (countedTo 3) (countedTo 5)).1 (hstandard 3) (hstandard 5) _ _ hthree hfive
  rw [hbody] at hfive
  have hfault : ∃ e, (lower false [.endLoop {}]).fault = some e := ⟨_, rfl⟩
  obtain ⟨e, he⟩ := hfault
  exact ⟨⟨_, body, hthree, hfive, hboth⟩, ⟨e, he⟩,
    (lower_append [.endLoop {}] (countedTo 5)).2 e he⟩

end ZebLang
