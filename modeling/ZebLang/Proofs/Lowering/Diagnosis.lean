/-
  Lowering stops at the first thing that is wrong.

  `Finds` is the specification of a piece of lowering by the list of what is wrong with the part of the
  program that it lowers: it goes through if the list is empty, and stops with the first of the list if
  not.  `Raises` is the same for a list of faults, of which some may be no violations.  Pieces in sequence
  have their lists in sequence (`Raises.seq`), and that is the whole argument: what remains is one lemma for
  each piece, and one for each kind of node.

  The names that are known are those that the frame has slots for, and the frame has enough values on the
  stack for every pop.
-/

import ZebLang.Proofs.Lowering.Scope
import ZebLang.Proofs.Lowering.Specification

namespace ZebLang

/-- `f.Knows known depth`: the names of `known` are bound, the latest first, and so many values lie on the
    stack. -/
structure Frame.Knows (f : Frame) (known : List String) (depth : Nat) : Prop where
  names : f.names = known
  depth : f.depth = depth

theorem Frame.lookup_eq_none_iff {f : Frame} {name : String} :
    f.slots.lookup name = none ↔ name ∉ f.names := by
  rw [List.lookup_eq_none_iff, Frame.names, List.mem_map]
  constructor
  · rintro h ⟨binding, hmem, rfl⟩
    simpa using h binding hmem
  · intro h binding hmem
    simp only [bne_iff_ne]
    rintro rfl
    exact h ⟨binding, hmem, rfl⟩

/-- `names` has every name with a slot. -/
theorem Frame.mem_names_of_lookup {f : Frame} {name : String} {slot : Nat}
    (h : f.slots.lookup name = some slot) : name ∈ f.names := by
  by_cases hmem : name ∈ f.names
  · exact hmem
  · rw [Frame.lookup_eq_none_iff.mpr hmem] at h
    cases h

/-- `Knows` depends on the slots and the depth only. -/
theorem Frame.Knows.step {f g : Frame} {known : List String} {n m : Nat} (h : f.Knows known n)
    (hslots : g.slots = f.slots) (hdepth : g.depth = m) : g.Knows known m := by
  refine ⟨?_, hdepth⟩
  rw [← h.names]
  show g.slots.map _ = f.slots.map _
  rw [hslots]

/-- `bind` changes the names as `bindName` does. -/
theorem Frame.names_bind (f : Frame) (name : String) (slot : Nat) :
    (f.bind name slot).names = bindName f.names name := by
  show name :: (f.slots.filter (·.1 != name)).map (·.1) = name :: (f.slots.map (·.1)).filter (· != name)
  rw [List.filter_map]
  rfl

namespace Lowering

/-! ## Finding the first violation -/

/-- `Checks x vs given`: the check `x` passes if there are no violations, and else it gives the fault of the
    first of them. -/
def Checks {α : Type} (x : Except Fault α) (vs : List Violation) (given : α → Prop) : Prop :=
  match x with
  | .ok a => vs = [] ∧ given a
  | .error fault => ∃ v, vs.head? = some v ∧ fault = v.fault

/-- `Finds pre x vs post`: the piece `x` goes through if there are no violations, and else stops with the fault
    of the first of them. -/
def Finds (pre : Frame → Prop) (x : Lowering Unit) (vs : List Violation) (post : Frame → Prop) : Prop :=
  Specified pre x (fun _ g => vs = [] ∧ post g) fun fault _ => ∃ v, vs.head? = some v ∧ fault = v.fault

/-- `Raises pre x faults post`: the piece `x` goes through if there are no faults, and else stops with the first
    of them. -/
def Raises (pre : Frame → Prop) (x : Lowering Unit) (faults : List Fault) (post : Frame → Prop) : Prop :=
  Specified pre x (fun _ g => faults = [] ∧ post g) fun fault _ => faults.head? = some fault

/-- `Checks` gives what it promises of a result. -/
theorem Checks.of_ok {α : Type} {x : Except Fault α} {vs : List Violation} {given : α → Prop} {a : α}
    (hx : Checks x vs given) (h : x = .ok a) : given a := by
  rw [h] at hx
  exact hx.2

/-- `Checks` for the name that a statement binds. -/
theorem Checks.bound {x : Except Fault String} {vs : List Violation} {given : String → Prop}
    {goal : Option String → Prop} (hx : Checks x vs given) (h : ∀ word, given word → goal (some word)) :
    Checks (some <$> x) vs goal := by
  cases x with
  | ok word => exact ⟨hx.1, h word hx.2⟩
  | error fault => exact hx

namespace Raises

variable {pre mid post : Frame → Prop} {x y : Lowering Unit} {faults faults' : List Fault}

/-- `Raises` is monotone in its postcondition. -/
theorem mono {post' : Frame → Prop} (hx : Raises pre x faults post) (h : ∀ g, post g → post' g) :
    Raises pre x faults post' :=
  Specified.mono hx (fun _ g hg => ⟨hg.1, h g hg.2⟩) fun _ _ hstop => hstop

/-- `Raises` composes: the faults of the first step come before those of the second. -/
theorem seq (hx : Raises pre x faults mid) (hy : Raises mid y faults' post) :
    Raises pre (x >>= fun _ => y) (faults ++ faults') post := by
  refine Specified.bind (Specified.mono hx (fun _ _ h => h) ?_) fun _ => ?_
  · intro fault g hfault
    rw [List.head?_append, hfault]
    rfl
  · rintro g ⟨rfl, hg⟩
    exact hy g hg

/-- `Raises` with a second step that has no faults. -/
theorem followed (hx : Raises pre x faults mid) (hy : Raises mid y [] post) :
    Raises pre (x >>= fun _ => y) faults post := by
  rw [← List.append_nil faults]
  exact hx.seq hy

/-- `Raises` for a check, and what is done with its result. -/
theorem check {α : Type} {e : Except Fault α} {vs : List Violation} {given : α → Prop}
    {k : α → Lowering Unit} (he : Checks e vs given) (hk : ∀ a, given a → Raises pre (k a) faults post) :
    Raises pre (Lowering.check e >>= k) (faultsOf vs ++ faults) post := by
  intro f hf
  cases e with
  | ok a =>
    obtain ⟨rfl, ha⟩ := he
    exact hk a ha f hf
  | error fault =>
    obtain ⟨v, hv, rfl⟩ := he
    show (faultsOf vs ++ faults).head? = some v.fault
    rw [List.head?_append, faultsOf, List.head?_map, hv]
    rfl

/-- `Raises` for a step that stops. -/
theorem throw (fault : Fault) : Raises pre (MonadExcept.throw fault) (fault :: faults) post :=
  fun _ _ => rfl

/-- `Raises` for `leavingOne`: code that leaves one more value passes its check. -/
theorem leavingOne {known : List String} {n : Nat} {d : Datum}
    (hx : Raises (·.Knows known n) x faults (·.Knows known (n + 1))) :
    Raises (·.Knows known n) (Lowering.leavingOne d x) faults (·.Knows known (n + 1)) :=
  Specified.leavingOne hx fun _ _ hf hg => by rw [hg.2.depth, hf.depth]

end Raises

/-- `Finds` violations is `Raises` their faults. -/
theorem finds_iff {pre post : Frame → Prop} {x : Lowering Unit} {vs : List Violation} :
    Finds pre x vs post ↔ Raises pre x (faultsOf vs) post := by
  constructor
  · intro hx
    refine Specified.mono hx ?_ ?_
    · rintro _ g ⟨rfl, hg⟩
      exact ⟨rfl, hg⟩
    · rintro fault g ⟨v, hv, rfl⟩
      rw [faultsOf, List.head?_map, hv]
      rfl
  · intro hx
    refine Specified.mono hx ?_ ?_
    · rintro _ g ⟨hnil, hg⟩
      exact ⟨List.map_eq_nil_iff.mp hnil, hg⟩
    · intro fault g hfault
      rw [faultsOf, List.head?_map, Option.map_eq_some_iff] at hfault
      obtain ⟨v, hv, rfl⟩ := hfault
      exact ⟨v, hv, rfl⟩

namespace Finds

variable {pre mid post : Frame → Prop} {x y : Lowering Unit} {vs ws : List Violation}

theorem raises (hx : Finds pre x vs post) : Raises pre x (faultsOf vs) post := finds_iff.mp hx

/-- `Finds` is monotone in its postcondition. -/
theorem mono {post' : Frame → Prop} (hx : Finds pre x vs post) (h : ∀ g, post g → post' g) :
    Finds pre x vs post' :=
  finds_iff.mpr (hx.raises.mono h)

/-- `Finds` composes: what is wrong with the first step is found first. -/
theorem seq (hx : Finds pre x vs mid) (hy : Finds mid y ws post) :
    Finds pre (x >>= fun _ => y) (vs ++ ws) post := by
  rw [finds_iff, faultsOf_append]
  exact hx.raises.seq hy.raises

/-- `Finds` with a second step in which nothing can be found. -/
theorem followed (hx : Finds pre x vs mid) (hy : Finds mid y [] post) :
    Finds pre (x >>= fun _ => y) vs post :=
  finds_iff.mpr (hx.raises.followed hy.raises)

/-- `Finds` for a check, and what is done with its result. -/
theorem check {α : Type} {e : Except Fault α} {given : α → Prop} {k : α → Lowering Unit}
    (he : Checks e vs given) (hk : ∀ a, given a → Finds pre (k a) ws post) :
    Finds pre (Lowering.check e >>= k) (vs ++ ws) post := by
  rw [finds_iff, faultsOf_append]
  exact .check he fun a ha => (hk a ha).raises

/-- `Finds` for a step that stops for a violation. -/
theorem throw (v : Violation) : Finds pre (MonadExcept.throw v.fault) (v :: vs) post :=
  finds_iff.mpr (.throw v.fault)

/-- `Finds` for `leavingOne`: code that leaves one more value passes its check. -/
theorem leavingOne {known : List String} {n : Nat} {d : Datum}
    (hx : Finds (·.Knows known n) x vs (·.Knows known (n + 1))) :
    Finds (·.Knows known n) (Lowering.leavingOne d x) vs (·.Knows known (n + 1)) :=
  finds_iff.mpr hx.raises.leavingOne

end Finds

/-! ## Fields -/

/-- `Checks` for a refusal that quotes what a field holds. -/
theorem checks_refusal {α : Type} {node held : Datum} {label reason : String} {given : α → Prop}
    {wording : String → String} (hwording : ∀ text, wording text = label ++ " " ++ text ++ " " ++ reason) :
    Checks (held.structural >>= fun text => .error (malformed node (some (wording text))))
      [.field node label held reason] given := by
  cases hheld : held.structural with
  | ok text =>
    refine ⟨_, rfl, ?_⟩
    show malformed node (some (wording text)) = _
    rw [hwording, Violation.fault, Violation.cause, hheld]
    rfl
  | error tooLong =>
    refine ⟨_, rfl, ?_⟩
    rw [Violation.fault, Violation.cause, hheld]
    rfl

/-- `literalOf` checks `valueViolations`. -/
theorem checks_value (node value : Datum) :
    Checks (literalOf node value) (valueViolations node value) fun n => value = .int n := by
  unfold literalOf
  split
  · next n =>
    show Checks _ (if Cause.literalMin ≤ n ∧ n ≤ Cause.literalMax then [] else [_]) _
    by_cases hfits : Cause.literalMin ≤ n ∧ n ≤ Cause.literalMax
    · rw [if_pos hfits, if_pos hfits]
      exact ⟨rfl, rfl⟩
    · rw [if_neg hfits, if_neg hfits]
      exact @checks_refusal _ node (.int n) _ _ _ _ fun text => by
        rw [@String.append_assoc _ " "]; rfl
  · next hnot =>
    rw [valueViolations]
    · exact checks_refusal fun text => by rw [@String.append_assoc _ " "]; rfl
    · exact hnot

/-- `nameOf` checks `nameViolations`. -/
theorem checks_name (node name : Datum) :
    Checks (nameOf node name) (nameViolations node name) fun word => name = .text word := by
  unfold nameOf
  dsimp only
  split
  · next word =>
    show Checks _ (if word = "" then [_] else []) _
    by_cases hempty : word = ""
    · rw [if_pos hempty, if_pos (String.isEmpty_iff.mpr hempty)]
      exact checks_refusal fun text => by rw [@String.append_assoc _ " "]; rfl
    · rw [if_neg hempty, if_neg (mt String.isEmpty_iff.mp hempty)]
      exact ⟨rfl, rfl⟩
  · next hnot =>
    rw [nameViolations]
    · exact checks_refusal fun text => by rw [@String.append_assoc _ " "]; rfl
    · exact hnot

/-- `operatorOf` checks `operatorViolations`. -/
theorem checks_operator (node operator : Datum) :
    Checks (operatorOf node operator) (operatorViolations node operator)
      fun word => operator = .text word := by
  unfold operatorOf
  split
  · exact ⟨rfl, rfl⟩
  · next hnot =>
    rw [operatorViolations]
    · exact checks_refusal fun text => by rw [@String.append_assoc _ " "]; rfl
    · exact hnot

/-! ## Parts of expressions -/

section Parts

variable {known : List String} {n : Nat}

theorem finds_literal (v : Int) : Finds (·.Knows known n) (lowerLiteral v) [] (·.Knows known (n + 1)) :=
  fun _ hf => ⟨rfl, hf.names, congrArg (· + 1) hf.depth⟩

/-- A violation that is found where a condition fails. -/
theorem head?_unless {p : Prop} [Decidable p] {v : Violation} (h : ¬p) :
    (if p then [] else [v]).head? = some v := by
  rw [if_neg h]
  rfl

/-- `lowerReference` finds `referenceViolations`. -/
theorem finds_reference (node : Datum) (name : String) :
    Finds (·.Knows known n) (lowerReference name node.location?)
      (referenceViolations known node (.text name)) (·.Knows known (n + 1)) := by
  intro f hf
  rcases reference_cases f name node.location? with ⟨g, hrun⟩ | ⟨hnone, hrun⟩
  · obtain ⟨slot, hslot, hgains, -⟩ := gains_reference hrun
    rw [hrun]
    refine ⟨referenceViolations_eq_nil_iff.mpr ?_, hf.step hgains.slots ?_⟩
    · rw [← hf.names]
      exact Frame.mem_names_of_lookup hslot
    · rw [hgains.depth, hf.depth]
  · rw [hrun]
    have hnot : name ∉ known := hf.names ▸ Frame.lookup_eq_none_iff.mp hnone
    refine ⟨.undeclaredVariable node name known, head?_unless hnot, ?_⟩
    rw [hf.names]
    rfl

theorem not_mem_of_arithmetic {operator : String} (h : arithmetic? operator = none) :
    operator ∉ ["+", "-", "*"] := by
  intro hmem
  simp only [List.mem_cons, List.not_mem_nil, or_false] at hmem
  rcases hmem with rfl | rfl | rfl <;> cases h

/-- `lowerOperator` finds `supportViolations`. -/
theorem finds_operator (node : Datum) (operator : String) :
    Finds (·.Knows known (n + 2)) (lowerOperator operator node.location?)
      (supportViolations node (.text operator)) (·.Knows known (n + 1)) := by
  intro f hf
  rcases operator_cases operator node.location? hf.depth with ⟨g, hrun⟩ | ⟨hnone, hrun⟩
  · obtain ⟨combine, depth, hcombine, hdepth, hgains, -⟩ := gains_operator hrun
    rw [hrun]
    refine ⟨supportViolations_eq_nil_iff.mpr ?_, hf.step hgains.slots ?_⟩
    · rcases arithmetic_cases hcombine with ⟨rfl, -⟩ | ⟨rfl, -⟩ | ⟨rfl, -⟩ <;> decide
    · have := hf.depth
      rw [hgains.depth]
      omega
  · rw [hrun]
    exact ⟨.unsupportedOperator node operator, head?_unless (not_mem_of_arithmetic hnone), rfl⟩

/-- `lowerCall` finds `functionViolations`. -/
theorem finds_call (node : Datum) (name : String) :
    Finds (·.Knows known (n + 1)) (lowerCall name node.location?)
      (functionViolations node (.text name)) (·.Knows known (n + 1)) := by
  intro f hf
  rcases call_cases name node.location? hf.depth with ⟨g, hrun⟩ | ⟨hnone, hrun⟩
  · rw [hrun]
    rcases gains_call hrun with ⟨rfl, hgains, -⟩ | ⟨rfl, hgains, -⟩
    · exact ⟨rfl, hf.step hgains.slots (hgains.depth.trans hf.depth)⟩
    · exact ⟨rfl, hf.step hgains.slots (hgains.depth.trans hf.depth)⟩
  · rw [hrun]
    exact ⟨.undeclaredFunction node name, head?_unless hnone, rfl⟩

/-! ## Expressions -/

/-- `lowerExpression` finds `expressionViolations` on a standard tree, by induction on it. -/
theorem finds_expression {d : Datum} (hstandard : d.isStandard = true) :
    Finds (·.Knows known n) (lowerExpression d) (expressionViolations known d)
      (·.Knows known (n + 1)) := by
  induction d using expression_induction generalizing n with
  | literal tag value _ =>
    have hplain : isPlain (.literal tag value) = true := hstandard
    rw [lowerExpression, expressionViolations, ← List.append_nil (valueViolations _ _)]
    refine .leavingOne (.check (checks_value _ _) fun v _ => ?_)
    rw [if_pos hplain]
    exact finds_literal v
  | reference tag name _ =>
    have hplain : isPlain (.reference tag name) = true := hstandard
    rw [lowerExpression, expressionViolations]
    refine .leavingOne (.check (checks_name _ _) ?_)
    rintro word rfl
    rw [if_pos hplain]
    exact finds_reference _ word
  | binary tag left operator right ihleft ihright _ =>
    obtain ⟨hplain, hleft, hright⟩ : isPlain (.binary tag left operator right) = true ∧
        left.isStandard = true ∧ right.isStandard = true := by
      simpa [Datum.isStandard] using hstandard
    rw [lowerExpression, expressionViolations]
    refine .leavingOne (.check (checks_operator _ _) ?_)
    rintro word rfl
    rw [if_pos hplain]
    exact (ihleft hleft).seq ((ihright hright).seq (finds_operator _ word))
  | call tag name argument ih _ =>
    obtain ⟨hplain, hargument⟩ : isPlain (.call tag name argument) = true ∧
        argument.isStandard = true := by
      simpa [Datum.isStandard] using hstandard
    rw [lowerExpression, expressionViolations]
    refine .leavingOne (.check (checks_name _ _) ?_)
    rintro word rfl
    rw [if_pos hplain]
    exact (ih hargument).seq (finds_call _ word)
  | other d hliteral hreference hbinary hcall =>
    rw [lowerExpression, expressionViolations]
    · exact .throw (.unrecognized d)
    all_goals assumption

/-! ## Statements -/

/-- `lowerBinding` finds the violations of the value, and then knows the name. -/
theorem finds_binding {e : Datum} (hstandard : e.isStandard = true) (d : Datum) (word : String) :
    Finds (·.Knows known n) (lowerBinding d (lowerExpression e) (some word)) (expressionViolations known e)
      (·.Knows (bindName known word) (n + 1)) := by
  refine Specified.get fun f hf => ?_
  rintro g rfl
  have hbind : Finds (·.Knows known (n + 1)) (modify (·.bind word g.depth)) []
      (·.Knows (bindName known word) (n + 1)) := by
    intro h hh
    refine ⟨rfl, ?_, hh.depth⟩
    rw [Frame.names_bind, hh.names]
  exact (finds_expression hstandard).followed hbind g hf

/-- `lowerExit` takes its status from the stack. -/
theorem finds_exit : Finds (·.Knows known (n + 1)) lowerExit [] (·.Knows known n) := by
  intro f hf
  obtain ⟨g, hrun, hgains, -⟩ := exit_runs hf.depth
  rw [hrun]
  exact ⟨rfl, hf.step hgains.slots hgains.depth⟩

/-- `isRange` decides `iterableViolations`: a loop over anything but a range stops before what it goes over
    is lowered. -/
theorem finds_iterable {pre post : Frame → Prop} {k : Lowering Unit} {vs : List Violation}
    (node e : Datum) (hk : Finds pre k vs post) :
    Finds pre (Lowering.check (isRange e) >>= fun counts =>
      if counts then k else throw (iterableFault node e)) (iterableViolations node e ++ vs) post := by
  cases e with
  | call tag name argument =>
    -- the name of a call is checked before it is compared
    have hname := checks_name (.call tag name argument) name
    by_cases hrange : name = .text "range"
    · subst hrange
      exact hk
    · rw [iterableViolations, List.append_assoc]
      · cases hchecked : nameOf (.call tag name argument) name with
        | ok word =>
          rw [hchecked] at hname
          obtain ⟨hnil, rfl⟩ := hname
          rw [hnil]
          have hdecided : isRange (.call tag (.text word) argument) = .ok false := by
            have hne : word ≠ "range" := fun h => hrange (congrArg _ h)
            rw [isRange, hchecked, ← decide_eq_false hne]
            rfl
          rw [hdecided]
          exact .throw (.iterable node _)
        | error fault =>
          rw [hchecked] at hname
          obtain ⟨v, hv, rfl⟩ := hname
          have hstopped : isRange (.call tag name argument) = .error v.fault := by
            rw [isRange, hchecked]
            rfl
          rw [hstopped]
          exact fun _ _ => ⟨v, by rw [List.head?_append, hv]; rfl, rfl⟩
      · exact hrange
  | _ => exact .throw (.iterable node _)

/-- `statementViolations` are those of the name that the statement binds, which `boundName?` checks, and
    then those that `lowerStatement` finds. -/
theorem finds_statement {d : Datum} (hstatement : d.isStatement = true) (hstandard : d.isStandard = true) :
    ∃ vs ws, statementViolations known d = vs ++ ws ∧
      Checks (boundName? d) vs fun bound =>
        Finds (·.Knows known n) (lowerStatement d bound) ws fun g => ∃ m, g.Knows (namesAfter known d) m := by
  cases d with
  | exit tag e =>
    obtain ⟨hplain, he⟩ : isPlain (.exit tag e) = true ∧ e.isStandard = true := by
      simpa [Datum.isStandard] using hstandard
    refine ⟨[], expressionViolations known e, rfl, rfl, ?_⟩
    simp only [lowerStatement_exit hplain]
    exact (finds_expression he).followed (finds_exit.mono fun _ hg => ⟨n, hg⟩)
  | assign tag name e =>
    obtain ⟨hplain, he⟩ : isPlain (.assign tag name e) = true ∧ e.isStandard = true := by
      simpa [Datum.isStandard] using hstandard
    refine ⟨_, _, rfl, (checks_name _ name).bound ?_⟩
    rintro word rfl
    rw [lowerStatement_assign hplain]
    exact (finds_binding he (.assign tag (.text word) e) word).mono fun _ hg => ⟨n + 1, hg⟩
  | loop tag name e =>
    obtain ⟨hplain, he⟩ : isPlain (.loop tag name e) = true ∧ e.isStandard = true := by
      simpa [Datum.isStandard] using hstandard
    refine ⟨_, _, rfl, (checks_name _ name).bound ?_⟩
    rintro word rfl
    rw [lowerStatement_loop hplain]
    have hbinding := @finds_binding known n e he (.loop tag (.text word) e) word
    exact finds_iterable _ e (hbinding.mono fun _ hg => ⟨n + 1, hg⟩)
  | endLoop tag =>
    refine ⟨[], _, rfl, rfl, ?_⟩
    simp only [lowerStatement_endLoop hstandard]
    exact .throw (.loopBody (.endLoop tag))
  | bare tag family =>
    refine ⟨[], _, rfl, rfl, ?_⟩
    simp only [lowerStatement_bare hstandard]
    exact .throw (.unrecognized (.bare tag family))
  | _ => cases hstatement

/-- `lowerElement` finds `statementViolations`. -/
theorem finds_element {comments : Bool} {d : Datum} (hstandard : d.isStandard = true)
    (hshown : comments = true → ∃ text, d.statementText = .ok text) :
    Finds (·.Knows known n) (lowerElement comments d) (statementViolations known d)
      fun g => ∃ m, g.Knows (namesAfter known d) m := by
  unfold lowerElement
  cases hstatement : d.isStatement with
  | false =>
    rw [statementViolations_of_not_isStatement hstatement]
    exact fun _ _ => ⟨.unrecognized d, rfl, rfl⟩
  | true =>
    obtain ⟨vs, ws, hviolations, hchecks⟩ := @finds_statement known n d hstatement hstandard
    rw [hviolations]
    refine .check hchecks fun bound hlower => ?_
    -- neither a note nor a comment changes what the frame knows
    have hnoted : Finds (·.Knows known n) (MonadState.get >>= fun f =>
        note (.lowering d.typeName f.depth) >>= fun _ => lowerStatement d bound) ws
        fun g => ∃ m, g.Knows (namesAfter known d) m :=
      fun f hf => hlower (f.note _) ⟨hf.names, hf.depth⟩
    cases comments with
    | false => exact hnoted
    | true =>
      obtain ⟨text, htext⟩ := hshown rfl
      rw [htext]
      exact fun f hf => hnoted (f.emit 1 (.comment text)) ⟨hf.names, hf.depth⟩

end Parts

/-- `lowerAll` finds `violations`, by induction on the list. -/
theorem finds_all {comments : Bool} {statements : List Datum}
    (hstandard : ∀ d ∈ statements, d.isStandard = true)
    (hshown : comments = true → ∀ d ∈ statements, ∃ text, d.statementText = .ok text) :
    ∀ known n, Finds (·.Knows known n) (lowerAll comments statements) (violations known statements)
      fun _ => True := by
  induction statements with
  | nil => exact fun _ _ _ _ => ⟨rfl, trivial⟩
  | cons d rest ih =>
    intro known n
    have helement := @finds_element known n comments d (hstandard d (by simp)) fun hcomments => hshown hcomments d (by simp)
    refine helement.seq fun g hg => ?_
    obtain ⟨m, hm⟩ := hg
    exact ih (fun x hx => hstandard x (by simp [hx])) (fun hcomments x hx => hshown hcomments x (by simp [hx])) _ m g hm

end Lowering

/-! ## Programs -/

/-- `lower` accepts just the `WellScoped` lists, and refuses any other list of data for the first of its
    `violations`.  Numbers too long to be written matter only where statements are shown in comments, or
    where a field that holds one has to be quoted. -/
theorem lower_stops_at_first_violation {comments : Bool} {statements : List Datum}
    (hstandard : ∀ d ∈ statements, d.isStandard = true)
    (hshown : comments = true → ∀ d ∈ statements, ∃ text, d.statementText = .ok text) :
    ((∃ text, (lower comments statements).text = .ok text) ↔ WellScoped [] statements) ∧
      (lower comments statements).fault = (violations [] statements).head?.map Violation.fault := by
  have hnote : Lowering.Finds (fun _ => True) (do
      let f ← get
      Lowering.note (.generated statements.length f.depth f.loops)) [] fun _ => True :=
    fun _ _ => ⟨rfl, trivial⟩
  have hfinds := (Lowering.finds_all hstandard hshown [] 0).followed hnote {} ⟨rfl, rfl⟩
  rw [← violations_eq_nil_iff]
  unfold lower Lowering.lowerProgram
  split at hfinds
  next u frame hrun =>
    rw [hrun]
    obtain ⟨hnil, -⟩ := hfinds
    rw [hnil]
    exact ⟨⟨fun _ => rfl, fun _ => ⟨frame.text, rfl⟩⟩, rfl⟩
  next fault frame hrun =>
    rw [hrun]
    obtain ⟨v, hv, rfl⟩ := hfinds
    refine ⟨⟨?_, ?_⟩, ?_⟩
    · rintro ⟨text, htext⟩
      cases htext
    · intro hnil
      rw [hnil] at hv
      cases hv
    · rw [hv]
      rfl

/-- Four things are wrong here: an unknown name in the left operand, a literal that is no number in the
    right one, the operator between them, and the name of the last statement. -/
def faultyProgram : List Datum :=
  [.assign {} (.text "x") (.literal {} (.int 2)),
    .exit {} (.binary {} (.reference (.placed ⟨"a.zeb", 2, 6⟩) (.text "y")) (.text "/")
      (.literal {} (.truth true))),
    .assign {} (.text "") (.literal {} (.int 3))]

/-- `faultyProgram` is refused for the unknown name, the first of the four. -/
theorem lower_faultyProgram :
    (∀ d ∈ faultyProgram, d.isStandard = true) ∧
      (∀ d ∈ faultyProgram, ∃ text, d.statementText = .ok text) ∧ ¬WellScoped [] faultyProgram ∧
      (lower true faultyProgram).fault =
        some (.report (.undeclared "y" ["x"]) (some (.known ⟨"a.zeb", 2, 6⟩))) := by
  have hstandard : ∀ d ∈ faultyProgram, d.isStandard = true := by decide
  have hshown : ∀ d ∈ faultyProgram, ∃ text, d.statementText = .ok text := by
    rintro d (_ | ⟨_, _ | ⟨_, _ | ⟨_, ⟨⟩⟩⟩⟩)
    · exact ⟨"x = 2", by cbv⟩
    · exact ⟨"exit (y / True)", by cbv⟩
    · exact ⟨" = 3", by cbv⟩
  obtain ⟨hlowered, hfault⟩ := lower_stops_at_first_violation hstandard fun _ => hshown
  refine ⟨hstandard, hshown, fun hscoped => ?_, hfault⟩
  obtain ⟨text, htext⟩ := hlowered.mpr hscoped
  rw [Lowered.text, hfault] at htext
  cases htext

end ZebLang
