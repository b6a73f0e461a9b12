/-
  Where lowering finds something wrong with a parsed program.

  Every node of a parsed program is placed at one of the tokens that spell it: a literal at its number or at
  the minus in front of it, an operation at its operator, a name and a call at the name, a statement at its
  first word.  What is wrong is wrong with a node, so it is placed at a token too.  That goes by induction on
  how the tokens spell the program; and lowering stops with the first thing that is wrong (`finds_all`).
-/

import ZebLang.Proofs.Datum.Writing
import ZebLang.Proofs.Lowering.Diagnosis
import ZebLang.Proofs.Lowering.Relocation
import ZebLang.Proofs.Program.RoundTrip

namespace ZebLang

/-! ## Parsed data -/

/-- `toDatum` gives a standard tree: a parsed node has no title of its own. -/
theorem Expr.isStandard_toDatum (e : Expr) : e.toDatum.isStandard = true := by
  induction e with
  | literal value place | reference name place => rfl
  | binary left operator right place ihleft ihright =>
    rw [Expr.toDatum, Datum.isStandard, ihleft, ihright]
    rfl
  | call name argument place ih =>
    rw [Expr.toDatum, Datum.isStandard, ih]
    rfl

/-- `toDatum` gives a standard tree: a parsed node has no title of its own. -/
theorem Stmt.isStandard_toDatum (s : Stmt) : s.toDatum.isStandard = true := by
  cases s with
  | exit e place | assign name e place | loop name e place =>
    rw [Stmt.toDatum, Datum.isStandard, e.isStandard_toDatum]
    rfl
  | endLoop place => rfl

/-! ## Violations at tokens -/

/-- `PlacedAt tokens vs`: each of the violations is placed at one of the tokens. -/
def PlacedAt (tokens : List Token) (vs : List Violation) : Prop :=
  ∀ v ∈ vs, ∃ t ∈ tokens, v.place = some (.known t.location)

namespace PlacedAt

variable {tokens : List Token} {vs ws : List Violation}

theorem nil : PlacedAt tokens [] := fun _ hv => nomatch hv

theorem append (hvs : PlacedAt tokens vs) (hws : PlacedAt tokens ws) : PlacedAt tokens (vs ++ ws) :=
  fun v hv => (List.mem_append.mp hv).elim (hvs v) (hws v)

/-- `PlacedAt` is monotone in the tokens. -/
theorem mono {more : List Token} (h : PlacedAt tokens vs) (hmore : ∀ t ∈ tokens, t ∈ more) :
    PlacedAt more vs := by
  intro v hv
  obtain ⟨t, ht, hplace⟩ := h v hv
  exact ⟨t, hmore t ht, hplace⟩

/-- `PlacedAt` for what a `Check` finds wrong with a node: it is placed at the node. -/
theorem of_check (known : List String) (check : Check) {node held : Datum} {t : Token}
    (hnode : node.location? = some (.known t.location)) (ht : t ∈ tokens) :
    PlacedAt tokens (check.violations known node held) := by
  intro v hv
  cases check.foundBy hv with
  | field | undeclaredVariable | unsupportedOperator | undeclaredFunction => exact ⟨t, ht, hnode⟩

end PlacedAt

/-! ## Expressions -/

/-- `Spells`: an expression is placed at one of its tokens. -/
theorem Spells.located {level : Level} {tokens : List Token} {e : Expr} (h : Spells level tokens e) :
    ∃ t ∈ tokens, e.toDatum.location? = some (.known t.location) := by
  induction h with
  | number | reference | call | negative | negation => exact ⟨_, List.mem_cons_self, rfl⟩
  | group _ _ _ ih =>
    obtain ⟨t, ht, hplace⟩ := ih
    exact ⟨t, by simp [ht], hplace⟩
  | unary _ ih | operand _ ih => exact ih
  | @join _ operator => exact ⟨operator, by simp, rfl⟩

/-- `expressionViolations` are placed at tokens of the expression. -/
theorem Spells.placedAt {level : Level} {tokens : List Token} {e : Expr} (h : Spells level tokens e)
    (known : List String) : PlacedAt tokens (expressionViolations known e.toDatum) := by
  induction h with
  | number | negative => exact .of_check known .value rfl List.mem_cons_self
  | reference =>
    exact .append (.of_check known .name rfl List.mem_cons_self)
      (.of_check known .reference rfl List.mem_cons_self)
  | call _ _ _ _ ih =>
    exact .append (.of_check known .name rfl List.mem_cons_self)
      ((ih.mono (by simp +contextual)).append (.of_check known .function rfl List.mem_cons_self))
  | group _ _ _ ih => exact ih.mono (by simp +contextual)
  | negation _ _ _ ih =>
    -- the operand is taken from a zero at the minus, and both the zero and the operator are right
    exact .append .nil (.append .nil (.append (ih.mono (by simp +contextual)) .nil))
  | unary _ ih | operand _ ih => exact ih
  | @join _ operator _ _ _ _ _ _ _ ihleft ihright =>
    refine .append (.of_check known .operator rfl (t := operator) (by simp)) (.append ?_ (.append ?_ ?_))
    · exact ihleft.mono (by simp +contextual)
    · exact ihright.mono (by simp +contextual)
    · exact .of_check known .support rfl (t := operator) (by simp)

/-! ## Statements -/

/-- `iterableViolations` are placed at what the loop goes over. -/
theorem Spells.placedAt_iterable {tokens : List Token} {e : Expr} (h : Spells .sum tokens e) (node : Datum) :
    PlacedAt tokens (iterableViolations node e.toDatum) := by
  obtain ⟨t, ht, hplace⟩ := h.located
  have hiterable : PlacedAt tokens [.iterable node e.toDatum] := by
    intro v hv
    cases List.mem_singleton.mp hv
    refine ⟨t, ht, ?_⟩
    show Origin.orElse e.toDatum.location? node.location? = _
    rw [hplace]
    rfl
  unfold iterableViolations
  split
  next => exact .nil
  next heq =>
    rw [heq] at hplace hiterable
    exact .append (.of_check [] .name hplace ht) hiterable
  next => exact hiterable

/-- `statementViolations` are placed at tokens of the statement. -/
theorem SpellsStatement.placedAt {tokens : List Token} {s : Stmt} (h : SpellsStatement tokens s)
    (known : List String) : PlacedAt tokens (statementViolations known s.toDatum) := by
  cases h with
  | exit hword hvalue => exact (hvalue.placedAt known).mono (by simp +contextual)
  | assign hname hsign hvalue =>
    exact .append (.of_check known .name rfl List.mem_cons_self)
      ((hvalue.placedAt known).mono (by simp +contextual))
  | loop hword hname hjoint hrange =>
    refine .append (.of_check known .name rfl List.mem_cons_self) (.append ?_ ?_)
    · exact (hrange.placedAt_iterable _).mono (by simp +contextual)
    · exact (hrange.placedAt known).mono (by simp +contextual)
  | @endLoop word hword =>
    intro v hv
    cases List.mem_singleton.mp hv
    exact ⟨word, by simp, rfl⟩

/-- `violations` are placed at tokens of the program. -/
theorem SpellsProgram.placedAt {tokens : List Token} {program : List Stmt} (h : SpellsProgram tokens program)
    (known : List String) : PlacedAt tokens (violations known (program.map Stmt.toDatum)) := by
  induction h generalizing known with
  | finish => exact .nil
  | last hstatement => exact ((hstatement.placedAt known).mono (by simp +contextual)).append .nil
  | blank _ _ ih => exact (ih known).mono (by simp +contextual)
  | next hstatement _ _ ih =>
    exact ((hstatement.placedAt known).mono (by simp +contextual)).append
      ((ih _).mono (by simp +contextual))

/-! ## Diagnostics -/

/-- `fault` reports a violation at its place, and quotes nothing yet. -/
theorem Violation.of_fault {v : Violation} {d : Diagnostic} (h : v.fault = .diagnostic d) :
    d.location = v.place ∧ d.sourceLine = none := by
  unfold Violation.fault at h
  split at h
  next =>
    cases h
    exact ⟨rfl, rfl⟩
  next tooLong hcause =>
    -- only what a field holds can be too long to be written
    subst h
    cases v with
    | field node label held reason =>
      refine of_bind_eq_error hcause (fun hheld => ?_) fun _ h => by cases h
      cases held.unwritable_of_structural hheld
    | _ => cases hcause

/-- `d.IsBare tokens`: the diagnostic is placed at one of these tokens, and quotes nothing yet. -/
structure Diagnostic.IsBare (d : Diagnostic) (tokens : List Token) : Prop where
  unquoted : d.sourceLine = none
  placed : ∃ t ∈ tokens, d.location = some (.known t.location)

/-- `lower` reports a fault at one of the tokens that spell the program. -/
theorem isBare_of_lower {tokens : List Token} {program : List Stmt} {comments : Bool} {d : Diagnostic}
    (hspells : SpellsProgram tokens program) (hsource : ∀ s ∈ program.map Stmt.toDatum, SourceStatement s)
    (h : (lower comments (program.map Stmt.toDatum)).text = .error (.diagnostic d)) : d.IsBare tokens := by
  have hstandard : ∀ s ∈ program.map Stmt.toDatum, s.isStandard = true :=
    List.forall_mem_map.mpr fun s _ => s.isStandard_toDatum
  have hshown : comments = true → ∀ s ∈ program.map Stmt.toDatum, ∃ text, s.statementText = .ok text := by
    intro _ s hs
    obtain ⟨text, htext, -⟩ := renders_statement (hsource s hs)
    exact ⟨text, htext⟩
  have hfinds := Lowering.finds_all hstandard hshown [] 0 {} ⟨rfl, rfl⟩
  cases hrun : (Lowering.lowerAll comments (program.map Stmt.toDatum)).run {} with
  | ok u f =>
    rw [lower_of_ok hrun] at h
    cases h
  | error fault f =>
    rw [hrun] at hfinds
    obtain ⟨v, hv, hfault⟩ := hfinds
    rw [lower_of_error hrun] at h
    cases h
    obtain ⟨hlocation, hline⟩ := Violation.of_fault hfault.symm
    obtain ⟨t, ht, hplace⟩ := hspells.placedAt [] v (List.mem_of_mem_head? hv)
    exact ⟨hline, t, ht, hlocation.trans hplace⟩

end ZebLang
