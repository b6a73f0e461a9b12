/-
  What lowering refuses in a program that source text spells.

  The parser lets nothing through that lowering would call malformed: names are identifiers, operators are
  signs, literals fit.  What is left to refuse are names and functions that are not known, two operators,
  and two kinds of loop; and every node has a place, so every diagnostic has one.

  `Meets` is the specification of a piece of lowering: from a frame with so many values on the stack it
  goes to a frame as `post` says, or stops with such a diagnostic (`Rejects`).  Each piece is specified
  once and sequences follow by `Meets.bind`.  The depth is part of it, because a pop from an empty stack
  would be a fault of another sort.
-/

import ZebLang.Proofs.Lowering.Specification
import ZebLang.Proofs.Program.RoundTrip

namespace ZebLang

/-- `loweringCategories`: the categories under which a program may be parsed and not lowered. -/
def loweringCategories : List Category :=
  [.undeclaredVariable, .undeclaredFunction, .unsupportedOperator, .notImplemented]

/-- `Rejects fault`: a diagnostic at a place, in one of the `loweringCategories`. -/
inductive Rejects : Fault → Prop where
  | report {cause : Cause} {place : Location} {category : Category}
      (hcause : cause.category = some category) (hcategory : category ∈ loweringCategories) :
      Rejects (.report cause (some (.known place)))

/-- `f.Holds depth`: so many values lie on the stack, and the text starts as all assembly does. -/
structure Frame.Holds (f : Frame) (depth : Nat) : Prop where
  depth : f.depth = depth
  prologue : f.prologue = ZebLang.prologue

namespace Lowering

/-! ## Specifications -/

/-- `Meets pre x post`: from a frame as `pre` says, `x` ends in one as `post` says, or with a fault that
    `Rejects`. -/
def Meets {α : Type} (pre : Frame → Prop) (x : Lowering α) (post : α → Frame → Prop) : Prop :=
  Specified pre x post fun fault _ => Rejects fault

namespace Meets

variable {α β : Type} {pre pre' : Frame → Prop} {mid : α → Frame → Prop} {post : β → Frame → Prop}

/-- `Meets` is monotone in its postcondition. -/
theorem mono {x : Lowering α} {mid' : α → Frame → Prop} (hx : Meets pre x mid)
    (hmono : ∀ a g, mid a g → mid' a g) : Meets pre x mid' :=
  Specified.mono hx hmono fun _ _ h => h

/-- `Meets` composes along `bind`. -/
theorem bind {x : Lowering α} {k : α → Lowering β} (hx : Meets pre x mid)
    (hk : ∀ a, Meets (mid a) (k a) post) : Meets pre (x >>= k) post :=
  Specified.bind hx hk

/-- `Meets` composes where the first step gives nothing to go on with. -/
theorem seq {x : Lowering Unit} {y : Lowering β} {mid : Frame → Prop} (hx : Meets pre x fun _ => mid)
    (hy : Meets mid y post) : Meets pre (x >>= fun _ => y) post :=
  hx.bind fun _ => hy

/-- `Meets` for a check that succeeds, and what is done with what it gives. -/
theorem check {x : Except Fault α} {k : α → Lowering β} {a : α} (hx : x = .ok a)
    (hk : Meets pre (k a) post) : Meets pre (Lowering.check x >>= k) post := by
  subst hx
  exact hk

/-- `Meets` for a step that reads the frame. -/
theorem get {k : Frame → Lowering β} (hk : ∀ f, pre f → Meets (· = f) (k f) post) :
    Meets pre (MonadState.get >>= k) post :=
  Specified.get hk

/-- `Meets` for `leavingOne`: code that leaves one more value passes its check. -/
theorem leavingOne {d : Datum} {code : Lowering Unit} {n : Nat}
    (hcode : Meets (·.Holds n) code fun _ g => g.Holds (n + 1)) :
    Meets (·.Holds n) (Lowering.leavingOne d code) fun _ g => g.Holds (n + 1) :=
  Specified.leavingOne hcode fun _ _ hf hg => by rw [hg.depth, hf.depth]

/-- `Meets` for a diagnostic in one of the `loweringCategories`. -/
theorem throw {cause : Cause} {place : Location} {category : Category}
    (hcause : cause.category = some category) (hcategory : category ∈ loweringCategories) :
    Meets pre (MonadExcept.throw (.report cause (some (.known place))) : Lowering β) post :=
  fun _ _ => .report hcause hcategory

end Meets

/-! ## Steps on the frame -/

section Steps

variable {n : Nat}

theorem meets_instr (i : Instr) : Meets (·.Holds n) (instr i) fun _ g => g.Holds n :=
  fun _ hf => ⟨hf.depth, hf.prologue⟩

theorem meets_push (r : Register) : Meets (·.Holds n) (push r) fun _ g => g.Holds (n + 1) :=
  fun _ hf => ⟨congrArg (· + 1) hf.depth, hf.prologue⟩

theorem meets_pop (r : Register) : Meets (·.Holds (n + 1)) (pop r) fun _ g => g.Holds n := by
  intro f hf
  rw [run_pop r hf.depth]
  exact ⟨rfl, hf.prologue⟩

theorem meets_block (lines : List Line) : Meets (·.Holds n) (block lines) fun _ g => g.Holds n :=
  fun _ hf => ⟨hf.depth, hf.prologue⟩

theorem meets_comment (text : String) : Meets (·.Holds n) (comment text) fun _ g => g.Holds n :=
  fun _ hf => ⟨hf.depth, hf.prologue⟩

theorem meets_note (e : Note) : Meets (·.Holds n) (note e) fun _ g => g.Holds n :=
  fun _ hf => ⟨hf.depth, hf.prologue⟩

/-! ## Parts of expressions -/

theorem meets_literal (v : Int) :
    Meets (·.Holds n) (lowerLiteral v) fun _ g => g.Holds (n + 1) :=
  (meets_instr _).seq (meets_push .rax)

/-- `lowerReference` leaves one more value, or reports the name. -/
theorem meets_reference (name : String) (place : Location) :
    Meets (·.Holds n) (lowerReference name (some (.known place))) fun _ g => g.Holds (n + 1) := by
  refine Meets.get fun f hf => ?_
  split
  next => exact .throw rfl (by decide)
  next slot hslot =>
    rintro g rfl
    exact (meets_instr _).seq (meets_push .rax) g hf

/-- `lowerOperator` takes two values and leaves one, or reports the operator. -/
theorem meets_operator (operator : String) (place : Location) :
    Meets (·.Holds (n + 2)) (lowerOperator operator (some (.known place))) fun _ g => g.Holds (n + 1) := by
  unfold lowerOperator
  split
  next => exact .throw rfl (by decide)
  next combine hcombine =>
    exact (meets_pop .rbx).seq ((meets_pop .rax).seq ((meets_instr combine).seq (meets_push .rax)))

theorem meets_print : Meets (·.Holds n) lowerPrint fun _ g => g.Holds n :=
  fun _ hf => ⟨hf.depth, hf.prologue⟩

theorem meets_range : Meets (·.Holds (n + 1)) lowerRange fun _ g => g.Holds (n + 1) := by
  refine Meets.get fun f hf => ?_
  rintro g rfl
  exact (meets_pop .rax).seq ((meets_instr _).seq ((meets_push .rbx).seq (meets_block _)))
    g.nextLoop.2 ⟨hf.depth, hf.prologue⟩

/-- `lowerCall` keeps the depth, or reports the function. -/
theorem meets_call (name : String) (place : Location) :
    Meets (·.Holds (n + 1)) (lowerCall name (some (.known place))) fun _ g => g.Holds (n + 1) := by
  unfold lowerCall
  split
  next => exact meets_print
  next =>
    split
    next => exact meets_range
    next => exact .throw rfl (by decide)

end Steps

/-! ## Fields -/

/-- `nameOf` accepts an `IsIdentifier`. -/
theorem nameOf_of_isIdentifier {word : String} (d : Datum) (h : IsIdentifier word) :
    nameOf d (.text word) = .ok word := by
  obtain ⟨first, rest, hword, -⟩ := h.spelled
  have hne : word.isEmpty = false := by
    cases hempty : word.isEmpty with
    | false => rfl
    | true =>
      rw [String.isEmpty_iff.mp hempty] at hword
      cases hword
  unfold nameOf
  dsimp only
  rw [hne]
  rfl

/-- `literalOf` accepts an integer in the range of literals. -/
theorem literalOf_of_fits {v : Int} (d : Datum) (hlow : Cause.literalMin ≤ v)
    (hhigh : v ≤ Cause.literalMax) : literalOf d (.int v) = .ok v := by
  unfold literalOf
  dsimp only
  rw [if_pos ⟨hlow, hhigh⟩]

/-! ## Expressions -/

/-- `lowerExpression` leaves one more value for a `SourceExpression`, by induction on it. -/
theorem meets_expression {e : Expr} (h : SourceExpression e.toDatum) (n : Nat) :
    Meets (·.Holds n) (lowerExpression e.toDatum) fun _ g => g.Holds (n + 1) := by
  induction e generalizing n with
  | literal value place =>
    rw [Expr.toDatum] at h
    cases h with
    | literal htag hlow hhigh =>
      rw [Expr.toDatum, lowerExpression]
      exact .leavingOne (.check (literalOf_of_fits _ hlow hhigh) (meets_literal _))
  | reference name place =>
    rw [Expr.toDatum] at h
    cases h with
    | reference htag hname =>
      rw [Expr.toDatum, lowerExpression]
      exact .leavingOne (.check (nameOf_of_isIdentifier _ hname) (meets_reference _ place))
  | binary left operator right place ihleft ihright =>
    rw [Expr.toDatum] at h
    cases h with
    | binary htag hleft hoperator hright =>
      rw [Expr.toDatum, lowerExpression]
      refine .leavingOne (.check rfl ?_)
      exact (ihleft hleft n).seq ((ihright hright (n + 1)).seq (meets_operator _ place))
  | call name argument place ih =>
    rw [Expr.toDatum] at h
    cases h with
    | call htag hname hargument =>
      rw [Expr.toDatum, lowerExpression]
      refine .leavingOne (.check (nameOf_of_isIdentifier _ hname) ?_)
      exact (ih hargument n).seq (meets_call _ place)

/-! ## Statements -/

/-- `location?` of an expression that the parser made is a place. -/
theorem exists_location (e : Expr) : ∃ place, e.toDatum.location? = some (.known place) := by
  cases e with
  | literal value place | reference name place | binary left operator right place
  | call name argument place => exact ⟨place, rfl⟩

/-- `isRange` is decided for a `SourceExpression`. -/
theorem exists_isRange {e : Datum} (h : SourceExpression e) : ∃ b, isRange e = .ok b := by
  cases h with
  | call htag hname hargument =>
    unfold isRange
    dsimp only
    rw [nameOf_of_isIdentifier _ hname]
    exact ⟨_, rfl⟩
  | literal | reference | binary => exact ⟨false, rfl⟩

/-- `lowerBinding` leaves the bound value on the stack. -/
theorem meets_binding {e : Expr} (h : SourceExpression e.toDatum) (d : Datum) (name : String) (n : Nat) :
    Meets (·.Holds n) (lowerBinding d (lowerExpression e.toDatum) (some name)) fun _ g => g.Holds (n + 1) := by
  refine Meets.get fun f hf => ?_
  rintro g rfl
  have hbind : Meets (·.Holds (n + 1)) (modify (·.bind name g.depth)) fun _ g => g.Holds (n + 1) :=
    fun _ hg => ⟨hg.depth, hg.prologue⟩
  exact (meets_expression h n).seq hbind g hf

/-- `lowerStatement` for a `SourceStatement`, whose name passes its check. -/
theorem meets_statement {s : Stmt} (h : SourceStatement s.toDatum) (n : Nat) :
    ∃ bound, boundName? s.toDatum = .ok bound ∧
      Meets (·.Holds n) (lowerStatement s.toDatum bound) fun _ g => ∃ m, g.Holds m := by
  cases s with
  | exit e place =>
    rw [Stmt.toDatum] at h ⊢
    cases h with
    | exit htag he =>
      refine ⟨none, rfl, .check rfl ?_⟩
      have hend := (@meets_instr (n + 1) (.mov (.reg .rax) (.imm exitCall))).seq
        ((meets_pop .rdi).seq (meets_instr .syscall))
      exact ((meets_expression he n).seq hend).mono fun _ _ hg => ⟨n, hg⟩
  | assign name e place =>
    rw [Stmt.toDatum] at h ⊢
    cases h with
    | @assign tag name e htag hname he =>
      refine ⟨some name, ?_, .check rfl ?_⟩
      · unfold boundName?
        dsimp only
        rw [nameOf_of_isIdentifier _ hname]
        rfl
      · exact (meets_binding he _ name n).mono fun _ _ hg => ⟨n + 1, hg⟩
  | loop name e place =>
    rw [Stmt.toDatum] at h ⊢
    cases h with
    | @loop tag name d htag hname he =>
      obtain ⟨isCount, hrange⟩ := exists_isRange he
      refine ⟨some name, ?_, .check rfl (.check hrange ?_)⟩
      · unfold boundName?
        dsimp only
        rw [nameOf_of_isIdentifier _ hname]
        rfl
      · cases isCount with
        | true =>
          exact (meets_binding he (.loop (.placed place) (.text name) e.toDatum) name n).mono
            fun _ _ hg => ⟨n + 1, hg⟩
        | false =>
          obtain ⟨found, hfound⟩ := exists_location e
          have hthrow : Meets (·.Holds n) (throw (iterableFault (.loop (.placed place) (.text name)
              e.toDatum) e.toDatum) : Lowering Unit) fun _ g => ∃ m, g.Holds m := by
            unfold iterableFault
            rw [hfound]
            exact .throw rfl (by decide)
          exact hthrow
  | endLoop place => exact ⟨none, rfl, .throw rfl (by decide)⟩

/-- `lowerElement` for a `SourceStatement`, with a comment or without. -/
theorem meets_element {s : Stmt} (h : SourceStatement s.toDatum) (comments : Bool) (n : Nat) :
    Meets (·.Holds n) (lowerElement comments s.toDatum) fun _ g => ∃ m, g.Holds m := by
  obtain ⟨bound, hbound, hmeets⟩ := meets_statement h n
  obtain ⟨text, htext, -⟩ := renders_statement h
  have hnoted : Meets (·.Holds n) (MonadState.get >>= fun f =>
      note (.lowering s.toDatum.typeName f.depth) >>= fun _ => lowerStatement s.toDatum bound)
      fun _ g => ∃ m, g.Holds m := by
    refine Meets.get fun f hf => ?_
    rintro g rfl
    exact (meets_note _).seq hmeets g hf
  have hstatement : s.toDatum.isStatement = true := by cases s <;> rfl
  unfold lowerElement
  rw [hstatement]
  refine .check hbound ?_
  cases comments with
  | false => exact hnoted
  | true => exact .check htext ((meets_comment text).seq hnoted)

/-- `lowerAll` for a list of `SourceStatement`s. -/
theorem meets_all {statements : List Stmt} (h : ∀ s ∈ statements.map Stmt.toDatum, SourceStatement s)
    (comments : Bool) (n : Nat) :
    Meets (·.Holds n) (lowerAll comments (statements.map Stmt.toDatum)) fun _ g => ∃ m, g.Holds m := by
  induction statements generalizing n with
  | nil => exact fun _ hf => ⟨n, hf⟩
  | cons s rest ih =>
    rw [List.map_cons] at h ⊢
    refine (meets_element (h _ (by simp)) comments n).seq fun g hg => ?_
    obtain ⟨m, hm⟩ := hg
    exact ih (fun x hx => h x (List.mem_cons_of_mem _ hx)) m g hm

/-- `lowerProgram` for a list of `SourceStatement`s. -/
theorem meets_program {statements : List Stmt}
    (h : ∀ s ∈ statements.map Stmt.toDatum, SourceStatement s) (comments : Bool) (n : Nat) :
    Meets (·.Holds n) (lowerProgram comments (statements.map Stmt.toDatum))
      fun _ g => ∃ m, g.Holds m := by
  refine (meets_all h comments n).seq fun g hg => ?_
  obtain ⟨m, hm⟩ := hg
  exact ⟨m, hm.depth, hm.prologue⟩

end Lowering

/-- `lowerTree` of a `SourceProgram` gives a text that starts as all assembly does, or a fault that
    `Rejects`. -/
theorem lowerTree_of_sourceProgram {p : Program} (h : SourceProgram p.toDatum) (comments : Bool) :
    (∃ code, (lowerTree comments p.toDatum).text = .ok (prologue ++ code)) ∨
      ∃ fault, (lowerTree comments p.toDatum).text = .error fault ∧ Rejects fault := by
  rw [Program.toDatum] at h ⊢
  cases h with
  | program htag heach =>
    have hmeets := Lowering.meets_program heach comments 0 {} ⟨rfl, rfl⟩
    show (∃ code, (lower comments (p.statements.map Stmt.toDatum)).text = .ok (prologue ++ code)) ∨
      ∃ fault, (lower comments (p.statements.map Stmt.toDatum)).text = .error fault ∧ Rejects fault
    unfold lower
    cases hrun : (Lowering.lowerProgram comments (p.statements.map Stmt.toDatum)).run {} with
    | ok u frame =>
      rw [hrun] at hmeets
      obtain ⟨m, hframe⟩ := hmeets
      refine .inl ⟨String.join (frame.lines.toList.map Line.text), ?_⟩
      rw [← hframe.prologue]
      rfl
    | error fault frame =>
      rw [hrun] at hmeets
      exact .inr ⟨fault, rfl, hmeets⟩

end ZebLang
