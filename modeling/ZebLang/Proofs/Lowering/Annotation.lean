/-
  Comments change nothing else.

  A frame with comments is read beside the same frame without them (`Frame.Annotates`).  No step of lowering
  looks at the lines that there are, so from the one it does what it does from the other, and whatever
  stops it stops it there too (`Alike`).

  The only step that differs is the comment in front of a statement: it goes to one of the two frames, and is
  the text of the statement.  So a statement list is lowered with comments as without, and the comments are
  the texts of its statements in their order (`alike_all`).
-/

import ZebLang.Proofs.Datum.Writing
import ZebLang.Proofs.Lowering.Specification

namespace ZebLang

/-! ## A frame without its comments -/

/-- Whether a line is a comment. -/
def Line.isComment (l : Line) : Bool :=
  match l.item with
  | .comment _ => true
  | _ => false

namespace Frame

/-- `f.bare`: the frame without its comments. -/
def bare (f : Frame) : Frame := { f with lines := f.lines.filter fun l => !l.isComment }

theorem toList_bare (f : Frame) : f.bare.lines.toList = f.lines.toList.filter fun l => !l.isComment := by
  simp [bare]

/-- `f.remarks`: the comments of the frame. -/
def remarks (f : Frame) : List Line := f.lines.toList.filter Line.isComment

/-- `f.Annotates remarks g`: `f` is `g` with the comments `remarks` in between. -/
structure Annotates (f : Frame) (remarks : List Line) (g : Frame) : Prop where
  bare : f.bare = g
  remarks : f.remarks = remarks

section Steps

variable {f g : Frame} {remarks : List Line}

/-- `Annotates` is kept by lines that are no comments, added to both frames. -/
theorem Annotates.append (h : f.Annotates remarks g) {lines : List Line}
    (hlines : ∀ l ∈ lines, l.isComment = false) :
    Annotates { f with lines := f.lines ++ lines } remarks { g with lines := g.lines ++ lines } := by
  obtain ⟨rfl, rfl⟩ := h
  have hall : lines.filter (fun l => !l.isComment) = lines :=
    List.filter_eq_self.mpr fun l hl => by rw [hlines l hl]; rfl
  have hnone : lines.filter Line.isComment = [] :=
    List.filter_eq_nil_iff.mpr fun l hl => by rw [hlines l hl]; exact Bool.false_ne_true
  constructor
  · have hfilter : (f.lines ++ lines).filter (fun l => !l.isComment) =
        f.lines.filter (fun l => !l.isComment) ++ lines := by
      apply Array.toList_inj.mp
      simp [hall]
    exact congrArg (fun lines => { f with lines }) hfilter
  · simp [Frame.remarks, hnone]

/-- `Annotates` is kept by `emit` of a line that is no comment. -/
theorem Annotates.emit (h : f.Annotates remarks g) {level : Nat} {item : Item}
    (hitem : (Line.mk level item).isComment = false) :
    (f.emit level item).Annotates remarks (g.emit level item) := by
  have happend := h.append (List.forall_mem_singleton.mpr hitem)
  simpa [Frame.emit] using happend

/-- `Annotates` is kept by setting both depths. -/
theorem Annotates.withDepth (h : f.Annotates remarks g) (depth : Nat) :
    Annotates { f with depth } remarks { g with depth } := by
  obtain ⟨rfl, rfl⟩ := h
  exact ⟨rfl, rfl⟩

theorem Annotates.depth (h : f.Annotates remarks g) : g.depth = f.depth := by
  obtain ⟨rfl, -⟩ := h
  rfl

/-- `Annotates` gains a remark by `emit` of a comment on the one side. -/
theorem Annotates.comment (h : f.Annotates remarks g) (text : String) :
    (f.emit 1 (.comment text)).Annotates (remarks ++ [⟨1, .comment text⟩]) g := by
  obtain ⟨rfl, rfl⟩ := h
  constructor
  · simp [Frame.bare, Frame.emit, Line.isComment]
  · simp [Frame.remarks, Frame.emit, Line.isComment]

/-- A line of `f` is one of `remarks`, or a line of `g` and no comment. -/
theorem Annotates.mem_cases (h : f.Annotates remarks g) {l : Line} (hl : l ∈ f.lines.toList) :
    l ∈ remarks ∨ l ∈ g.lines.toList ∧ l.isComment = false := by
  obtain ⟨rfl, rfl⟩ := h
  cases hcomment : l.isComment with
  | true => exact .inl (List.mem_filter.mpr ⟨hl, hcomment⟩)
  | false =>
    refine .inr ⟨?_, rfl⟩
    rw [toList_bare]
    exact List.mem_filter.mpr ⟨hl, by rw [hcomment]; rfl⟩

theorem Annotates.mem_of_mem_remarks (h : f.Annotates remarks g) {l : Line} (hl : l ∈ remarks) :
    l ∈ f.lines.toList := by
  rw [← h.remarks] at hl
  exact (List.mem_filter.mp hl).1

end Steps

end Frame

namespace Lowering

/-! ## Side by side -/

/-- `Agree remarks r r'`: both computations gave the same, or both stopped with the same fault, at frames of
    which the first `Annotates` the second. -/
inductive Agree {α : Type} (remarks : List Line) :
    EStateM.Result Fault Frame α → EStateM.Result Fault Frame α → Prop where
  | ok {a f g} (h : f.Annotates remarks g) : Agree remarks (.ok a f) (.ok a g)
  | error {e f g} (h : f.bare = g) : Agree remarks (.error e f) (.error e g)

/-- `Alike before after x y`: from a frame with the comments `before`, `x` does what `y` does without them,
    and makes them `after`. -/
def Alike {α : Type} (before after : List Line) (x y : Lowering α) : Prop :=
  ∀ f g, f.Annotates before g → Agree after (x.run f) (y.run g)

namespace Alike

variable {α β : Type} {before between after remarks : List Line} {x y : Lowering α}

/-- `Alike` composes along `bind`. -/
theorem bind {k l : α → Lowering β} (hx : Alike before between x y)
    (hk : ∀ a, Alike between after (k a) (l a)) : Alike before after (x >>= k) (y >>= l) := by
  intro f g hfg
  have hfirst := hx f g hfg
  generalize hf : x.run f = rf at hfirst
  generalize hg : y.run g = rg at hfirst
  cases hfirst with
  | ok h =>
    rw [run_bind hf, run_bind hg]
    exact hk _ _ _ h
  | error h =>
    rw [run_bind_error hf, run_bind_error hg]
    exact .error h

/-- `Alike` for a step that reads the frame. -/
theorem get {k l : Frame → Lowering β}
    (h : ∀ f g, f.Annotates before g → Alike before after (k f) (l g)) :
    Alike before after (MonadState.get >>= k) (MonadState.get >>= l) :=
  fun f g hfg => h f g hfg f g hfg

theorem modify {t t' : Frame → Frame}
    (h : ∀ f g, f.Annotates before g → (t f).Annotates after (t' g)) :
    Alike before after (modify t) (modify t') :=
  fun f g hfg => .ok (h f g hfg)

theorem set {f g : Frame} (h : f.Annotates after g) :
    Alike before after (MonadState.set f) (MonadState.set g) :=
  fun _ _ _ => .ok h

theorem throw (e : Fault) : Alike before after (MonadExcept.throw e : Lowering α) (MonadExcept.throw e) :=
  fun _ _ hfg => .error hfg.bare

theorem check (c : Except Fault α) : Alike remarks remarks (Lowering.check c) (Lowering.check c) := by
  cases c with
  | ok a => exact fun _ _ hfg => .ok hfg
  | error e => exact .throw e

/-- `Alike` for `leavingOne`: `Annotates` keeps the depth, so both pass its check or both fail. -/
theorem leavingOne {x y : Lowering Unit} (d : Datum) (h : Alike remarks remarks x y) :
    Alike remarks remarks (Lowering.leavingOne d x) (Lowering.leavingOne d y) := by
  refine .get fun f g hfg => h.bind fun _ => .get fun f' g' hfg' => ?_
  obtain ⟨rfl, -⟩ := hfg
  obtain ⟨rfl, -⟩ := hfg'
  show Alike _ _ (if f'.depth ≠ f.depth + 1 then _ else _) (if f'.depth ≠ f.depth + 1 then _ else _)
  split
  · exact .throw _
  · exact fun _ _ hsame => .ok hsame

end Alike

/-! ## Pieces -/

section Pieces

variable {remarks : List Line}

theorem alike_instr (i : Instr) : Alike remarks remarks (instr i) (instr i) :=
  .modify fun _ _ hfg => hfg.emit rfl

theorem alike_push (r : Register) : Alike remarks remarks (push r) (push r) := by
  refine .modify fun f g hfg => ?_
  unfold Frame.push
  rw [hfg.depth]
  exact (hfg.emit rfl).withDepth (f.depth + 1)

theorem alike_pop (r : Register) : Alike remarks remarks (pop r) (pop r) := by
  refine .get fun f g hfg => ?_
  unfold Frame.pop
  rw [hfg.depth]
  cases f.depth with
  | zero => exact .throw _
  | succ n => exact .set ((hfg.emit rfl).withDepth n)

/-- `block` is `Alike` itself, if it has no comments. -/
theorem alike_block {lines : List Line} (h : lines.any Line.isComment = false) :
    Alike remarks remarks (block lines) (block lines) :=
  .modify fun _ _ hfg => hfg.append fun l hl => Bool.eq_false_iff.mpr (List.any_eq_false.mp h l hl)

theorem alike_literal (n : Int) : Alike remarks remarks (lowerLiteral n) (lowerLiteral n) :=
  (alike_instr _).bind fun _ => alike_push .rax

/-- `lowerReference` is `Alike` itself: both frames have one table and one depth. -/
theorem alike_reference (name : String) (place : Option Origin) :
    Alike remarks remarks (lowerReference name place) (lowerReference name place) := by
  refine .get fun f g hfg => ?_
  obtain ⟨rfl, -⟩ := hfg
  rw [show f.bare.slot? name = f.slot? name from rfl]
  cases f.slot? name with
  | none => exact .throw _
  | some slot => exact (alike_instr _).bind fun _ => alike_push .rax

theorem alike_operator (operator : String) (place : Option Origin) :
    Alike remarks remarks (lowerOperator operator place) (lowerOperator operator place) := by
  unfold lowerOperator
  cases arithmetic? operator with
  | none => exact .throw _
  | some combine =>
    exact (alike_pop .rbx).bind fun _ => (alike_pop .rax).bind fun _ =>
      (alike_instr combine).bind fun _ => alike_push .rax

theorem alike_print : Alike remarks remarks lowerPrint lowerPrint := by
  refine .get fun f g hfg => ?_
  obtain ⟨rfl, hremarks⟩ := hfg
  have hnext : f.nextPrint.2.Annotates remarks f.bare.nextPrint.2 := ⟨rfl, hremarks⟩
  exact (Alike.set hnext).bind fun _ => alike_block rfl

theorem alike_range : Alike remarks remarks lowerRange lowerRange := by
  refine .get fun f g hfg => ?_
  obtain ⟨rfl, hremarks⟩ := hfg
  have hnext : f.nextLoop.2.Annotates remarks f.bare.nextLoop.2 := ⟨rfl, hremarks⟩
  exact (Alike.set hnext).bind fun _ => (alike_pop .rax).bind fun _ =>
    (alike_instr _).bind fun _ => (alike_push .rbx).bind fun _ => alike_block rfl

/-- `lowerCall` is `Alike` itself. -/
theorem alike_call (name : String) (place : Option Origin) :
    Alike remarks remarks (lowerCall name place) (lowerCall name place) := by
  unfold lowerCall
  split
  · exact alike_print
  · split
    · exact alike_range
    · exact .throw _

theorem alike_exit : Alike remarks remarks lowerExit lowerExit :=
  (alike_instr _).bind fun _ => (alike_pop .rdi).bind fun _ => alike_instr _

theorem alike_verbatim (value : String) : Alike remarks remarks (lowerVerbatim value) (lowerVerbatim value) :=
  Alike.bind (.modify fun _ _ hfg => hfg.emit rfl) fun _ => alike_push .rax

/-- `lowerBinding` is `Alike` itself, if the code of the value is. -/
theorem alike_binding {code : Lowering Unit} (h : Alike remarks remarks code code) (d : Datum)
    (name : Option String) : Alike remarks remarks (lowerBinding d code name) (lowerBinding d code name) := by
  refine .get fun f g hfg => h.bind fun _ => (Alike.check _).bind fun word => ?_
  obtain ⟨rfl, -⟩ := hfg
  refine .modify fun f' g' hfg' => ?_
  obtain ⟨rfl, hremarks⟩ := hfg'
  exact ⟨rfl, hremarks⟩

/-- `ask` for code of a rule: `Alike` if the code that is found is. -/
theorem alike_asked {found : Option (Lowering Unit)} (h : ∀ x ∈ found, Alike remarks remarks x x)
    {k : Lowering Unit → Lowering Unit} (hk : ∀ x, Alike remarks remarks x x → Alike remarks remarks (k x) (k x))
    (d : Datum) (field : String) :
    Alike remarks remarks (check (d.ask field found) >>= k) (check (d.ask field found) >>= k) := by
  cases found with
  | none => exact .throw _
  | some x => exact hk x (h x rfl)

/-- `lowerByTitle` is `Alike` itself, if the code that it asks for is. -/
theorem alike_byTitle {code : Additions (Lowering Unit)} (hcode : code.All fun x => Alike remarks remarks x x)
    (d : Datum) (name : Option String) :
    Alike remarks remarks (lowerByTitle d name code) (lowerByTitle d name code) := by
  unfold lowerByTitle
  split
  case h_1 => exact alike_asked hcode.expression (fun x hx => hx.bind fun _ => alike_exit) d _
  case h_2 => exact alike_asked hcode.expression (fun x hx => alike_binding hx d _) d _
  case h_3 =>
    refine (Alike.check _).bind fun e => (Alike.check _).bind fun range => ?_
    split
    · exact alike_asked hcode.expression (fun x hx => alike_binding hx d _) d _
    · exact .throw _
  case h_4 => exact .throw _
  case h_5 => exact (Alike.check _).bind fun value => (Alike.check _).bind fun text => alike_verbatim text
  case h_6 => exact (Alike.check _).bind fun word => alike_reference word _
  case h_7 =>
    exact alike_asked hcode.left (fun x hx => hx.bind fun _ =>
      alike_asked hcode.right (fun y hy => hy.bind fun _ =>
        (Alike.check _).bind fun operator => alike_operator operator _) d _) d _
  case h_8 =>
    exact alike_asked hcode.argument (fun x hx => hx.bind fun _ =>
      (Alike.check _).bind fun word => alike_call word _) d _
  case h_9 => exact .throw _

end Pieces

/-! ## Expressions and statements -/

section Nodes

variable {remarks : List Line}

/-- `lowerExpression` is `Alike` itself, by induction on the expression. -/
theorem alike_expression (d : Datum) : Alike remarks remarks (lowerExpression d) (lowerExpression d) := by
  induction d using expression_induction with
  | literal tag value hadded =>
    rw [lowerExpression, lowerTag_eq]
    refine .leavingOne _ ((Alike.check _).bind fun n => ?_)
    split
    · exact alike_literal n
    · exact alike_byTitle (hadded.map fun _ h => h) _ _
  | reference tag name hadded =>
    rw [lowerExpression, lowerTag_eq]
    refine .leavingOne _ ((Alike.check _).bind fun word => ?_)
    split
    · exact alike_reference word _
    · exact alike_byTitle (hadded.map fun _ h => h) _ _
  | binary tag left operator right ihleft ihright hadded =>
    rw [lowerExpression, lowerTag_eq]
    refine .leavingOne _ ((Alike.check _).bind fun word => ?_)
    split
    · exact ihleft.bind fun _ => ihright.bind fun _ => alike_operator word _
    · exact alike_byTitle (hadded.map fun _ h => h) _ _
  | call tag name argument ih hadded =>
    rw [lowerExpression, lowerTag_eq]
    refine .leavingOne _ ((Alike.check _).bind fun word => ?_)
    split
    · exact ih.bind fun _ => alike_call word _
    · exact alike_byTitle (hadded.map fun _ h => h) _ _
  | other d hliteral hreference hbinary hcall =>
    rw [lowerExpression]
    · exact .throw _
    all_goals assumption

/-- `lowerStatement` is `Alike` itself. -/
theorem alike_statement (d : Datum) (name : Option String) :
    Alike remarks remarks (lowerStatement d name) (lowerStatement d name) := by
  have heach : ∀ {found : Option Datum}, ∀ x ∈ found.map lowerExpression, Alike remarks remarks x x := by
    intro found x hx
    obtain ⟨e, -, rfl⟩ := Option.map_eq_some_iff.mp hx
    exact alike_expression e
  exact alike_byTitle ⟨heach, heach, heach, heach, heach⟩ d name

/-- `lowerStatement` with the note in front of it. -/
theorem alike_noted (d : Datum) (name : Option String) :
    Alike remarks remarks
      (MonadState.get >>= fun f => note (.lowering d.typeName f.depth) >>= fun _ => lowerStatement d name)
      (MonadState.get >>= fun f => note (.lowering d.typeName f.depth) >>= fun _ => lowerStatement d name) := by
  refine .get fun f g hfg => ?_
  rw [hfg.depth]
  refine Alike.bind (.modify fun f' g' hfg' => ?_) fun _ => alike_statement d name
  obtain ⟨rfl, hremarks⟩ := hfg'
  exact ⟨rfl, hremarks⟩

/-- `lowerElement` with comments is `Alike` the one without; its one remark is the text of the statement. -/
theorem alike_element {d : Datum} {text : String} (htext : d.statementText = .ok text) :
    Alike remarks (remarks ++ [⟨1, .comment text⟩]) (lowerElement true d) (lowerElement false d) := by
  unfold lowerElement
  rw [htext]
  cases d.isStatement with
  | false => exact fun _ _ hfg => .error hfg.bare
  | true =>
    refine (Alike.check (boundName? d)).bind fun name => ?_
    exact fun f g hfg => alike_noted d name _ g (hfg.comment text)

/-- `lowerAll` with comments is `Alike` the one without; its remarks are the texts of the statements, in
    order. -/
theorem alike_all {statements : List Datum} {texts : List String}
    (h : statements.mapM Datum.statementText = .ok texts) :
    Alike remarks (remarks ++ texts.map fun text => ⟨1, .comment text⟩) (lowerAll true statements)
      (lowerAll false statements) := by
  induction statements generalizing texts remarks with
  | nil =>
    rw [List.mapM_nil] at h
    cases h
    rw [List.map_nil, List.append_nil]
    exact fun _ _ hfg => .ok hfg
  | cons d rest ih =>
    rw [List.mapM_cons] at h
    obtain ⟨text, htext, h⟩ := exists_ok_of_bind h
    obtain ⟨more, hmore, h⟩ := exists_ok_of_bind h
    cases h
    have hrest := @ih (remarks ++ [⟨1, .comment text⟩]) more hmore
    rw [List.append_assoc] at hrest
    exact (alike_element htext).bind fun _ => hrest

end Nodes

end Lowering

end ZebLang
