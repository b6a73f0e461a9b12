/-
  Lowering is uniform.

  What lowering does to a frame depends neither on what lies in the frame already nor on how names are
  spelled nor on where nodes stand.  Take a frame and put it atop another one, `base`, with names spelled
  anew (`Frame.atop`): its labels are counted on from those of `base`, its values lie above those of
  `base`, and its names come before those of `base`.

      f ────── lowering d ──────▸ f'
      │                           │
     atop                        atop
      ▾                           ▾
      g ─ lowering d respelled ─▸ g'

  The square closes for each step on a frame, for sequences of steps, and so for expressions, statements
  and statement lists (`Mirrors`).  Where the upper side stops, the lower one stops too with a fault of the
  same class at the corresponding node, if `base` has nothing that could be read or popped instead.
-/

import Mathlib.Data.List.Basic
import ZebLang.Proofs.Assembly.Renumbering
import ZebLang.Proofs.Lowering.Balance
import ZebLang.Proofs.Lowering.Respelling

namespace ZebLang

open Lowering (isPlain)

/-! ## A frame atop another -/

/-- `n.raised base`: the note on code that comes behind the code of `base`. -/
def Note.raised (base : Frame) : Note → Note
  | lowering typeName depth => .lowering typeName (base.depth + depth)
  | minted n => .minted (base.loops + n)
  | generated statements depth loops => .generated statements (base.depth + depth) (base.loops + loops)
  | other => other

namespace Frame

/-- `base.atop s f`: the frame `f` with its code behind that of `base`, its values above those of `base`,
    and its names spelled anew in front of those of `base` that they do not replace. -/
def atop (base : Frame) (s : Respelling) (f : Frame) : Frame where
  prologue := f.prologue
  lines := base.lines ++ f.lines.map (Line.raised base.counters)
  depth := base.depth + f.depth
  loops := base.loops + f.loops
  prints := base.prints + f.prints
  slots := f.slots.map (fun b => (s.word b.1, base.depth + b.2)) ++
    base.slots.filter fun b => !(f.names.map s.word).contains b.1
  notes := base.notes ++ f.notes.map (Note.raised base)

section Atop

variable (base : Frame) (s : Respelling) (f : Frame)

/-- `atop` of the empty frame is `base`. -/
theorem atop_empty (h : base.prologue = ZebLang.prologue) : base.atop s {} = base := by
  obtain ⟨prologue, lines, depth, loops, prints, slots, notes⟩ := base
  obtain rfl : prologue = ZebLang.prologue := h
  simp [atop, names]

/-- `atop` the empty frame only spells the names anew. -/
theorem empty_atop : ({} : Frame).atop s f = { f with slots := f.slots.map fun b => (s.word b.1, b.2) } := by
  have hraised : Line.raised ({} : Frame).counters = id := by
    funext l
    obtain ⟨level, item⟩ := l
    cases item with
    | label l => cases l <;> simp [Line.raised, Item.raised, Label.raised, counters]
    | instr i =>
      cases i with
      | jump condition target =>
        cases target <;> simp [Line.raised, Item.raised, Instr.raised, Label.raised, counters]
      | _ => rfl
    | _ => rfl
  have hnote : Note.raised {} = id := by
    funext n
    cases n <;> simp [Note.raised]
  simp [atop, hraised, hnote]

/-- `emit` commutes with `atop`; the labels of the line are raised by the counters of `base`. -/
theorem atop_emit (level : Nat) (item : Item) :
    base.atop s (f.emit level item) = (base.atop s f).emit level (item.raised base.counters) := by
  simp [atop, emit, Line.raised, names]

theorem atop_push (level : Nat) (r : Register) :
    base.atop s (f.push level r) = (base.atop s f).push level r := by
  simp [atop, push, emit, Line.raised, names, Item.raised, Instr.raised, Nat.add_assoc]

theorem atop_pop (level depth : Nat) (r : Register) :
    base.atop s { f.emit level (.instr (.pop r)) with depth } =
      { (base.atop s f).emit level (.instr (.pop r)) with depth := base.depth + depth } := by
  simp [atop, emit, Line.raised, names, Item.raised, Instr.raised]

theorem atop_block (lines : List Line) :
    base.atop s { f with lines := f.lines ++ lines } =
      { base.atop s f with
        lines := (base.atop s f).lines ++ lines.map (Line.raised base.counters) } := by
  have hlines : base.lines ++ (f.lines ++ lines).map (Line.raised base.counters) =
      base.lines ++ f.lines.map (Line.raised base.counters) ++
        lines.map (Line.raised base.counters) := by
    apply Array.toList_inj.mp
    simp
  simp [atop, names, hlines]

theorem atop_note (n : Note) :
    base.atop s (f.note n) = (base.atop s f).note (n.raised base) := by
  simp [atop, note, names]

theorem atop_nextPrint : base.atop s f.nextPrint.2 = (base.atop s f).nextPrint.2 := by
  simp [atop, nextPrint, names, Nat.add_assoc]

theorem atop_nextLoop : base.atop s f.nextLoop.2 = (base.atop s f).nextLoop.2 := by
  simp [atop, nextLoop, note, Note.raised, names, Nat.add_assoc]

/-- `lookup` of a respelled name in the respelled table, since `word` is injective. -/
theorem lookup_map_word (slots : List (String × Nat)) (w : String) :
    (slots.map fun b => (s.word b.1, base.depth + b.2)).lookup (s.word w) =
      (slots.lookup w).map (base.depth + ·) := by
  induction slots with
  | nil => rfl
  | cons b rest ih =>
    rw [List.map_cons, List.lookup_cons, List.lookup_cons, ih]
    by_cases h : w = b.1
    · simp [h]
    · rw [beq_false_of_ne h, beq_false_of_ne (s.word_injective.ne h)]

variable {f}

/-- `slot?` of a bound name `atop` a frame: the slot is raised by the depth of `base`. -/
theorem slot?_atop {w : String} {slot : Nat} (h : f.slot? w = some slot) :
    (base.atop s f).slot? (s.word w) = some (base.depth + slot) := by
  show List.lookup _ (_ ++ _) = _
  rw [List.lookup_append, lookup_map_word, show f.slots.lookup w = some slot from h]
  rfl

/-- `slot?` of an unbound name `atop` a frame without names. -/
theorem slot?_atop_of_none {w : String} (h : f.slot? w = none) (hbase : base.slots = []) :
    (base.atop s f).slot? (s.word w) = none := by
  show List.lookup _ (_ ++ _) = _
  rw [List.lookup_append, lookup_map_word, show f.slots.lookup w = none from h, hbase]
  rfl

theorem mem_names_bind {w : String} {slot : Nat} {x : String} :
    x ∈ (f.bind w slot).names.map s.word ↔ x = s.word w ∨ x ∈ f.names.map s.word := by
  simp only [bind, names, List.map_cons, List.map_map, List.mem_cons, List.mem_map, List.mem_filter,
    Function.comp]
  constructor
  · rintro (h | ⟨b, ⟨hb, -⟩, h⟩)
    · exact .inl h
    · exact .inr ⟨b, hb, h⟩
  · rintro (h | ⟨b, hb, h⟩)
    · exact .inl h
    · by_cases hw : b.1 = w
      · left
        rw [← h, hw]
      · exact .inr ⟨b, ⟨hb, by simpa using hw⟩, h⟩

/-- `bind` commutes with `atop`. -/
theorem atop_bind (w : String) (slot : Nat) :
    base.atop s (f.bind w slot) = (base.atop s f).bind (s.word w) (base.depth + slot) := by
  -- the bindings of `w` go from the frame, and so do those of its new spelling
  have hown : (f.slots.filter (·.1 != w)).map (fun b => (s.word b.1, base.depth + b.2)) =
      (f.slots.map fun b => (s.word b.1, base.depth + b.2)).filter (·.1 != s.word w) := by
    rw [List.filter_map]
    congr 2
    funext b
    simp [bne, s.word_injective.eq_iff]
  have hbase : base.slots.filter (fun b => !((f.bind w slot).names.map s.word).contains b.1) =
      (base.slots.filter fun b => !(f.names.map s.word).contains b.1).filter (·.1 != s.word w) := by
    rw [List.filter_filter]
    congr 1
    funext b
    rw [Bool.eq_iff_iff]
    simp only [Bool.not_eq_true', List.contains_eq_mem, decide_eq_false_iff_not, mem_names_bind,
      Bool.and_eq_true, bne_iff_ne, not_or, ne_eq]
  have hslots : (base.atop s (f.bind w slot)).slots =
      ((base.atop s f).bind (s.word w) (base.depth + slot)).slots := by
    show (s.word w, base.depth + slot) :: _ ++ _ =
      (s.word w, base.depth + slot) :: List.filter _ (_ ++ _)
    rw [List.filter_append, ← hown, ← hbase]
    rfl
  exact congrArg (fun slots => { base.atop s f with slots }) hslots

/-- `offsetOf` a slot is as before: both the slot and the depth are raised. -/
theorem offsetOf_atop (slot : Nat) :
    (base.atop s f).offsetOf (base.depth + slot : Nat) = f.offsetOf slot := by
  show ((((base.depth + f.depth : Nat) : Int)) - ((base.depth + slot : Nat) : Int) - 1) * slotSize = _
  unfold offsetOf
  congr 1
  omega

end Atop

end Frame

namespace Lowering

/-! ## Steps side by side -/

/-- `Mirrors base s stop x y`: what `x` does to a frame, `y` does to the frame atop `base`.  If `x` stops,
    `y` stops with a fault related by `stop`, provided that `base` has nothing on its stack and no names. -/
def Mirrors (base : Frame) (s : Respelling) (stop : Fault → Fault → Prop) (x y : Lowering Unit) : Prop :=
  ∀ f, match x.run f with
    | .ok _ f' => y.run (base.atop s f) = .ok () (base.atop s f')
    | .error e f' => base.depth = 0 → base.slots = [] → ∃ e',
        y.run (base.atop s f) = .error e' (base.atop s f') ∧ (e.isImbalance = true ∨ stop e e')

namespace Mirrors

variable {base : Frame} {s : Respelling} {stop stop' : Fault → Fault → Prop} {x y k l : Lowering Unit}

/-- `Mirrors` is monotone in the relation of faults. -/
theorem mono (h : Mirrors base s stop x y) (hstop : ∀ e e', stop e e' → stop' e e') :
    Mirrors base s stop' x y := by
  intro f
  have hf := h f
  cases hrun : x.run f with
  | ok u f' =>
    rw [hrun] at hf
    exact hf
  | error e f' =>
    rw [hrun] at hf
    intro hdepth hslots
    obtain ⟨e', hy, hor⟩ := hf hdepth hslots
    exact ⟨e', hy, hor.imp_right (hstop e e')⟩

/-- `Mirrors` composes: one step after another. -/
theorem seq (hx : Mirrors base s stop x y) (hk : Mirrors base s stop k l) :
    Mirrors base s stop (x >>= fun _ => k) (y >>= fun _ => l) := by
  intro f
  have hf := hx f
  cases hrun : x.run f with
  | ok u f' =>
    rw [hrun] at hf
    rw [run_bind hrun, run_bind hf]
    exact hk f'
  | error e f' =>
    rw [hrun] at hf
    rw [run_bind_error hrun]
    intro hdepth hslots
    obtain ⟨e', hy, hor⟩ := hf hdepth hslots
    exact ⟨e', run_bind_error hy, hor⟩

/-- `Mirrors` for a step that reads the frame. -/
theorem get {k l : Frame → Lowering Unit} (h : ∀ f, Mirrors base s stop (k f) (l (base.atop s f))) :
    Mirrors base s stop (MonadState.get >>= k) (MonadState.get >>= l) :=
  fun f => h f f

theorem modify {t t' : Frame → Frame} (h : ∀ f, base.atop s (t f) = t' (base.atop s f)) :
    Mirrors base s stop (modify t) (modify t') := by
  intro f
  show EStateM.Result.ok () (t' (base.atop s f)) = .ok () (base.atop s (t f))
  rw [h]

theorem set {g g' : Frame} (h : base.atop s g = g') :
    Mirrors base s stop (MonadState.set g) (MonadState.set g') := by
  intro f
  show EStateM.Result.ok () g' = .ok () (base.atop s g)
  rw [h]

theorem throw {e e' : Fault} (h : stop e e') :
    Mirrors base s stop (MonadExcept.throw e) (MonadExcept.throw e') :=
  fun _ _ _ => ⟨e', rfl, .inr h⟩

/-- `Mirrors` for a check that is `Parallel`, and what is done with what it gives. -/
theorem check {α β : Type} {same : α → β → Prop} {c : Except Fault α} {c' : Except Fault β}
    {k : α → Lowering Unit} {l : β → Lowering Unit} (hcheck : Parallel same stop c c')
    (h : ∀ a b, c = .ok a → same a b → Mirrors base s stop (k a) (l b)) :
    Mirrors base s stop (Lowering.check c >>= k) (Lowering.check c' >>= l) := by
  cases hcheck with
  | ok hab => exact fun f => h _ _ rfl hab f
  | error he => exact fun _ _ _ => ⟨_, rfl, .inr he⟩

/-- `Mirrors` for `leavingOne`: both depths are raised, so both pass its check or both fail. -/
theorem leavingOne {d d' : Datum} (h : Mirrors base s stop x y) :
    Mirrors base s stop (Lowering.leavingOne d x) (Lowering.leavingOne d' y) := by
  refine get fun f => h.seq (get fun g => ?_)
  have hdepth : (base.atop s g).depth = (base.atop s f).depth + 1 ↔ g.depth = f.depth + 1 := by
    show base.depth + g.depth = base.depth + f.depth + 1 ↔ _
    omega
  dsimp only
  by_cases hone : g.depth = f.depth + 1
  · rw [if_neg (not_not_intro hone), if_neg (not_not_intro (hdepth.mpr hone))]
    exact fun _ => rfl
  · rw [if_pos hone, if_pos fun heq => hone (hdepth.mp heq)]
    exact fun _ _ _ => ⟨_, rfl, .inl rfl⟩

end Mirrors

section Pieces

variable {base : Frame} {s : Respelling} {stop : Fault → Fault → Prop}

theorem mirrors_instr {i : Instr} (h : i.raised base.counters = i) :
    Mirrors base s stop (instr i) (instr i) := by
  refine .modify fun f => ?_
  rw [Frame.atop_emit, Item.raised, h]

theorem mirrors_push (r : Register) : Mirrors base s stop (push r) (push r) :=
  .modify fun f => Frame.atop_push base s f 1 r

/-- `pop` mirrors itself.  On an empty stack it stops, unless `base` has left something there. -/
theorem mirrors_pop (r : Register) : Mirrors base s stop (pop r) (pop r) := by
  have hempty : ∀ {f : Frame}, f.depth = 0 → (pop r).run f = .error (.underflow r.text) f := by
    intro f hf
    unfold pop
    rw [run_get_bind, (f.pop_eq_error_iff 1 r).mpr hf]
    rfl
  intro f
  cases hdepth : f.depth with
  | zero =>
    rw [hempty hdepth]
    intro hbase _
    exact ⟨_, hempty (show base.depth + f.depth = 0 by omega), .inl rfl⟩
  | succ n =>
    rw [run_pop r hdepth, run_pop r (show (base.atop s f).depth = base.depth + n + 1 by
      show base.depth + f.depth = _
      omega)]
    exact congrArg _ (Frame.atop_pop base s f 1 n r).symm

/-- `block` mirrors the block with its labels raised. -/
theorem mirrors_block {lines lines' : List Line} (h : lines.map (Line.raised base.counters) = lines') :
    Mirrors base s stop (block lines) (block lines') := by
  refine .modify fun f => ?_
  rw [Frame.atop_block, h]

theorem mirrors_literal (n : Int) : Mirrors base s stop (lowerLiteral n) (lowerLiteral n) :=
  (mirrors_instr rfl).seq (mirrors_push .rax)

/-- `lowerReference` mirrors itself for a respelled name: the slot of a bound name is as far below the top
    of the stack as before. -/
theorem mirrors_reference {w : String} {place place' : Option Origin}
    (hstop : ∀ known known', stop (.report (Cause.undeclared w known) place)
      (.report (Cause.undeclared (s.word w) known') place')) :
    Mirrors base s stop (lowerReference w place) (lowerReference (s.word w) place') := by
  refine .get fun f => ?_
  cases hslot : f.slot? w with
  | none =>
    intro g hdepth hslots
    rw [Frame.slot?_atop_of_none base s hslot hslots]
    exact ⟨_, rfl, .inr (hstop _ _)⟩
  | some slot =>
    rw [Frame.slot?_atop base s hslot]
    dsimp only
    rw [Frame.offsetOf_atop]
    exact (mirrors_instr rfl).seq (mirrors_push .rax)

theorem mirrors_operator {operator : String} {place place' : Option Origin}
    (hstop : stop (.report (.unsupportedOperator operator) place)
      (.report (.unsupportedOperator operator) place')) :
    Mirrors base s stop (lowerOperator operator place) (lowerOperator operator place') := by
  unfold lowerOperator
  cases hcombine : arithmetic? operator with
  | none => exact .throw hstop
  | some combine =>
    have hraised : combine.raised base.counters = combine := by
      rcases arithmetic_cases hcombine with ⟨-, rfl⟩ | ⟨-, rfl⟩ | ⟨-, rfl⟩
      · rfl
      · rfl
      · rfl
    exact (mirrors_pop .rbx).seq ((mirrors_pop .rax).seq ((mirrors_instr hraised).seq
      (mirrors_push .rax)))

theorem mirrors_print : Mirrors base s stop lowerPrint lowerPrint :=
  .get fun f => (Mirrors.set (Frame.atop_nextPrint base s f)).seq (mirrors_block rfl)

theorem mirrors_range : Mirrors base s stop lowerRange lowerRange :=
  .get fun f => (Mirrors.set (Frame.atop_nextLoop base s f)).seq ((mirrors_pop .rax).seq
    ((mirrors_instr rfl).seq ((mirrors_push .rbx).seq (mirrors_block rfl))))

/-- `lowerCall` mirrors itself: names of functions are not respelled. -/
theorem mirrors_call {name : String} {place place' : Option Origin}
    (hstop : stop (.report (.undeclaredFunction name) place) (.report (.undeclaredFunction name) place')) :
    Mirrors base s stop (lowerCall name place) (lowerCall name place') := by
  unfold lowerCall
  split
  · exact mirrors_print
  · split
    · exact mirrors_range
    · exact .throw hstop

end Pieces

/-! ## Expressions -/

section Nodes

variable {base : Frame} {s : Respelling}

/-- `Mirrors` for a node that is lowered by the rule of its kind, once its own field is checked. -/
theorem Mirrors.node {α β : Type} {same : α → β → Prop} {d : Datum} {path : List Nat}
    {c : Except Fault α} {c' : Except Fault β} {k m : α → Lowering Unit} {l m' : β → Lowering Unit}
    (hplain : isPlain d = true) (hcheck : Parallel same (Twins s path d) c c')
    (h : ∀ a b, same a b → Mirrors base s (TwinsWithin s path d) (k a) (l b)) :
    Mirrors base s (TwinsWithin s path d)
      (Lowering.leavingOne d (Lowering.check c >>= fun a => if isPlain d then k a else m a))
      (Lowering.leavingOne (d.respelled s false path)
        (Lowering.check c' >>= fun b =>
          if isPlain (d.respelled s false path) then l b else m' b)) := by
  have hwithin : Parallel same (TwinsWithin s path d) c c' :=
    hcheck.mono (fun _ _ hab => hab) fun _ _ htwins => htwins.within
  refine .leavingOne (.check hwithin fun a b _ hab => ?_)
  rw [Datum.isPlain_respelled, if_pos hplain, if_pos hplain]
  exact h a b hab

/-- `lowerExpression` mirrors itself on the respelled expression, by induction on it. -/
theorem mirrors_expression {d : Datum} : d.isStandard = true → ∀ path,
    Mirrors base s (TwinsWithin s path d) (lowerExpression d)
      (lowerExpression (d.respelled s false path)) := by
  induction d using expression_induction with
  | literal tag value _ =>
    intro hplain path
    rw [lowerExpression, Datum.respelled, lowerExpression]
    refine Mirrors.node hplain (parallel_literalOf s path (path ++ [0]) _ value) ?_
    rintro n - rfl
    exact mirrors_literal n
  | reference tag name _ =>
    intro hplain path
    rw [lowerExpression, Datum.respelled, lowerExpression]
    refine Mirrors.node hplain (parallel_nameOf s path (path ++ [0]) _ true name) ?_
    rintro w - rfl
    refine mirrors_reference fun known known' => ?_
    have hclass : (Cause.undeclared w known).category = (Cause.undeclared (s.word w) known').category := rfl
    exact (twins_report hclass).within
  | binary tag left operator right ihleft ihright _ =>
    intro hstandard path
    obtain ⟨hplain, hleft, hright⟩ : isPlain (.binary tag left operator right) = true ∧
        left.isStandard = true ∧ right.isStandard = true := by
      simpa [Datum.isStandard] using hstandard
    rw [lowerExpression, Datum.respelled, lowerExpression]
    refine Mirrors.node hplain (parallel_operatorOf s path (path ++ [2]) _ operator) ?_
    rintro w - rfl
    exact ((ihleft hleft (path ++ [0])).mono fun _ _ h => h.part rfl).seq
      (((ihright hright (path ++ [1])).mono fun _ _ h => h.part rfl).seq
        (mirrors_operator (twins_report rfl).within))
  | call tag name argument ih _ =>
    intro hstandard path
    obtain ⟨hplain, hargument⟩ : isPlain (.call tag name argument) = true ∧
        argument.isStandard = true := by
      simpa [Datum.isStandard] using hstandard
    rw [lowerExpression, Datum.respelled, lowerExpression]
    refine Mirrors.node hplain (parallel_nameOf s path (path ++ [1]) _ false name) ?_
    rintro w - rfl
    exact ((ih hargument (path ++ [0])).mono fun _ _ h => h.part rfl).seq
      (mirrors_call (twins_report rfl).within)
  | other d hliteral hreference hbinary hcall =>
    intro _ path
    have htwins := (@twins_malformed s path d none none).within
    -- what is no expression, or one without fields, is none after the respelling
    cases d with
    | literal tag value => exact (hliteral tag value rfl).elim
    | reference tag name => exact (hreference tag name rfl).elim
    | binary tag left operator right => exact (hbinary tag left operator right rfl).elim
    | call tag name argument => exact (hcall tag name argument rfl).elim
    | _ => exact .throw htwins

/-! ## Statements -/

/-- `lowerBinding` mirrors itself: the name is bound to the slot of its value, which lies above the values
    of `base`. -/
theorem mirrors_binding {stop : Fault → Fault → Prop} (d d' : Datum) {x y : Lowering Unit} {w : String}
    (h : Mirrors base s stop x y) :
    Mirrors base s stop (lowerBinding d x (some w)) (lowerBinding d' y (some (s.word w))) :=
  .get fun f => h.seq (.modify fun _ => Frame.atop_bind base s w f.depth)

/-- `lowerStatement` mirrors itself on the respelled statement. -/
theorem mirrors_statement {d : Datum} {bound : Option String} {path : List Nat}
    (hstatement : d.isStatement = true) (hstandard : d.isStandard = true)
    (hbound : boundName? d = .ok bound) :
    Mirrors base s (TwinsWithin s path d) (lowerStatement d bound)
      (lowerStatement (d.respelled s false path) (bound.map s.word)) := by
  have hplain' := @Datum.isPlain_respelled s false path d
  cases d with
  | exit tag e =>
    obtain ⟨hplain, he⟩ : isPlain (.exit tag e) = true ∧ e.isStandard = true := by
      simpa [Datum.isStandard] using hstandard
    rw [hplain, Datum.respelled] at hplain'
    rw [Datum.respelled, lowerStatement_exit hplain, lowerStatement_exit hplain']
    exact ((mirrors_expression he (path ++ [0])).mono fun _ _ h => h.part rfl).seq
      ((mirrors_instr rfl).seq ((mirrors_pop .rdi).seq (mirrors_instr rfl)))
  | assign tag name e =>
    obtain ⟨hplain, he⟩ : isPlain (.assign tag name e) = true ∧ e.isStandard = true := by
      simpa [Datum.isStandard] using hstandard
    obtain ⟨word, rfl, -⟩ := boundName?_eq_ok hbound
    rw [hplain, Datum.respelled] at hplain'
    rw [Datum.respelled, Option.map_some, lowerStatement_assign hplain, lowerStatement_assign hplain']
    exact mirrors_binding _ _ ((mirrors_expression he (path ++ [0])).mono fun _ _ h => h.part rfl)
  | loop tag name e =>
    obtain ⟨hplain, he⟩ : isPlain (.loop tag name e) = true ∧ e.isStandard = true := by
      simpa [Datum.isStandard] using hstandard
    obtain ⟨word, rfl, -⟩ := boundName?_eq_ok hbound
    rw [hplain, Datum.respelled] at hplain'
    rw [Datum.respelled, Option.map_some, lowerStatement_loop hplain, lowerStatement_loop hplain']
    have hrange : Parallel Eq (TwinsWithin s path (.loop tag name e)) (isRange e)
        (isRange (e.respelled s false (path ++ [0]))) :=
      (parallel_isRange s (path ++ [0]) e).mono (fun _ _ h => h) fun _ _ h => h.within.part rfl
    refine .check hrange ?_
    rintro range - - rfl
    cases range with
    | true =>
      exact mirrors_binding _ _ ((mirrors_expression he (path ++ [0])).mono fun _ _ h => h.part rfl)
    | false => exact .throw (twins_iterable tag name e).within
  | endLoop tag =>
    have hplain : isPlain (.endLoop tag) = true := hstandard
    rw [hplain, Datum.respelled] at hplain'
    rw [Datum.respelled, lowerStatement_endLoop hplain, lowerStatement_endLoop hplain']
    exact .throw (@twins_report s path (.endLoop tag) _ _ rfl).within
  | bare tag family =>
    have hplain : isPlain (.bare tag family) = true := hstandard
    rw [hplain, Datum.respelled] at hplain'
    rw [Datum.respelled, lowerStatement_bare hplain, lowerStatement_bare hplain']
    exact .throw (@twins_malformed s path (.bare tag family) none none).within
  | _ => cases hstatement

/-- `lowerElement` mirrors itself on the respelled statement. -/
theorem mirrors_element {d : Datum} (hstandard : d.isStandard = true) (path : List Nat) :
    Mirrors base s (TwinsWithin s path d) (lowerElement false d)
      (lowerElement false (d.respelled s false path)) := by
  unfold lowerElement
  dsimp only
  rw [Datum.isStatement_respelled, Datum.typeName_respelled]
  cases hstatement : d.isStatement with
  | false => exact .throw (twins_malformed none none).within
  | true =>
    have hname := (parallel_boundName? s path d).mono (fun _ _ h => h) fun _ _ h => h.within
    refine .check hname ?_
    rintro bound - hbound rfl
    have hnote : ∀ f : Frame, Mirrors base s (TwinsWithin s path d)
        (note (.lowering d.typeName f.depth)) (note (.lowering d.typeName (base.atop s f).depth)) :=
      fun f => .modify fun g => Frame.atop_note base s g _
    exact .get fun f => (hnote f).seq (mirrors_statement hstatement hstandard hbound)

/-- `lowerAll` mirrors itself, on the elements from the one numbered `i` on. -/
theorem mirrors_all {all : List Datum} (hstandard : ∀ d ∈ all, d.isStandard = true) :
    ∀ {rest : List Datum} {i : Nat}, all.drop i = rest →
      Mirrors base s (TwinsWithin s [] (.list all)) (lowerAll false rest)
        (lowerAll false (Datum.respelledAll s [] i rest)) := by
  intro rest
  induction rest with
  | nil =>
    intro i _
    rw [Datum.respelledAll]
    exact fun _ => rfl
  | cons d rest ih =>
    intro i hdrop
    have hpart : all[i]? = some d := by
      rw [← List.head?_drop, hdrop]
      rfl
    have hrest : all.drop (i + 1) = rest := by
      rw [← List.drop_drop, hdrop]
      rfl
    rw [Datum.respelledAll]
    refine Mirrors.seq ?_ (ih hrest)
    refine (mirrors_element (hstandard d (List.mem_of_getElem? hpart)) ([] ++ [i])).mono ?_
    intro e e' h
    exact h.part hpart

theorem length_respelledAll (path : List Nat) (i : Nat) (items : List Datum) :
    (Datum.respelledAll s path i items).length = items.length := by
  induction items generalizing i with
  | nil => rw [Datum.respelledAll]
  | cons d rest ih => rw [Datum.respelledAll, List.length_cons, List.length_cons, ih]

/-- `lowerProgram` mirrors itself on the respelled program. -/
theorem mirrors_program {statements : List Datum} (hstandard : ∀ d ∈ statements, d.isStandard = true) :
    Mirrors base s (TwinsWithin s [] (.list statements)) (lowerProgram false statements)
      (lowerProgram false (Datum.respelledAll s [] 0 statements)) := by
  refine Mirrors.seq (mirrors_all hstandard List.drop_zero) (.get fun f => ?_)
  rw [length_respelledAll]
  exact .modify fun g => Frame.atop_note base s g _

end Nodes

/-- `lowerProgram` on a standard tree never fails by losing count of the stack (`isImbalance`). -/
theorem isImbalance_of_run {statements : List Datum} {e : Fault} {f : Frame}
    (hstandard : ∀ d ∈ statements, d.isStandard = true)
    (h : (lowerProgram false statements).run {} = .error e f) : e.isImbalance = false := by
  have hstart : Frame.Stands [] 0 [] ({} : Frame) := ⟨⟨rfl, balanced_nil _ _⟩, rfl, .nil rfl⟩
  have hunextended := fun d hd => Datum.isUnextended_of_isStandard (hstandard d hd)
  have htraces := traces_program hunextended [] {} hstart
  rw [h] at htraces
  exact htraces.1

end Lowering

/-! ## Programs -/

/-- `lower` of a respelled program has the same frame, with the names of variables spelled anew.  If it
    stops, then at the corresponding node and with a fault of the same class, whether or not the places can
    be written. -/
theorem lower_respelled (s : Respelling) (statements : List Datum)
    (hstandard : ∀ d ∈ statements, d.isStandard = true) :
    (lower false (Datum.respelledAll s [] 0 statements)).frame =
        { (lower false statements).frame with
          slots := (lower false statements).frame.slots.map fun b => (s.word b.1, b.2) } ∧
      ((lower false statements).fault = none →
        (lower false (Datum.respelledAll s [] 0 statements)).fault = none) ∧
      ∀ e, (lower false statements).fault = some e → ∃ e' path node node',
        (lower false (Datum.respelledAll s [] 0 statements)).fault = some e' ∧
        (Datum.list statements).part? path = some node ∧
        (Datum.list (Datum.respelledAll s [] 0 statements)).part? path = some node' ∧
        e.IsAt node ∧ e'.IsAt node' ∧ e.SameClass e' := by
  have hmirrors := @Lowering.mirrors_program {} s statements hstandard {}
  rw [Frame.atop_empty _ _ rfl] at hmirrors
  unfold lower
  cases hrun : (Lowering.lowerProgram false statements).run {} with
  | ok u f =>
    rw [hrun] at hmirrors
    rw [hmirrors]
    exact ⟨Frame.empty_atop s f, fun _ => rfl, fun _ hfault => by cases hfault⟩
  | error e f =>
    rw [hrun] at hmirrors
    obtain ⟨e', hrun', himbalance | htwins⟩ := hmirrors rfl rfl
    · rw [Lowering.isImbalance_of_run hstandard hrun] at himbalance
      cases himbalance
    · rw [hrun']
      refine ⟨Frame.empty_atop s f, fun hfault => (by cases hfault), ?_⟩
      rintro _ ⟨⟩
      obtain ⟨path, node, hnode, htwins⟩ := htwins
      have hnode' := @Datum.part?_respelled s path [] _ _ hnode
      exact ⟨e', path, node, _, rfl, hnode, hnode', htwins.left, htwins.right, htwins.sameClass⟩

/-- The code of a program depends neither on how its variables are spelled nor on where its nodes are
    placed.  `lowerGiven` of a respelled program has the same frame, with the same text, with the names of
    variables spelled anew.  If lowering stops at a node of the one, it stops at the corresponding node of
    the other with a fault of the same class; and what is raised is that fault, or in its stead, where its
    place cannot be written, the fault that says so (`Fault.written`). -/
theorem lowerGiven_respelled (s : Respelling) (statements : List Datum)
    (hstandard : ∀ d ∈ statements, d.isStandard = true) :
    (lowerGiven false (.list (Datum.respelledAll s [] 0 statements))).frame =
        { (lowerGiven false (.list statements)).frame with
          slots := (lowerGiven false (.list statements)).frame.slots.map fun b => (s.word b.1, b.2) } ∧
      ((lowerGiven false (.list statements)).fault = none →
        (lowerGiven false (.list (Datum.respelledAll s [] 0 statements))).fault = none) ∧
      ∀ raised, (lowerGiven false (.list statements)).fault = some raised →
        ∃ (e e' : Fault) (path : List Nat) (node node' : Datum), raised = e.written ∧
        (lowerGiven false (.list (Datum.respelledAll s [] 0 statements))).fault = some e'.written ∧
        (Datum.list statements).part? path = some node ∧
        (Datum.list (Datum.respelledAll s [] 0 statements)).part? path = some node' ∧
        e.IsAt node ∧ e'.IsAt node' ∧ e.SameClass e' := by
  have hgiven : ∀ items, (lowerGiven false (.list items)).fault =
      (lower false items).fault.map Fault.written := fun _ => rfl
  obtain ⟨hframe, haccepted, hstopped⟩ := lower_respelled s statements hstandard
  refine ⟨hframe, ?_, ?_⟩
  · rw [hgiven, hgiven]
    intro h
    rw [haccepted (Option.map_eq_none_iff.mp h)]
    rfl
  · intro raised h
    rw [hgiven] at h ⊢
    obtain ⟨e, he, rfl⟩ := Option.map_eq_some_iff.mp h
    obtain ⟨e', path, node, node', he', hrest⟩ := hstopped e he
    refine ⟨e, e', path, node, node', rfl, ?_, hrest⟩
    rw [he']
    rfl

/-- An underscore behind every name, and each node on the line that tells how deep it lies. -/
def Respelling.underscored : Respelling where
  name w := w ++ "_"
  name_ne_empty w _ h := by
    have hlength := congrArg String.length h
    rw [String.length_append] at hlength
    exact absurd hlength (Nat.succ_ne_zero w.length)
  name_injective v w _ _ h := by
    have hchars := congrArg String.toList h
    rw [String.toList_append, String.toList_append] at hchars
    exact String.toList_inj.mp (List.append_cancel_right hchars)
  place path _ := some (.known ⟨"f", path.length, 1⟩)

/-- A name that is bound and one that is not. -/
def halfBound : List Datum :=
  [.assign {} (.text "x") (.literal {} (.int 1)), .exit {} (.reference {} (.text "y"))]

/-- `halfBound`, respelled: the bound name is spelled anew in the table, the unbound one in the report, and
    both reports can be written. -/
theorem lowerGiven_respelled_halfBound :
    (lowerGiven false (.list (Datum.respelledAll .underscored [] 0 halfBound))).frame.slots = [("x_", 0)] ∧
      ∃ (e e' : Fault) (path : List Nat) (node node' : Datum),
        .report (.undeclaredVariable "y" []) none = e.written ∧
        (lowerGiven false (.list (Datum.respelledAll .underscored [] 0 halfBound))).fault = some e'.written ∧
        (Datum.list halfBound).part? path = some node ∧
        (Datum.list (Datum.respelledAll .underscored [] 0 halfBound)).part? path = some node' ∧
        e.IsAt node ∧ e'.IsAt node' ∧ e.SameClass e' := by
  have hstandard : ∀ d ∈ halfBound, d.isStandard = true := List.all_eq_true.mp rfl
  have hlowered : (lower false halfBound).fault = some (.report (.undeclaredVariable "y" []) none) := by
    decide +kernel
  have hfault : (lowerGiven false (.list halfBound)).fault =
      some (.report (.undeclaredVariable "y" []) none) := congrArg (Option.map Fault.written) hlowered
  obtain ⟨hframe, -, hstop⟩ := lowerGiven_respelled .underscored halfBound hstandard
  refine ⟨?_, hstop _ hfault⟩
  rw [hframe]
  rfl

/-- The node at one path is placed anew, and nothing else changes. -/
def Respelling.moving (target : List Nat) (place : Origin) : Respelling :=
  { unchanged with place := fun path old => if path = target then some place else old }

/-- A loop over a number, which has no place of its own. -/
def literalLoop : List Datum := [.loop (.placed ⟨"f", 1, 1⟩) (.text "i") (.literal {} (.int 3))]

/-- That a loop goes over no range. -/
def noRange : Cause :=
  .notImplemented "for-loop over something other than range(...)" (some "write 'for i in range(n)'")

/-- A place moves the report, and one with too long a number takes the report away.  The loop is reported at its
    own place; once the number has a place, it is reported there; and if the line of that place has too many digits
    to be written, there is another fault instead. -/
theorem lowerGiven_movedLiteral :
    let moved place := (lowerGiven false (.list (Datum.respelledAll (.moving [0, 0] place) [] 0 literalLoop))).fault
    (lowerGiven false (.list literalLoop)).fault = some (.report noRange (some (.known ⟨"f", 1, 1⟩))) ∧
      moved (.known ⟨"f", 1, 10⟩) = some (.report noRange (some (.known ⟨"f", 1, 10⟩))) ∧
      moved (.known ⟨"f", (10 ^ Text.digitLimit : Nat), 10⟩) = some .unwritable := by
  intro moved
  have hfound : ∀ place, moved (.known place) =
      some (Fault.report noRange (some (.known place))).written := fun _ => rfl
  have hlong : (Location.mk "f" (10 ^ Text.digitLimit : Nat) 10).isWritable = false := by
    unfold Location.isWritable Text.digitCount
    rw [Int.natAbs_natCast, decide_eq_false, Bool.false_and]
    rw [Nat.length_toDigits_le_iff (by decide) (by decide)]
    exact Nat.lt_irrefl _
  refine ⟨rfl, rfl, ?_⟩
  rw [hfound, Fault.report, Fault.written, Option.all_some, Origin.isPrintable, Origin.isWritable, hlong]
  rfl

end ZebLang
