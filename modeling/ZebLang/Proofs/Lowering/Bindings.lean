/-
  The table of names after lowering.

  Only two kinds of statements bind a name, and each of them leaves one value on the stack, in the slot that
  the name is bound to.  So the table can be told from the statements alone, without their expressions:

      slot of x  =  number of binding statements before the last one that binds x

  1. No expression touches the table, and a statement touches it last, when nothing can stop it any more.  So
     a statement that is refused leaves the table as it was (`spares_element`).
  2. A statement that is accepted leaves table and stack alone, or binds its name to the next slot
     (`enters_of_lowerElement`).
  3. By induction along the list the table is that of the statements so far (`tabulates_of_lowerAll`), and a
     list that is refused is refused at one of its statements (`refused_of_lowerAll`).

  The slots are those of `LastBound`, counted by binding statements alone (`Datum.isBinding`).
-/

import ZebLang.Proofs.Lowering.Balance
import ZebLang.Proofs.Lowering.Diagnosis
import ZebLang.Proofs.Lowering.Relocation

namespace ZebLang

/-! ## Binding statements -/

/-- `Binds` agrees with `Datum.newName?` on plain statements. -/
theorem Binds.newName {d e : Datum} {name : String} (h : Binds d name e) (hplain : Lowering.isPlain d = true) :
    d.newName? = some name := by
  unfold Datum.newName? Datum.isBinding
  rw [Lowering.rule_of_isPlain hplain]
  cases h with
  | assign | loop => rfl

/-- `Tabulates statements f`: as many values lie on the stack of `f` as there are binding statements, and `f` has
    the table of these. -/
structure Tabulates (statements : List Datum) (f : Frame) : Prop where
  depth : f.depth = statements.countP Datum.isBinding
  table : f.HasTable Datum.isBinding statements

/-- `Enters f g d`: what a statement that is accepted does to the table and the stack. -/
inductive Enters (f g : Frame) (d : Datum) : Prop where
  | pass (hbinding : d.isBinding = false) (hslots : g.slots = f.slots) (hdepth : g.depth = f.depth)
  | bind {name : String} (hname : d.newName? = some name)
      (hslots : g.slots = bindSlot f.slots name f.depth) (hdepth : g.depth = f.depth + 1)

namespace Lowering

/-! ## What touches the table -/

section Table

variable {α β : Type} {x : Lowering α}

/-- `Keeps x`: the table stays as it is, however `x` ends. -/
def Keeps (x : Lowering α) : Prop :=
  ∀ slots, Specified (·.slots = slots) x (fun _ g => g.slots = slots) (fun _ g => g.slots = slots)

/-- `Spares x`: the table stays as it is if `x` is stopped. -/
def Spares (x : Lowering α) : Prop :=
  ∀ slots, Specified (·.slots = slots) x (fun _ _ => True) (fun _ g => g.slots = slots)

/-- `Keeps` composes along `bind`. -/
theorem Keeps.bind {k : α → Lowering β} (hx : Keeps x) (hk : ∀ a, Keeps (k a)) : Keeps (x >>= k) :=
  fun slots => (hx slots).bind fun a => hk a slots

theorem Keeps.spares (hx : Keeps x) : Spares x :=
  fun slots => (hx slots).mono (fun _ _ _ => trivial) fun _ _ h => h

/-- `Spares` for a step that may bind a name after one that `Keeps`. -/
theorem Keeps.bind_spares {k : α → Lowering β} (hx : Keeps x) (hk : ∀ a, Spares (k a)) :
    Spares (x >>= k) :=
  fun slots => (hx slots).bind fun a => hk a slots

theorem keeps_get : Keeps (get : Lowering Frame) := fun _ _ h => h

theorem keeps_throw (fault : Fault) : Keeps (throw fault : Lowering α) := fun _ _ h => h

/-- `Keeps` for a change of the frame that leaves its slots alone. -/
theorem keeps_modify {u : Frame → Frame} (hu : ∀ f, (u f).slots = f.slots) :
    Keeps (modify u : Lowering Unit) := fun _ f h => (hu f).trans h

theorem keeps_check (e : Except Fault α) : Keeps (check e) := by
  cases e with
  | ok a => exact fun _ _ h => h
  | error fault => exact keeps_throw fault

theorem keeps_instr (i : Instr) : Keeps (instr i) := keeps_modify fun _ => rfl

theorem keeps_push (r : Register) : Keeps (push r) := keeps_modify fun _ => rfl

theorem keeps_pop (r : Register) : Keeps (pop r) := by
  intro slots f hf
  unfold pop Frame.pop
  rw [run_get_bind]
  cases f.depth with
  | zero => exact hf
  | succ depth => exact hf

end Table

/-- `leavingOne` keeps the table if its code does. -/
theorem keeps_leavingOne {d : Datum} {code : Lowering Unit} (hcode : Keeps code) :
    Keeps (leavingOne d code) := by
  refine keeps_get.bind fun f => hcode.bind fun _ => keeps_get.bind fun g => ?_
  dsimp only
  split
  · exact keeps_throw _
  · exact fun _ _ h => h

theorem keeps_reference (name : String) (place : Option Origin) : Keeps (lowerReference name place) := by
  refine keeps_get.bind fun f => ?_
  split
  · exact keeps_throw _
  · exact (keeps_instr _).bind fun _ => keeps_push .rax

theorem keeps_operator (operator : String) (place : Option Origin) :
    Keeps (lowerOperator operator place) := by
  unfold lowerOperator
  split
  · exact keeps_throw _
  · exact (keeps_pop .rbx).bind fun _ => (keeps_pop .rax).bind fun _ => (keeps_instr _).bind fun _ =>
      keeps_push .rax

theorem keeps_range : Keeps lowerRange := by
  intro slots f hf
  have hrest : Keeps (pop .rax >>= fun _ => instr (.mov (.reg .rbx) (.imm 0)) >>= fun _ =>
      push .rbx >>= fun _ => block (countingLines f.loops)) :=
    (keeps_pop .rax).bind fun _ => (keeps_instr _).bind fun _ => (keeps_push .rbx).bind fun _ =>
      keeps_modify fun _ => rfl
  exact hrest slots f.nextLoop.2 hf

theorem keeps_call (name : String) (place : Option Origin) : Keeps (lowerCall name place) := by
  unfold lowerCall
  split
  · exact fun _ _ h => h
  · split
    · exact keeps_range
    · exact keeps_throw _

/-- `lowerExpression` keeps the table on a standard tree. -/
theorem keeps_expression {d : Datum} (hstandard : d.isStandard = true) : Keeps (lowerExpression d) := by
  induction d using expression_induction with
  | literal tag value _ =>
    refine keeps_leavingOne ((keeps_check _).bind fun n => ?_)
    rw [if_pos (isPlain_of_isStandard hstandard)]
    exact (keeps_instr _).bind fun _ => keeps_push .rax
  | reference tag name _ =>
    refine keeps_leavingOne ((keeps_check _).bind fun word => ?_)
    rw [if_pos (isPlain_of_isStandard hstandard)]
    exact keeps_reference _ _
  | binary tag left operator right ihleft ihright _ =>
    rw [Datum.isStandard, Bool.and_eq_true, Bool.and_eq_true] at hstandard
    refine keeps_leavingOne ((keeps_check _).bind fun word => ?_)
    rw [if_pos hstandard.1]
    exact (ihleft hstandard.2.1).bind fun _ => (ihright hstandard.2.2).bind fun _ => keeps_operator _ _
  | call tag name argument ih _ =>
    rw [Datum.isStandard, Bool.and_eq_true] at hstandard
    refine keeps_leavingOne ((keeps_check _).bind fun word => ?_)
    rw [if_pos hstandard.1]
    exact (ih hstandard.2).bind fun _ => keeps_call _ _
  | other d hliteral hreference hbinary hcall =>
    rw [lowerExpression]
    · exact keeps_throw _
    all_goals assumption

/-- `lowerBinding` spares the table: the name is bound last. -/
theorem spares_binding {e : Datum} (he : e.isStandard = true) (d : Datum) (word : String) :
    Spares (lowerBinding d (lowerExpression e) (some word)) :=
  keeps_get.bind_spares fun _ => (keeps_expression he).bind_spares fun _ _ _ _ => trivial

/-- `lowerStatement` spares the table on a standard tree. -/
theorem spares_statement {d : Datum} {bound : Option String} (hstatement : d.isStatement = true)
    (hstandard : d.isStandard = true) (hbound : boundName? d = .ok bound) :
    Spares (lowerStatement d bound) := by
  cases d with
  | exit tag e =>
    rw [Datum.isStandard, Bool.and_eq_true] at hstandard
    rw [lowerStatement_exit hstandard.1]
    exact ((keeps_expression hstandard.2).bind fun _ => (keeps_instr _).bind fun _ =>
      (keeps_pop .rdi).bind fun _ => keeps_instr _).spares
  | assign tag name e =>
    rw [Datum.isStandard, Bool.and_eq_true] at hstandard
    obtain ⟨word, rfl, -⟩ := boundName?_eq_ok hbound
    rw [lowerStatement_assign hstandard.1]
    exact spares_binding hstandard.2 _ word
  | loop tag name e =>
    rw [Datum.isStandard, Bool.and_eq_true] at hstandard
    obtain ⟨word, rfl, -⟩ := boundName?_eq_ok hbound
    rw [lowerStatement_loop hstandard.1]
    refine (keeps_check _).bind_spares fun range => ?_
    split
    · exact spares_binding hstandard.2 _ word
    · exact (keeps_throw _).spares
  | endLoop tag =>
    rw [lowerStatement_endLoop hstandard]
    exact (keeps_throw _).spares
  | bare tag family =>
    rw [lowerStatement_bare hstandard]
    exact (keeps_throw _).spares
  | _ => cases hstatement

/-- `lowerElement` refuses its element at once, or does what `lowerStatement` does; a comment and a note
    change neither table nor stack. -/
theorem element_cases (comments : Bool) (d : Datum) (f : Frame) :
    (∃ fault, (lowerElement comments d).run f = .error fault f) ∨
      ∃ bound f', d.isStatement = true ∧ boundName? d = .ok bound ∧ f'.slots = f.slots ∧
        f'.depth = f.depth ∧ (lowerElement comments d).run f = (lowerStatement d bound).run f' := by
  unfold lowerElement
  cases hstatement : d.isStatement with
  | false => exact .inl ⟨_, rfl⟩
  | true =>
    cases hbound : boundName? d with
    | error fault => exact .inl ⟨fault, rfl⟩
    | ok bound =>
      cases comments with
      | false => exact .inr ⟨bound, f.note _, rfl, rfl, rfl, rfl, rfl⟩
      | true =>
        cases htext : d.statementText with
        | error fault => exact .inl ⟨fault, rfl⟩
        | ok text => exact .inr ⟨bound, (f.emit 1 (.comment text)).note _, rfl, rfl, rfl, rfl, rfl⟩

/-- `lowerElement` spares the table on a standard tree. -/
theorem spares_element {comments : Bool} {d : Datum} {f g : Frame} {fault : Fault}
    (hstandard : d.isStandard = true)
    (h : (lowerElement comments d).run f = .error fault g) : g.slots = f.slots := by
  rcases element_cases comments d f with ⟨found, hrun⟩ | ⟨bound, f', hstatement, hbound, hslots, -, hrun⟩
  · cases hrun.symm.trans h
    rfl
  · have hspares := spares_statement hstatement hstandard hbound f.slots f' hslots
    rw [hrun.symm.trans h] at hspares
    exact hspares

/-- `Enters` for a statement that `lowerElement` accepts. -/
theorem enters_of_lowerElement {comments : Bool} {d : Datum} {f g : Frame} {u : Unit}
    (hstandard : d.isStandard = true) (h : (lowerElement comments d).run f = .ok u g) : Enters f g d := by
  rcases element_cases comments d f with ⟨found, hrun⟩ | ⟨bound, f', hstatement, hbound, hslots, hdepth, hrun⟩
  · cases hrun.symm.trans h
  · obtain ⟨code, hadvances⟩ :=
      advances_of_lowerStatement hstatement hstandard hbound (hrun.symm.trans h)
    cases hadvances with
    | exit hd hcode hgains =>
      subst hd
      rw [Datum.isStandard, Bool.and_eq_true] at hstandard
      refine .pass ?_ (hgains.slots.trans hslots) (hgains.depth.trans hdepth)
      unfold Datum.isBinding
      rw [rule_of_isPlain hstandard.1]
      rfl
    | bind hbinds hcode hitems hdepth' hslots' hprologue =>
      rw [hdepth] at hdepth' hslots'
      rw [hslots] at hslots'
      exact .bind (hbinds.newName (isPlain_of_isStandard hstandard)) hslots' hdepth'

end Lowering

/-! ## The table of a list -/

section Bindings

variable {statements : List Datum} {d : Datum} {x y : String} {n : Nat}

/-- `LastBound`: a name that is bound is bound by a last statement. -/
theorem exists_lastBound (h : ∃ d ∈ statements, d.newName? = some x) :
    ∃ n, LastBound Datum.isBinding statements x n := by
  induction statements using List.reverseRecOn with
  | nil =>
    obtain ⟨d, hd, -⟩ := h
    cases hd
  | append_singleton init e ih =>
    by_cases he : e.newName? = some x
    · exact ⟨_, (lastBound_concat_self he).mpr rfl⟩
    · obtain ⟨d, hd, hname⟩ := h
      rcases List.mem_append.mp hd with hd | hd
      · obtain ⟨n, hn⟩ := ih ⟨d, hd, hname⟩
        exact ⟨n, (lastBound_concat_of_ne he).mpr hn⟩
      · rw [List.mem_singleton.mp hd] at hname
        exact absurd hname he

/-- `LastBound` by one statement are not two names. -/
theorem LastBound.unique (hx : LastBound Datum.isBinding statements x n)
    (hy : LastBound Datum.isBinding statements y n) : x = y := by
  have hcounts : ∀ e : Datum, e.isBinding = true → e.isBinding = true := fun _ h => h
  induction statements using List.reverseRecOn with
  | nil => exact absurd (hx.lt hcounts) (Nat.not_lt_zero n)
  | append_singleton init d ih =>
    by_cases hdx : d.newName? = some x
    · by_cases hdy : d.newName? = some y
      · exact Option.some.inj (hdx.symm.trans hdy)
      · have hlt := ((lastBound_concat_of_ne hdy).mp hy).lt hcounts
        have heq := (lastBound_concat_self hdx).mp hx
        omega
    · have hinit := (lastBound_concat_of_ne hdx).mp hx
      by_cases hdy : d.newName? = some y
      · have hlt := hinit.lt hcounts
        have heq := (lastBound_concat_self hdy).mp hy
        omega
      · exact ih hinit ((lastBound_concat_of_ne hdy).mp hy)

end Bindings

namespace Tabulates

variable {statements : List Datum} {f g : Frame} {d : Datum}

theorem nil : Tabulates [] {} := ⟨rfl, .nil rfl⟩

/-- `Tabulates` with one statement more. -/
theorem concat (h : Tabulates statements f) (hstep : Enters f g d) : Tabulates (statements ++ [d]) g := by
  -- the table depends on the slots of a frame alone
  have htable : ∀ {f' : Frame}, g.slots = f'.slots → f'.HasTable Datum.isBinding (statements ++ [d]) →
      g.HasTable Datum.isBinding (statements ++ [d]) := by
    intro f' hslots hf' x slot
    rw [Frame.slot?, hslots]
    exact hf' x slot
  cases hstep with
  | pass hbinding hslots hdepth =>
    refine ⟨?_, htable hslots (h.table.pass ?_)⟩
    · rw [hdepth, h.depth, List.countP_append, List.countP_singleton, hbinding]
      rfl
    · rw [Datum.newName?, hbinding]
      rfl
  | bind hname hslots hdepth =>
    rw [h.depth] at hslots
    refine ⟨?_, htable hslots (h.table.bind hname)⟩
    rw [hdepth, h.depth, List.countP_append, List.countP_singleton, Datum.isBinding_of_newName hname]
    rfl

/-- `Tabulates`: the names of the table are those that are bound. -/
theorem mem_names_iff (h : Tabulates statements f) (x : String) :
    x ∈ f.names ↔ ∃ d ∈ statements, d.newName? = some x := by
  have hfound : x ∈ f.names ↔ ∃ slot, f.slot? x = some slot := by
    rw [← Option.ne_none_iff_exists', Frame.slot?, ne_eq, Frame.lookup_eq_none_iff, not_not]
  rw [hfound]
  constructor
  · rintro ⟨slot, hslot⟩
    obtain ⟨before, d, after, rfl, hname, -⟩ := (h.table x slot).mp hslot
    exact ⟨d, by simp, hname⟩
  · intro hbound
    obtain ⟨n, hn⟩ := exists_lastBound hbound
    exact ⟨n, (h.table x n).mpr hn⟩

end Tabulates

namespace Lowering

/-- `lowerAll` on a list that is accepted keeps `Tabulates`, by induction on the list. -/
theorem tabulates_of_lowerAll {comments : Bool} {statements : List Datum} :
    ∀ {done : List Datum} {f g : Frame} {u : Unit}, (∀ d ∈ statements, d.isStandard = true) →
      Tabulates done f → (lowerAll comments statements).run f = .ok u g →
      Tabulates (done ++ statements) g := by
  induction statements with
  | nil =>
    intro done f g u _ hf h
    cases h
    rw [List.append_nil]
    exact hf
  | cons d rest ih =>
    intro done f g u hstandard hf h
    obtain ⟨u₁, f₁, helement, hrest⟩ := bind_eq_ok h
    have hstep := enters_of_lowerElement (hstandard d (by simp)) helement
    have hall := ih (fun x hx => hstandard x (by simp [hx])) (hf.concat hstep) hrest
    rw [List.append_assoc] at hall
    exact hall

/-- `lowerAll` refuses a list at one of its statements, behind others that are accepted. -/
theorem refused_of_lowerAll {comments : Bool} {statements : List Datum} :
    ∀ {f g : Frame} {fault : Fault}, (lowerAll comments statements).run f = .error fault g →
      ∃ before d after f', statements = before ++ d :: after ∧
        (lowerAll comments before).run f = .ok () f' ∧ (lowerElement comments d).run f' = .error fault g := by
  induction statements with
  | nil =>
    intro f g fault h
    cases h
  | cons d rest ih =>
    intro f g fault h
    cases helement : (lowerElement comments d).run f with
    | error found g' =>
      cases (run_bind_error helement).symm.trans h
      exact ⟨[], d, rest, f, rfl, rfl, helement⟩
    | ok u f₁ =>
      obtain ⟨before, d', after, f', rfl, hbefore, hd⟩ := ih ((run_bind helement).symm.trans h)
      exact ⟨d :: before, d', after, f', rfl, (run_bind helement).trans hbefore, hd⟩

end Lowering

/-- `lower` leaves the table of the binding statements.  If a list is accepted, as many values lie on the
    stack as there are binding statements, the names of the table are those that they bind, and each has for
    its slot the number of binding statements before the last one that binds it.  So no two names share a
    slot, and all slots lie below the top.  If a list is refused at a statement, the table is that of the
    statements before. -/
theorem table_of_lower {comments : Bool} {statements : List Datum}
    (hstandard : ∀ d ∈ statements, d.isStandard = true) :
    ((lower comments statements).fault = none →
      let f := (lower comments statements).frame
      f.depth = statements.countP Datum.isBinding ∧
      (∀ x, x ∈ f.names ↔ ∃ d ∈ statements, d.newName? = some x) ∧
      (∀ x slot, f.slot? x = some slot ↔ LastBound Datum.isBinding statements x slot) ∧
      (∀ x y slot, f.slot? x = some slot → f.slot? y = some slot → x = y) ∧
      ∀ x slot, f.slot? x = some slot → slot < f.depth) ∧
    ∀ fault, (lower comments statements).fault = some fault →
      ∃ before d after, statements = before ++ d :: after ∧ (lower comments before).fault = none ∧
        (lower comments (before ++ [d])).fault = some fault ∧
        (lower comments statements).frame.slots = (lower comments before).frame.slots := by
  cases hrun : (Lowering.lowerAll comments statements).run {} with
  | ok u g =>
    have htable := Lowering.tabulates_of_lowerAll hstandard .nil hrun
    rw [List.nil_append] at htable
    rw [lower_of_ok hrun]
    refine ⟨fun _ => ⟨htable.depth, htable.mem_names_iff, htable.table, fun x y slot hx hy => ?_,
      fun x slot hslot => ?_⟩, fun fault hfault => by cases hfault⟩
    · exact ((htable.table x slot).mp hx).unique ((htable.table y slot).mp hy)
    · exact (((htable.table x slot).mp hslot).lt fun _ h => h).trans_eq htable.depth.symm
  | error fault g =>
    rw [lower_of_error hrun]
    refine ⟨fun hnone => (by cases hnone), fun found hfound => ?_⟩
    cases hfound
    obtain ⟨before, d, after, f, rfl, hbefore, hd⟩ := Lowering.refused_of_lowerAll hrun
    have hlast : (Lowering.lowerAll comments (before ++ [d])).run {} = .error fault g :=
      (Lowering.run_lowerAll_append hbefore).trans (Lowering.run_bind_error hd)
    refine ⟨before, d, after, rfl, ?_, ?_, ?_⟩
    · rw [lower_of_ok hbefore]
    · rw [lower_of_error hlast]
    · rw [lower_of_ok hbefore]
      show g.slots = f.slots
      exact Lowering.spares_element (hstandard d (by simp)) hd

/-- A name that is bound again behind a loop. -/
def reboundBehindLoop : List Datum :=
  [.assign {} (.text "x") (.literal {} (.int 1)), .exit {} (.reference {} (.text "x")),
    .loop {} (.text "i") (.call {} (.text "range") (.literal {} (.int 2))),
    .assign {} (.text "x") (.reference {} (.text "i"))]

/-- `reboundBehindLoop`: the name has the slot of its second binding.  An assignment of an unknown name
    binds nothing. -/
theorem table_of_reboundBehindLoop :
    ((lower true reboundBehindLoop).frame.depth = 3 ∧
      (lower true reboundBehindLoop).frame.slot? "x" = some 2 ∧
      (lower true reboundBehindLoop).frame.slot? "i" = some 1) ∧
    ∃ before d after, [.assign {} (.text "x") (.reference {} (.text "y"))] = before ++ d :: after ∧
      (lower true before).fault = none ∧
      (lower true (before ++ [d])).fault = some (.report (.undeclaredVariable "y" []) none) ∧
      (lower true [.assign {} (.text "x") (.reference {} (.text "y"))]).frame.slots =
        (lower true before).frame.slots := by
  constructor
  · have hx : LastBound Datum.isBinding reboundBehindLoop "x" 2 :=
      ⟨reboundBehindLoop.take 3, _, [], rfl, rfl, List.forall_mem_nil _, rfl⟩
    have hi : LastBound Datum.isBinding reboundBehindLoop "i" 1 :=
      ⟨reboundBehindLoop.take 2, _, reboundBehindLoop.drop 3, rfl, rfl, by decide, rfl⟩
    have haccepted : (lower true reboundBehindLoop).fault = none := by decide +kernel
    obtain ⟨hdepth, -, hslot, -⟩ := (@table_of_lower true reboundBehindLoop (by decide)).1 haccepted
    exact ⟨hdepth.trans (by decide), (hslot "x" 2).mpr hx, (hslot "i" 1).mpr hi⟩
  · have hrefused : (lower true [.assign {} (.text "x") (.reference {} (.text "y"))]).fault =
        some (.report (.undeclaredVariable "y" []) none) := by decide +kernel
    exact (table_of_lower (by decide)).2 _ hrefused

end ZebLang
