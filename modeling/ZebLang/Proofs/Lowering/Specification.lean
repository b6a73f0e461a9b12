/-
  Specifications of lowering.

  `Specified` says what a piece of lowering does from frames of some sort: to which frames it goes, and how
  it stops if it stops.  Sequences follow by `Specified.bind`, and an expression that leaves one value passes
  the test for it (`Specified.leavingOne`).

  Below stands what each piece of the code of an expression can do.  A piece that pops needs the values
  that it pops; with these, none stops but for an operator, a name or a function that is not known.
-/

import ZebLang.Proofs.Lowering.Code

namespace ZebLang.Lowering

/-- `Specified pre x post stop`: from a frame as `pre` says, `x` ends in one as `post` says, or stops as
    `stop` says. -/
def Specified {α : Type} (pre : Frame → Prop) (x : Lowering α) (post : α → Frame → Prop)
    (stop : Fault → Frame → Prop) : Prop :=
  ∀ f, pre f → match x.run f with
    | .ok a g => post a g
    | .error fault g => stop fault g

namespace Specified

variable {α β : Type} {pre : Frame → Prop} {x : Lowering α} {mid : α → Frame → Prop}
  {post : β → Frame → Prop} {stop : Fault → Frame → Prop}

/-- `Specified` is monotone in how `x` ends and how it stops. -/
theorem mono {mid' : α → Frame → Prop} {stop' : Fault → Frame → Prop} (hx : Specified pre x mid stop)
    (hpost : ∀ a g, mid a g → mid' a g) (hstop : ∀ fault g, stop fault g → stop' fault g) :
    Specified pre x mid' stop' := by
  intro f hf
  have h := hx f hf
  cases hrun : x.run f with
  | ok a g =>
    rw [hrun] at h
    exact hpost a g h
  | error fault g =>
    rw [hrun] at h
    exact hstop fault g h

/-- `Specified` composes along `bind`. -/
theorem bind {k : α → Lowering β} (hx : Specified pre x mid stop)
    (hk : ∀ a, Specified (mid a) (k a) post stop) : Specified pre (x >>= k) post stop := by
  intro f hf
  have hfirst := hx f hf
  show match EStateM.bind x k f with
    | .ok a g => post a g
    | .error fault g => stop fault g
  unfold EStateM.bind
  cases hrun : x f with
  | ok a g =>
    rw [show x.run f = .ok a g from hrun] at hfirst
    exact hk a g hfirst
  | error fault g =>
    rw [show x.run f = .error fault g from hrun] at hfirst
    exact hfirst

/-- `Specified` for a step that reads the frame. -/
theorem get {k : Frame → Lowering β} (hk : ∀ f, pre f → Specified (· = f) (k f) post stop) :
    Specified pre (MonadState.get >>= k) post stop :=
  fun f hf => hk f hf f rfl

/-- `Specified` for a check, and what is done with its result. -/
theorem check {found : Except Fault α} {k : α → Lowering β}
    (hstop : ∀ {fault g}, found = .error fault → stop fault g)
    (hk : ∀ a, found = .ok a → Specified pre (k a) post stop) :
    Specified pre (Lowering.check found >>= k) post stop := by
  cases found with
  | ok a => exact hk a rfl
  | error fault => exact fun _ _ => hstop rfl

/-- `Specified` for `leavingOne`: code that leaves one more value passes its check. -/
theorem leavingOne {d : Datum} {code : Lowering Unit} {post : Frame → Prop}
    (hcode : Specified pre code (fun _ => post) stop)
    (hdepth : ∀ f g, pre f → post g → g.depth = f.depth + 1) :
    Specified pre (Lowering.leavingOne d code) (fun _ => post) stop := by
  refine get fun f hf => ?_
  have hfrom : Specified (· = f) code (fun _ => post) stop := by
    rintro g rfl
    exact hcode g hf
  refine bind hfrom fun _ => get ?_
  rintro g hg g' rfl
  dsimp only
  rw [if_neg (not_not_intro (hdepth f g' hf hg))]
  exact hg

end Specified

/-! ## What each piece can do -/

/-- `run` of a `bind` whose first part succeeds. -/
theorem run_bind {α β : Type} {x : Lowering α} {k : α → Lowering β} {f g : Frame} {a : α}
    (h : x.run f = .ok a g) : (x >>= k).run f = (k a).run g := by
  show EStateM.bind x k f = _
  unfold EStateM.bind
  rw [show x f = .ok a g from h]
  rfl

theorem run_get_bind {β : Type} {k : Frame → Lowering β} {f : Frame} : (get >>= k).run f = (k f).run f := rfl

/-- `run` of a `bind` whose first part stops. -/
theorem run_bind_error {α β : Type} {x : Lowering α} {k : α → Lowering β} {f g : Frame} {fault : Fault}
    (h : x.run f = .error fault g) : (x >>= k).run f = .error fault g := by
  show EStateM.bind x k f = _
  unfold EStateM.bind
  rw [show x f = .error fault g from h]

section Pieces

variable {f : Frame} {n : Nat}

/-- `pop` on a stack that is not empty. -/
theorem run_pop (r : Register) (h : f.depth = n + 1) :
    (pop r).run f = .ok () { f.emit 1 (.instr (.pop r)) with depth := n } := by
  have hpop : f.pop 1 r = .ok { f.emit 1 (.instr (.pop r)) with depth := n } := by
    unfold Frame.pop
    rw [h]
  unfold pop
  rw [run_get_bind, hpop]
  rfl

/-- `lowerReference` finds the name, or reports it as undeclared. -/
theorem reference_cases (f : Frame) (name : String) (place : Option Origin) :
    (∃ g, (lowerReference name place).run f = .ok () g) ∨
      f.slots.lookup name = none ∧
        (lowerReference name place).run f = .error (.report (Cause.undeclared name f.names) place) f := by
  unfold lowerReference
  rw [run_get_bind]
  cases hslot : f.slot? name with
  | none => exact .inr ⟨hslot, rfl⟩
  | some slot => exact .inl ⟨_, rfl⟩

/-- `lowerOperator` combines two values, or reports the operator as unsupported. -/
theorem operator_cases (operator : String) (place : Option Origin) (h : f.depth = n + 2) :
    (∃ g, (lowerOperator operator place).run f = .ok () g) ∨
      arithmetic? operator = none ∧ (lowerOperator operator place).run f =
        .error (.report (.unsupportedOperator operator) place) f := by
  unfold lowerOperator
  cases arithmetic? operator with
  | none => exact .inr ⟨rfl, rfl⟩
  | some combine =>
    have hrbx := run_pop .rbx h
    have hrax := @run_pop { f.emit 1 (.instr (.pop .rbx)) with depth := n + 1 } n .rax rfl
    left
    dsimp only
    rw [run_bind hrbx, run_bind hrax]
    exact ⟨_, rfl⟩

theorem range_runs (h : f.depth = n + 1) : ∃ g, lowerRange.run f = .ok () g := by
  have hpop := @run_pop f.nextLoop.2 n .rax h
  show ∃ g, (pop .rax >>= fun _ => instr (.mov (.reg .rbx) (.imm 0)) >>= fun _ => push .rbx >>= fun _ =>
    block (countingLines f.loops)).run f.nextLoop.2 = .ok () g
  rw [run_bind hpop]
  exact ⟨_, rfl⟩

/-- `lowerCall` applies the function, or reports it as undeclared. -/
theorem call_cases (name : String) (place : Option Origin) (h : f.depth = n + 1) :
    (∃ g, (lowerCall name place).run f = .ok () g) ∨
      name ∉ ["print", "range"] ∧
        (lowerCall name place).run f = .error (.report (.undeclaredFunction name) place) f := by
  unfold lowerCall
  by_cases hprint : name = "print"
  · rw [if_pos hprint]
    exact .inl ⟨_, rfl⟩
  · rw [if_neg hprint]
    by_cases hrange : name = "range"
    · rw [if_pos hrange]
      exact .inl (range_runs h)
    · rw [if_neg hrange]
      exact .inr ⟨by simp [hprint, hrange], rfl⟩

/-- `lowerExit` ends the program with the value on top of the stack, which is popped. -/
theorem exit_runs (h : f.depth = n + 1) :
    ∃ g, lowerExit.run f = .ok () g ∧ f.Gains g exitItems n ∧ g.counters = f.counters := by
  have hmov : (instr (.mov (.reg .rax) (.imm exitCall))).run f =
      .ok () (f.emit 1 (.instr (.mov (.reg .rax) (.imm exitCall)))) := rfl
  have hpop := @run_pop (f.emit 1 (.instr (.mov (.reg .rax) (.imm exitCall)))) n .rdi h
  unfold lowerExit
  rw [run_bind hmov, run_bind hpop]
  exact ⟨_, rfl, (gains_instr f _).trans ((gains_pop _ .rdi n).trans (gains_instr _ _)), rfl⟩

end Pieces

end ZebLang.Lowering
