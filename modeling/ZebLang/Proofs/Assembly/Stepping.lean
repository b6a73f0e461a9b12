/-
  Frames built step by step.

  A tool may take any steps on a frame, in any order.  What it has done so far is a history: the steps, each
  with its outcome.  A history says by itself what a real stack holds (`liveAfter`): a push that succeeded puts
  a value on top, a pop that succeeded takes the value on top away, and nothing else matters.  A value goes
  by the number of the step that pushed it, since slots are used again after a pop.

  1. A frame keeps track of a history (`Frame.Tracks`): it counts as many values as lie on the real stack, and
     the value with `above` others over it was given the slot `depth - above - 1`.  Every step keeps this up,
     whether it succeeds or fails, so it holds after any steps.
  2. All labels that were given out have numbers below the counters (`Frame.Mints`), and a new one has the
     number that its counter had, so no label is given out twice.
  3. A step adds at most one line to the text, at its end.

  Together: a frame stands for a real stack, whatever steps are taken on it (`refinesStack_steps`).  A pop
  is refused at depth zero.  Besides, any step is refused whose line cannot be indented by its level
  (`FrameStep.Fits`), on a machine with any memory; neither changes anything.
-/

import Mathlib.Data.List.Induction
import Mathlib.Data.List.Nodup
import ZebLang.Assembly.Frame
import ZebLang.Proofs.Lowering.Labels

namespace ZebLang

/-! ## Histories -/

/-- `TakenStep`: a step that was taken, with its outcome. -/
structure TakenStep where
  step : FrameStep
  outcome : Except Fault FrameAnswer

namespace TakenStep

/-- `t.pushed`: a push that succeeded. -/
def pushed (t : TakenStep) : Bool :=
  match t.step, t.outcome with
  | .push .., .ok _ => true
  | _, _ => false

/-- `t.popped`: a pop that succeeded. -/
def popped (t : TakenStep) : Bool :=
  match t.step, t.outcome with
  | .pop .., .ok _ => true
  | _, _ => false

/-- `t.labels`: the labels that a step answered. -/
def labels (t : TakenStep) : List String :=
  match t.outcome with
  | .ok (.label text) => [text]
  | .ok (.labels first second) => [first, second]
  | _ => []

/-- `t.onStack number live`: what lies on a real stack after the step with this number, if `live` does
    before it. -/
def onStack (t : TakenStep) (number : Nat) (live : List Nat) : List Nat :=
  if t.pushed then number :: live
  else if t.popped then live.tail
  else live

end TakenStep

/-- `liveAfter history`: what lies on a real stack after a history, each value by the number of the step
    that pushed it, the latest first. -/
def liveAfter (history : List TakenStep) : List Nat :=
  history.zipIdx.foldl (fun live t => t.1.onStack t.2 live) []

/-- `minted history`: the labels that were given out, in order. -/
def minted (history : List TakenStep) : List String := history.flatMap TakenStep.labels

theorem liveAfter_concat (history : List TakenStep) (t : TakenStep) :
    liveAfter (history ++ [t]) = t.onStack history.length (liveAfter history) := by
  unfold liveAfter
  rw [List.zipIdx_append, List.foldl_append, Nat.zero_add]
  rfl

theorem minted_concat (history : List TakenStep) (t : TakenStep) :
    minted (history ++ [t]) = minted history ++ t.labels := by
  unfold minted
  rw [List.flatMap_append, List.flatMap_singleton]

theorem countP_concat (p : TakenStep → Bool) (history : List TakenStep) (t : TakenStep) :
    (history ++ [t]).countP p = history.countP p + (p t).toNat := by
  rw [List.countP_append, List.countP_singleton]
  cases p t with
  | true => rfl
  | false => rfl

namespace Frame

/-- `f.taking memory s`: the outcome of one step, and the frame after it. -/
def taking (memory : Text.Memory) (f : Frame) (s : FrameStep) : Except Fault FrameAnswer × Frame :=
  match f.stepWithin memory s with
  | .ok (answer, g) => (.ok answer, g)
  | .error fault => (.error fault, f)

/-- `f.after memory steps`: the frame after some steps. -/
def after (memory : Text.Memory) (f : Frame) (steps : List FrameStep) : Frame :=
  ((f.steps memory steps).getLast?.map Prod.snd).getD f

/-- `f.history memory steps`: the history of some steps. -/
def history (memory : Text.Memory) (f : Frame) (steps : List FrameStep) : List TakenStep :=
  List.zipWith TakenStep.mk steps ((f.steps memory steps).map Prod.fst)

/-- `steps` takes one step after another. -/
theorem steps_cons (memory : Text.Memory) (f : Frame) (s : FrameStep) (rest : List FrameStep) :
    f.steps memory (s :: rest) = f.taking memory s :: (f.taking memory s).2.steps memory rest := by
  rw [steps]
  unfold taking
  cases f.stepWithin memory s with
  | ok done => rfl
  | error fault => rfl

theorem after_cons (memory : Text.Memory) (f : Frame) (s : FrameStep) (rest : List FrameStep) :
    f.after memory (s :: rest) = (f.taking memory s).2.after memory rest := by
  unfold after
  rw [steps_cons, List.getLast?_cons]
  cases ((f.taking memory s).2.steps memory rest).getLast? with
  | none => rfl
  | some last => rfl

theorem history_cons (memory : Text.Memory) (f : Frame) (s : FrameStep) (rest : List FrameStep) :
    f.history memory (s :: rest) = ⟨s, (f.taking memory s).1⟩ :: (f.taking memory s).2.history memory rest := by
  unfold history
  rw [steps_cons]
  rfl

/-- `after` of steps and later ones. -/
theorem after_append (memory : Text.Memory) (f : Frame) (steps later : List FrameStep) :
    f.after memory (steps ++ later) = (f.after memory steps).after memory later := by
  induction steps generalizing f with
  | nil => rfl
  | cons s rest ih => rw [List.cons_append, after_cons, after_cons, ih]

/-- `history` of steps and later ones. -/
theorem history_append (memory : Text.Memory) (f : Frame) (steps later : List FrameStep) :
    f.history memory (steps ++ later) = f.history memory steps ++ (f.after memory steps).history memory later := by
  induction steps generalizing f with
  | nil => rfl
  | cons s rest ih => rw [List.cons_append, history_cons, history_cons, after_cons, ih, List.cons_append]

theorem after_concat (memory : Text.Memory) (f : Frame) (steps : List FrameStep) (s : FrameStep) :
    f.after memory (steps ++ [s]) = ((f.after memory steps).taking memory s).2 := by
  rw [after_append, after_cons]
  rfl

theorem history_concat (memory : Text.Memory) (f : Frame) (steps : List FrameStep) (s : FrameStep) :
    f.history memory (steps ++ [s]) = f.history memory steps ++ [⟨s, ((f.after memory steps).taking memory s).1⟩] := by
  rw [history_append, history_cons]
  rfl

end Frame

/-! ## One step -/

/-- `ofRepetition?` finds no fault just if the count, and the length that comes of it, can be counted and
    the memory holds that length. -/
theorem Fault.ofRepetition?_eq_none_iff (memory : Text.Memory) (width : Nat) (count : Int) :
    ofRepetition? memory width count = none ↔
      (-Text.lengthLimit - 1 ≤ count ∧ count ≤ Text.lengthLimit) ∧
        width * count ≤ Text.lengthLimit ∧ memory.holds (width * count).toNat = true := by
  unfold ofRepetition?
  repeat' split
  next h => simp only [reduceCtorEq, false_iff]; omega
  next h hlength => simp only [reduceCtorEq, false_iff]; omega
  next hcount hlength hholds =>
    rw [eq_self, true_iff]
    exact ⟨by omega, by omega, hholds⟩
  next hcount hlength hholds =>
    simp only [reduceCtorEq, false_iff]
    exact fun h => hholds h.2.2

namespace FrameStep

variable {memory : Text.Memory}

/-- `s.Fits memory`: the line of `s`, if it writes one, can be indented by its level.  The level is not too
    far below zero, and an indent of that many levels is a text for which there is memory. -/
def Fits (memory : Text.Memory) (s : FrameStep) : Prop :=
  ∀ level ∈ s.level?, -Text.lengthLimit - 1 ≤ level ∧ indentWidth * level ≤ Text.lengthLimit ∧
    memory.holds (indentWidth * level).toNat = true

/-- `s.refusal? memory`: the fault of the line of a step, if it cannot be indented. -/
def refusal? (memory : Text.Memory) (s : FrameStep) : Option Fault :=
  s.level?.bind (Fault.ofRepetition? memory indentWidth)

/-- `refusal?` decides `Fits`. -/
theorem refusal?_eq_none_iff (s : FrameStep) : s.refusal? memory = none ↔ s.Fits memory := by
  unfold refusal? Fits
  cases s.level? with
  | none =>
    refine ⟨fun _ level hlevel => ?_, fun _ => rfl⟩
    cases hlevel
  | some level =>
    have hlimit : 0 ≤ Text.lengthLimit := by decide
    have hindent : (indentWidth : Int) * level = 4 * level := rfl
    rw [Option.bind_some, Fault.ofRepetition?_eq_none_iff]
    constructor
    · rintro ⟨⟨hlow, -⟩, hlength, hholds⟩ level' hlevel'
      cases hlevel'
      exact ⟨hlow, hlength, hholds⟩
    · intro h
      obtain ⟨hlow, hlength, hholds⟩ := h level rfl
      -- an indent is wider than its level, so its length bounds the level too
      exact ⟨⟨hlow, by omega⟩, hlength, hholds⟩

/-- `refusal?` is never an `underflow`: a line that cannot be indented is no matter of the stack. -/
theorem refusal?_ne_underflow (s : FrameStep) (register : String) :
    s.refusal? memory ≠ some (.underflow register) := by
  unfold refusal? Fault.ofRepetition?
  intro h
  obtain ⟨level, -, hlevel⟩ := Option.bind_eq_some_iff.mp h
  repeat' split at hlevel
  all_goals cases hlevel

end FrameStep

namespace Frame

variable {memory : Text.Memory} {f g : Frame} {s : FrameStep} {answer : FrameAnswer} {fault : Fault}

/-- `taking` a step that fails by itself changes nothing. -/
theorem taking_of_error (h : f.step s = .error fault) : f.taking memory s = (.error fault, f) := by
  unfold taking stepWithin
  rw [h]
  rfl

/-- `taking` a step whose line cannot be indented changes nothing. -/
theorem taking_of_refusal (h : f.step s = .ok (answer, g)) (hline : s.refusal? memory = some fault) :
    f.taking memory s = (.error fault, f) := by
  unfold FrameStep.refusal? at hline
  unfold taking stepWithin
  rw [h, hline]
  rfl

/-- `taking` a step that succeeds and whose line can be indented. -/
theorem taking_of_ok (h : f.step s = .ok (answer, g)) (hline : s.refusal? memory = none) :
    f.taking memory s = (.ok answer, g) := by
  unfold FrameStep.refusal? at hline
  unfold taking stepWithin
  rw [h, hline]
  rfl

/-- `step` on a pop: refused at depth zero, and one value less otherwise. -/
theorem step_pop (f : Frame) (register : String) (level : Int) :
    (f.depth = 0 ∧ f.step (.pop register level) = .error (.underflow register)) ∨
      ∃ depth, f.depth = depth + 1 ∧ f.step (.pop register level) =
        .ok (.nothing, { f.emit level.toNat (.instr (.pop (.ofText register))) with depth }) := by
  cases hdepth : f.depth with
  | zero =>
    have hpop : f.pop level.toNat (.ofText register) = .error (.underflow register) := by
      unfold pop
      rw [hdepth, Register.text_ofText]
    left
    refine ⟨rfl, ?_⟩
    unfold step
    dsimp only
    rw [hpop]
    rfl
  | succ depth =>
    have hpop : f.pop level.toNat (.ofText register) =
        .ok { f.emit level.toNat (.instr (.pop (.ofText register))) with depth } := by
      unfold pop
      rw [hdepth]
    right
    refine ⟨depth, rfl, ?_⟩
    unfold step
    dsimp only
    rw [hpop]
    rfl

/-- `taking` a step fails and changes nothing, or does what `step` does. -/
theorem taking_cases (memory : Text.Memory) (f : Frame) (s : FrameStep) :
    (∃ fault, f.taking memory s = (.error fault, f)) ∨
      ∃ answer g, f.step s = .ok (answer, g) ∧ f.taking memory s = (.ok answer, g) := by
  cases hstep : f.step s with
  | error fault => exact .inl ⟨fault, taking_of_error hstep⟩
  | ok done =>
    obtain ⟨answer, g⟩ := done
    cases hline : s.refusal? memory with
    | some fault => exact .inl ⟨fault, taking_of_refusal hstep hline⟩
    | none => exact .inr ⟨answer, g, rfl, taking_of_ok hstep hline⟩

/-- `step` fails on a pop at depth zero only. -/
theorem pop_of_step_error (h : f.step s = .error fault) :
    ∃ register level, s = .pop register level ∧ f.depth = 0 ∧ fault = .underflow register := by
  cases s with
  | pop register level =>
    rcases f.step_pop register level with ⟨hdepth, hstep⟩ | ⟨depth, -, hstep⟩
    · cases h.symm.trans hstep
      exact ⟨register, level, rfl, hdepth, rfl⟩
    · cases h.symm.trans hstep
  | _ => cases h

/-- `step` on a pop that succeeds takes back one push. -/
theorem pop_of_step_ok {register : String} {level : Int} (h : f.step (.pop register level) = .ok (answer, g)) :
    ∃ depth, f.depth = depth + 1 ∧ answer = .nothing ∧
      g = { f.emit level.toNat (.instr (.pop (.ofText register))) with depth } := by
  rcases f.step_pop register level with ⟨-, hfails⟩ | ⟨depth, hdepth, hpops⟩
  · cases hfails.symm.trans h
  · cases hpops.symm.trans h
    exact ⟨depth, hdepth, rfl, rfl⟩

/-- `taking` a step that fails leaves the frame as it is. -/
theorem eq_of_taking_error (h : (f.taking memory s).1 = .error fault) : (f.taking memory s).2 = f := by
  rcases f.taking_cases memory s with ⟨fault', htaking⟩ | ⟨answer, g, -, htaking⟩
  · rw [htaking]
  · rw [htaking] at h
    cases h

/-- `taking` a step fails just if it would pop an empty stack or its line does not `Fits`. -/
theorem taking_eq_error_iff (memory : Text.Memory) (f : Frame) (s : FrameStep) :
    (∃ fault, (f.taking memory s).1 = .error fault) ↔
      (∃ register level, s = .pop register level ∧ f.depth = 0) ∨ ¬ s.Fits memory := by
  rw [← FrameStep.refusal?_eq_none_iff]
  cases hstep : f.step s with
  | error fault =>
    obtain ⟨register, level, hs, hdepth, -⟩ := pop_of_step_error hstep
    rw [taking_of_error hstep]
    exact ⟨fun _ => .inl ⟨register, level, hs, hdepth⟩, fun _ => ⟨fault, rfl⟩⟩
  | ok done =>
    obtain ⟨answer, g⟩ := done
    have hpops : ¬ ∃ register level, s = .pop register level ∧ f.depth = 0 := by
      rintro ⟨register, level, rfl, hdepth⟩
      obtain ⟨depth, hsucc, -⟩ := pop_of_step_ok hstep
      omega
    cases hline : s.refusal? memory with
    | some fault =>
      rw [taking_of_refusal hstep hline]
      exact ⟨fun _ => .inr (Option.some_ne_none fault), fun _ => ⟨fault, rfl⟩⟩
    | none =>
      rw [taking_of_ok hstep hline]
      constructor
      · rintro ⟨fault, h⟩
        cases h
      · rintro (h | h)
        · exact absurd h hpops
        · exact absurd rfl h

/-- `taking` a pop fails with `underflow` just at depth zero. -/
theorem taking_pop_eq_underflow_iff (memory : Text.Memory) (f : Frame) (register : String) (level : Int) :
    (f.taking memory (.pop register level)).1 = .error (.underflow register) ↔ f.depth = 0 := by
  constructor
  · intro h
    rcases f.step_pop register level with ⟨hdepth, -⟩ | ⟨depth, -, hstep⟩
    · exact hdepth
    · cases hline : (FrameStep.pop register level).refusal? memory with
      | some fault =>
        rw [taking_of_refusal hstep hline] at h
        cases h
        exact absurd hline (FrameStep.refusal?_ne_underflow _ _)
      | none =>
        rw [taking_of_ok hstep hline] at h
        cases h
  · intro hdepth
    rcases f.step_pop register level with ⟨-, hstep⟩ | ⟨depth, hsucc, -⟩
    · rw [taking_of_error hstep]
    · omega

/-! ## Values and their slots -/

/-- `f.Tracks history`: the frame knows what lies on the real stack after a history. -/
structure Tracks (f : Frame) (history : List TakenStep) : Prop where
  depth : f.depth = (liveAfter history).length
  balance : f.depth + history.countP TakenStep.popped = history.countP TakenStep.pushed
  /-- The slot of a value says how many lie below it. -/
  slot : ∀ above number, (liveAfter history)[above]? = some number → ∃ register level slot,
    history[number]? = some ⟨.push register level, .ok (.number (slot : Nat))⟩ ∧ slot + above + 1 = f.depth

theorem tracks_nil (prologue : String) : Tracks { prologue } [] := by
  refine ⟨rfl, rfl, ?_⟩
  intro above number h
  cases h

namespace Tracks

variable {history : List TakenStep} {t : TakenStep}

/-- `Tracks`: an earlier push stays where it is in the history. -/
theorem recorded (h : f.Tracks history) {above number : Nat} (hlive : (liveAfter history)[above]? = some number) :
    ∃ register level slot, (history ++ [t])[number]? = some ⟨.push register level, .ok (.number (slot : Nat))⟩ ∧
      slot + above + 1 = f.depth := by
  obtain ⟨register, level, slot, hpush, hslot⟩ := h.slot above number hlive
  refine ⟨register, level, slot, ?_, hslot⟩
  have hlt : number < history.length := (List.getElem?_eq_some_iff.mp hpush).1
  rw [List.getElem?_append_left hlt]
  exact hpush

/-- `Tracks` after a step that neither pushes nor pops. -/
theorem still (h : f.Tracks history) (hdepth : g.depth = f.depth) (hpushed : t.pushed = false)
    (hpopped : t.popped = false) : g.Tracks (history ++ [t]) := by
  have hlive : liveAfter (history ++ [t]) = liveAfter history := by
    rw [liveAfter_concat, TakenStep.onStack, hpushed, hpopped]
    rfl
  refine ⟨?_, ?_, ?_⟩
  · rw [hlive, hdepth, h.depth]
  · rw [hdepth, countP_concat, countP_concat, hpushed, hpopped]
    exact h.balance
  · rw [hlive, hdepth]
    intro above number hnumber
    exact h.recorded hnumber

/-- `Tracks` after a push, whose value gets the slot numbered by the depth before it. -/
theorem push (h : f.Tracks history) (register : String) (level : Int) (hdepth : g.depth = f.depth + 1) :
    g.Tracks (history ++ [⟨.push register level, .ok (.number f.depth)⟩]) := by
  have hlive : liveAfter (history ++ [⟨.push register level, .ok (.number f.depth)⟩]) =
      history.length :: liveAfter history := liveAfter_concat history _
  refine ⟨?_, ?_, ?_⟩
  · rw [hlive, hdepth, h.depth, List.length_cons]
  · have hbalance := h.balance
    rw [countP_concat, countP_concat]
    show g.depth + (history.countP TakenStep.popped + 0) = history.countP TakenStep.pushed + 1
    omega
  · rw [hlive, hdepth]
    intro above number hnumber
    cases above with
    | zero =>
      -- the value just pushed
      cases hnumber
      exact ⟨register, level, f.depth, List.getElem?_concat_length, rfl⟩
    | succ above =>
      -- every other value has one more above it
      obtain ⟨register', level', slot, hpush, hslot⟩ := h.recorded hnumber
      exact ⟨register', level', slot, hpush, by omega⟩

/-- `Tracks` after a pop: the value on top is gone, and every other one has one less above it. -/
theorem pop (h : f.Tracks history) (register : String) (level : Int) (hdepth : f.depth = g.depth + 1) :
    g.Tracks (history ++ [⟨.pop register level, .ok .nothing⟩]) := by
  have hlive : liveAfter (history ++ [⟨.pop register level, .ok .nothing⟩]) = (liveAfter history).tail :=
    liveAfter_concat history _
  have hlength := h.depth
  refine ⟨?_, ?_, ?_⟩
  · rw [hlive, List.length_tail]
    omega
  · have hbalance := h.balance
    rw [countP_concat, countP_concat]
    show g.depth + (history.countP TakenStep.popped + 1) = history.countP TakenStep.pushed + 0
    omega
  · rw [hlive]
    intro above number hnumber
    rw [List.getElem?_tail] at hnumber
    obtain ⟨register', level', slot, hpush, hslot⟩ := h.recorded hnumber
    exact ⟨register', level', slot, hpush, by omega⟩

/-- `Tracks` after any step, whether it succeeds or fails. -/
theorem step (h : f.Tracks history) (memory : Text.Memory) (s : FrameStep) :
    (f.taking memory s).2.Tracks (history ++ [⟨s, (f.taking memory s).1⟩]) := by
  rcases f.taking_cases memory s with ⟨fault, htaking⟩ | ⟨answer, g, hstep, htaking⟩
  · rw [htaking]
    refine h.still rfl ?_ ?_
    · cases s <;> rfl
    · cases s <;> rfl
  · rw [htaking]
    cases s with
    | push register level =>
      cases hstep
      exact h.push register level rfl
    | pop register level =>
      obtain ⟨depth, hdepth, rfl, rfl⟩ := pop_of_step_ok hstep
      exact h.pop register level hdepth
    | _ =>
      cases hstep
      exact h.still rfl rfl rfl

/-- `Tracks`: the value with `above` others over it is found in its slot. -/
theorem offsetOf (h : f.Tracks history) {above number : Nat}
    (hlive : (liveAfter history)[above]? = some number) :
    ∃ register level slot, history[number]? = some ⟨.push register level, .ok (.number (slot : Nat))⟩ ∧
      slot < f.depth ∧ f.taking memory (.offsetOf slot) = (.ok (.number (8 * above)), f) := by
  obtain ⟨register, level, slot, hpush, hslot⟩ := h.slot above number hlive
  refine ⟨register, level, slot, hpush, by omega, ?_⟩
  have hoffset : f.offsetOf (slot : Int) = 8 * (above : Int) := by
    unfold Frame.offsetOf slotSize
    omega
  rw [← hoffset]
  exact taking_of_ok rfl rfl

end Tracks

/-- `Tracks` after any steps, by induction on them from the end. -/
theorem tracks_after (memory : Text.Memory) (prologue : String) (steps : List FrameStep) :
    Tracks (after memory { prologue } steps) (history memory { prologue } steps) := by
  induction steps using List.reverseRecOn with
  | nil => exact tracks_nil prologue
  | append_singleton steps s ih =>
    rw [after_concat, history_concat]
    exact ih.step memory s

/-- Slots are used again: the second push and the last one have the same. -/
example :
    let steps := [.push "rax" 1, .push "rbx" 1, .pop "rcx" 1, .push "rdx" 1]
    let ample : Text.Memory := ⟨fun _ => true, rfl⟩
    (history ample {} steps).map TakenStep.outcome =
        [.ok (.number 0), .ok (.number 1), .ok .nothing, .ok (.number 1)] ∧
      liveAfter (history ample {} steps) = [3, 0] :=
  ⟨rfl, rfl⟩

/-! ## Labels -/

/-- `f.HasMinted word n`: a label of this word and number was given out; loops have two labels each,
    printing sequences one. -/
def HasMinted (f : Frame) (word : String) (n : Nat) : Prop :=
  (word = "loop" ∨ word = "exit") ∧ n < f.loops ∨ word = "print" ∧ n < f.prints

/-- `HasMinted`: the words of labels have no digits. -/
theorem HasMinted.isDigit_word {word : String} {n : Nat} (h : f.HasMinted word n) :
    ∀ c ∈ word.toList, c.isDigit = false := by
  rcases h with ⟨rfl | rfl, -⟩ | ⟨rfl, -⟩
  all_goals exact Text.eq_false_of_any rfl

/-- `HasMinted`: a label is written with one word and one number. -/
theorem HasMinted.unique {word word' : String} {n n' : Nat} (h : f.HasMinted word n) (h' : g.HasMinted word' n')
    (heq : word ++ Text.natural n = word' ++ Text.natural n') : word = word' ∧ n = n' := by
  have hchars : word.toList ++ (Nat.toDigits 10 n ++ []) = word'.toList ++ (Nat.toDigits 10 n' ++ []) := by
    rw [List.append_nil, List.append_nil, ← Text.toList_natural, ← Text.toList_natural, ← String.toList_append,
      ← String.toList_append, heq]
  obtain ⟨hword, hdigits, -⟩ := parts_of_append_eq h.isDigit_word h'.isDigit_word (Text.isDigit_toDigits n)
    (Text.isDigit_toDigits n') Nat.toDigits_ne_nil Nat.toDigits_ne_nil (fun c hc => by cases hc)
    (fun c hc => by cases hc) hchars
  refine ⟨String.toList_inj.mp hword, ?_⟩
  rw [← Text.ofDigits_toDigits n, hdigits, Text.ofDigits_toDigits]

/-- `f.Mints history`: the labels given out have numbers below the counters, and no two of them are equal.
    -/
structure Mints (f : Frame) (history : List TakenStep) : Prop where
  below : ∀ label ∈ minted history, ∃ word n, label = word ++ Text.natural n ∧ f.HasMinted word n
  nodup : (minted history).Nodup

theorem mints_nil (prologue : String) : Mints { prologue } [] := by
  refine ⟨?_, List.nodup_nil⟩
  intro label hlabel
  cases hlabel

namespace Mints

variable {history : List TakenStep} {t : TakenStep}

/-- `Mints` after a step with new labels, none of which was given out before. -/
theorem fresh (h : f.Mints history) (hkept : ∀ word n, f.HasMinted word n → g.HasMinted word n)
    (hnew : ∀ label ∈ t.labels, ∃ word n, label = word ++ Text.natural n ∧ g.HasMinted word n ∧
      ¬ f.HasMinted word n) (hnodup : t.labels.Nodup) : g.Mints (history ++ [t]) := by
  refine ⟨?_, ?_⟩
  · rw [minted_concat]
    intro label hlabel
    rcases List.mem_append.mp hlabel with hold | hfresh
    · obtain ⟨word, n, rfl, hminted⟩ := h.below label hold
      exact ⟨word, n, rfl, hkept word n hminted⟩
    · obtain ⟨word, n, rfl, hminted, -⟩ := hnew label hfresh
      exact ⟨word, n, rfl, hminted⟩
  · rw [minted_concat]
    refine List.nodup_append.mpr ⟨h.nodup, hnodup, ?_⟩
    rintro label hold label' hfresh heq
    obtain ⟨word, n, rfl, hminted⟩ := h.below label hold
    obtain ⟨word', n', rfl, hminted', hnot⟩ := hnew label' hfresh
    obtain ⟨rfl, rfl⟩ := hminted.unique hminted' heq
    exact hnot hminted

/-- `Mints` after a step that answers no label. -/
theorem still (h : f.Mints history) (hloops : g.loops = f.loops) (hprints : g.prints = f.prints)
    (hlabels : t.labels = []) : g.Mints (history ++ [t]) := by
  refine h.fresh ?_ ?_ ?_
  · intro word n hminted
    unfold HasMinted
    rw [hloops, hprints]
    exact hminted
  · rw [hlabels]
    intro label hlabel
    cases hlabel
  · rw [hlabels]
    exact List.nodup_nil

theorem nextLoop (h : f.Mints history) (s : FrameStep) :
    f.nextLoop.2.Mints (history ++
      [⟨s, .ok (.labels (Label.loop f.loops).text (Label.loopEnd f.loops).text)⟩]) := by
  have hnew : ∀ word, word = "loop" ∨ word = "exit" →
      f.nextLoop.2.HasMinted word f.loops ∧ ¬ f.HasMinted word f.loops := by
    intro word hword
    refine ⟨.inl ⟨hword, Nat.lt_succ_self _⟩, ?_⟩
    rintro (⟨-, hlt⟩ | ⟨rfl, -⟩)
    · omega
    · revert hword
      decide
  refine h.fresh ?_ ?_ ?_
  · rintro word n (⟨hword, hlt⟩ | hprint)
    · exact .inl ⟨hword, Nat.lt_succ_of_lt hlt⟩
    · exact .inr hprint
  · intro label hlabel
    rcases List.mem_pair.mp hlabel with rfl | rfl
    · exact ⟨"loop", f.loops, rfl, hnew "loop" (.inl rfl)⟩
    · exact ⟨"exit", f.loops, rfl, hnew "exit" (.inr rfl)⟩
  · -- the two labels of one loop
    refine List.nodup_cons.mpr ⟨?_, List.nodup_singleton _⟩
    rw [List.mem_singleton]
    intro heq
    obtain ⟨hword, -⟩ := (hnew "loop" (.inl rfl)).1.unique (hnew "exit" (.inr rfl)).1 heq
    revert hword
    decide

theorem nextPrint (h : f.Mints history) (s : FrameStep) :
    f.nextPrint.2.Mints (history ++ [⟨s, .ok (.label (printGroup f.prints))⟩]) := by
  refine h.fresh ?_ ?_ (List.nodup_singleton _)
  · rintro word n (hloop | ⟨hword, hlt⟩)
    · exact .inl hloop
    · exact .inr ⟨hword, Nat.lt_succ_of_lt hlt⟩
  · intro label hlabel
    obtain rfl := List.mem_singleton.mp hlabel
    refine ⟨"print", f.prints, rfl, .inr ⟨rfl, Nat.lt_succ_self _⟩, ?_⟩
    rintro (⟨hword, -⟩ | ⟨-, hlt⟩)
    · revert hword
      decide
    · omega

/-- `Mints` after any step. -/
theorem step (h : f.Mints history) (memory : Text.Memory) (s : FrameStep) :
    (f.taking memory s).2.Mints (history ++ [⟨s, (f.taking memory s).1⟩]) := by
  rcases f.taking_cases memory s with ⟨fault, htaking⟩ | ⟨answer, g, hstep, htaking⟩
  · rw [htaking]
    exact h.still rfl rfl rfl
  · rw [htaking]
    cases s with
    | nextLoop =>
      cases hstep
      exact h.nextLoop _
    | nextPrint =>
      cases hstep
      exact h.nextPrint _
    | pop register level =>
      obtain ⟨depth, -, rfl, rfl⟩ := pop_of_step_ok hstep
      exact h.still rfl rfl rfl
    | _ =>
      cases hstep
      exact h.still rfl rfl rfl

end Mints

/-- `Mints` after any steps, by induction on them from the end. -/
theorem mints_after (memory : Text.Memory) (prologue : String) (steps : List FrameStep) :
    Mints (after memory { prologue } steps) (history memory { prologue } steps) := by
  induction steps using List.reverseRecOn with
  | nil => exact mints_nil prologue
  | append_singleton steps s ih =>
    rw [after_concat, history_concat]
    exact ih.step memory s

/-- `taking` a step answers the labels that it asks for: two for a loop, and one for a printing sequence. -/
theorem length_labels_taking (memory : Text.Memory) (f : Frame) (s : FrameStep) :
    (TakenStep.labels ⟨s, (f.taking memory s).1⟩).length = 2 * [s].count .nextLoop + [s].count .nextPrint := by
  rcases f.taking_cases memory s with ⟨fault, htaking⟩ | ⟨answer, g, hstep, htaking⟩
  · -- a step that asks for labels does not fail
    rw [htaking]
    cases s with
    | nextLoop | nextPrint => cases (taking_of_ok rfl rfl).symm.trans htaking
    | _ => rfl
  · rw [htaking]
    cases s with
    | pop register level =>
      obtain ⟨depth, -, rfl, rfl⟩ := pop_of_step_ok hstep
      rfl
    | _ =>
      cases hstep
      rfl

/-- `minted` has two labels for each loop, and one for each printing sequence. -/
theorem length_minted (memory : Text.Memory) (f : Frame) (steps : List FrameStep) :
    (minted (f.history memory steps)).length = 2 * steps.count .nextLoop + steps.count .nextPrint := by
  induction steps generalizing f with
  | nil => rfl
  | cons s rest ih =>
    have hfirst := f.length_labels_taking memory s
    have hrest := ih (f.taking memory s).2
    unfold minted at hrest ⊢
    rw [history_cons, List.flatMap_cons, List.length_append, ← List.singleton_append, List.count_append,
      List.count_append]
    omega

/-! ## Text -/

/-- `taking` a step adds to the end of the text, or leaves it as it is. -/
theorem text_taking (memory : Text.Memory) (f : Frame) (s : FrameStep) : ∃ added, (f.taking memory s).2.text = f.text ++ added := by
  have hsame : ∃ added, f.text = f.text ++ added := ⟨"", String.append_empty.symm⟩
  rcases f.taking_cases memory s with ⟨fault, htaking⟩ | ⟨answer, g, hstep, htaking⟩
  · rw [htaking]
    exact hsame
  · rw [htaking]
    cases s with
    | pop register level =>
      obtain ⟨depth, -, rfl, rfl⟩ := pop_of_step_ok hstep
      exact ⟨_, text_emit f _ _⟩
    | offsetOf | nextLoop | nextPrint =>
      cases hstep
      exact hsame
    | _ =>
      cases hstep
      exact ⟨_, text_emit f _ _⟩

/-- `after` any steps the text has only grown at its end. -/
theorem text_after (memory : Text.Memory) (f : Frame) (steps : List FrameStep) : ∃ added, (f.after memory steps).text = f.text ++ added := by
  induction steps generalizing f with
  | nil => exact ⟨"", String.append_empty.symm⟩
  | cons s rest ih =>
    obtain ⟨first, hfirst⟩ := f.text_taking memory s
    obtain ⟨second, hsecond⟩ := ih (f.taking memory s).2
    refine ⟨first ++ second, ?_⟩
    rw [after_cons, hsecond, hfirst, String.append_assoc]

end Frame

/-! ## The whole -/

/-- `RefinesStack memory start steps`: what the steps on the frame have come to, on a machine with this
    memory, is what they would have come to on a real stack. -/
structure RefinesStack (memory : Text.Memory) (start : Frame) (steps : List FrameStep) : Prop where
  /-- The depth is the number of pushes less the number of pops, each of those that succeeded. -/
  depth : ((start.after memory steps).depth : Int) =
    (start.history memory steps).countP TakenStep.pushed - (start.history memory steps).countP TakenStep.popped
  /-- So many values lie on the real stack. -/
  size : (start.after memory steps).depth = (liveAfter (start.history memory steps)).length
  /-- A pop fails for want of a value exactly at depth zero. -/
  underflow : ∀ register level,
    ((start.after memory steps).taking memory (.pop register level)).1 = .error (.underflow register) ↔
      (start.after memory steps).depth = 0
  /-- But for that, a step fails exactly if its line cannot be indented. -/
  fails : ∀ s, (∃ fault, ((start.after memory steps).taking memory s).1 = .error fault) ↔
    (∃ register level, s = .pop register level ∧ (start.after memory steps).depth = 0) ∨ ¬ s.Fits memory
  /-- A step that fails leaves text, depth and counters as they were. -/
  unchanged : ∀ s fault, ((start.after memory steps).taking memory s).1 = .error fault →
    start.after memory (steps ++ [s]) = start.after memory steps
  /-- A value stays on the stack until a pop that succeeds takes it from the top. -/
  kept : ∀ s number, number ∈ liveAfter (start.history memory steps) →
    number ∈ liveAfter (start.history memory (steps ++ [s])) ∨
      TakenStep.popped ⟨s, ((start.after memory steps).taking memory s).1⟩ = true ∧
        (liveAfter (start.history memory steps)).head? = some number
  /-- As long as a value lies on the stack, the slot that its push answered is a slot of the stack, and lies
      eight bytes below the top for each value above it. -/
  slot : ∀ above number : Nat, (liveAfter (start.history memory steps))[above]? = some number →
    ∃ register level slot,
      (start.history memory steps)[number]? = some ⟨.push register level, .ok (.number (slot : Nat))⟩ ∧
      slot < (start.after memory steps).depth ∧
      (start.after memory steps).taking memory (.offsetOf slot) = (.ok (.number (8 * above)), start.after memory steps)
  /-- Whatever steps follow, the text so far stays at the beginning. -/
  text : ∀ later, ∃ added, (start.after memory (steps ++ later)).text = (start.after memory steps).text ++ added
  /-- No label was given out twice. -/
  labels : (minted (start.history memory steps)).Nodup
  /-- All labels that were asked for were given out: two for each loop, one for each printing sequence. -/
  asked : (minted (start.history memory steps)).length = 2 * steps.count .nextLoop + steps.count .nextPrint

/-- `onStack` drops a value only by a pop, and only from the top. -/
theorem mem_onStack {t : TakenStep} {number n : Nat} {live : List Nat} (h : n ∈ live) :
    n ∈ t.onStack number live ∨ t.popped = true ∧ live.head? = some n := by
  unfold TakenStep.onStack
  split
  · exact .inl (List.mem_cons_of_mem _ h)
  · split
    next hpopped =>
      cases live with
      | nil => cases h
      | cons first rest =>
        rcases List.mem_cons.mp h with rfl | hrest
        · exact .inr ⟨hpopped, rfl⟩
        · exact .inl hrest
    next => exact .inl h

/-- `RefinesStack` for all steps on a fresh frame, whatever memory there is. -/
theorem refinesStack_steps (memory : Text.Memory) (prologue : String) (steps : List FrameStep) :
    RefinesStack memory { prologue } steps := by
  have htracks := Frame.tracks_after memory prologue steps
  have hbalance := htracks.balance
  refine ⟨by omega, htracks.depth, Frame.taking_pop_eq_underflow_iff memory _,
    Frame.taking_eq_error_iff memory _, ?_, ?_,
    fun above number hlive => htracks.offsetOf hlive, ?_, (Frame.mints_after memory prologue steps).nodup,
    Frame.length_minted memory _ steps⟩
  · intro s fault h
    rw [Frame.after_concat]
    exact Frame.eq_of_taking_error h
  · intro s number hnumber
    rw [Frame.history_concat, liveAfter_concat]
    exact mem_onStack hnumber
  · intro later
    rw [Frame.after_append]
    exact Frame.text_after memory _ later

/-- `taking` a pop fails for other reasons than depth zero, whatever memory there is: a level too far below
    zero is no level, although any other level below zero means no indent. -/
theorem pop_fails_above_depth_zero :
    ¬∃ memory, (∃ fault, ((Frame.after memory {} [.push "rax" 0]).taking memory
        (.pop "rax" (-9223372036854775809))).1 = .error fault) ↔
      (Frame.after memory {} [.push "rax" 0]).depth = 0 := by
  rintro ⟨memory, h⟩
  have hfits : (FrameStep.push "rax" 0).refusal? memory = none := by
    rw [FrameStep.refusal?_eq_none_iff]
    rintro level ⟨⟩
    exact ⟨by decide, by decide, memory.holds_zero⟩
  have hpush : Frame.after memory {} [.push "rax" 0] = Frame.push {} 0 (.ofText "rax") := by
    rw [Frame.after_cons, Frame.taking_of_ok rfl hfits]
    rfl
  rw [hpush] at h
  have hzero := h.mp ⟨.unindexable, rfl⟩
  cases hzero

end ZebLang
