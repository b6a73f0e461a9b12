/-
  Assembly in the making.

  A frame holds the lines so far and what lowering has to know about them: how many values the code
  has left on the evaluation stack, how many loops and printing sequences it has, and the slot of each
  bound name.  The depth changes only together with a `push` or `pop` line, so it cannot drift from the
  code.

  A slot is the depth at which a value was pushed.  It never moves, so a value in slot `s` lies
  `depth - s - 1` values below the top of the stack.
-/

import ZebLang.Assembly
import ZebLang.Fault
import ZebLang.Note

namespace ZebLang

/-- The size of a stack slot in bytes. -/
def slotSize : Nat := 8

/-- Assembly in the making. -/
structure Frame where
  prologue : String := ZebLang.prologue
  lines : Array Line := #[]
  depth : Nat := 0
  loops : Nat := 0
  prints : Nat := 0
  /-- Each bound name once, with its slot. -/
  slots : List (String × Nat) := []
  notes : Array Note := #[]

namespace Frame

/-- The assembly text so far. -/
def text (f : Frame) : String := f.prologue ++ String.join (f.lines.toList.map Line.text)

/-- One more line. -/
def emit (f : Frame) (level : Nat) (item : Item) : Frame :=
  { f with lines := f.lines.push ⟨level, item⟩ }

/-- One more note. -/
def note (f : Frame) (n : Note) : Frame := { f with notes := f.notes.push n }

/-- A `push`; the value goes to the slot numbered by the depth before it. -/
def push (f : Frame) (level : Nat) (r : Register) : Frame :=
  { f.emit level (.instr (.push r)) with depth := f.depth + 1 }

/-- A `pop`, unless the stack is empty. -/
def pop (f : Frame) (level : Nat) (r : Register) : Except Fault Frame :=
  match f.depth with
  | 0 => .error (.underflow r.text)
  | depth + 1 => .ok { f.emit level (.instr (.pop r)) with depth }

/-- How many bytes above the top of the stack a slot lies. -/
def offsetOf (f : Frame) (slot : Int) : Int := ((f.depth : Int) - slot - 1) * (slotSize : Int)

/-- The number of a new loop. -/
def nextLoop (f : Frame) : Nat × Frame :=
  (f.loops, { f with loops := f.loops + 1 }.note (.minted f.loops))

/-- The number of a new printing sequence. -/
def nextPrint (f : Frame) : Nat × Frame := (f.prints, { f with prints := f.prints + 1 })

/-- The slot of a bound name. -/
def slot? (f : Frame) (name : String) : Option Nat := f.slots.lookup name

/-- A name bound to a slot; an earlier binding of the same name is gone. -/
def bind (f : Frame) (name : String) (slot : Nat) : Frame :=
  { f with slots := (name, slot) :: f.slots.filter (·.1 != name) }

/-- The bound names. -/
def names (f : Frame) : List String := f.slots.map (·.1)

/-- The bound names with their slots, by name. -/
def bindings (f : Frame) : List (String × Nat) :=
  f.slots.mergeSort fun a b => decide (a.1 ≤ b.1)

/-! ### What each operation does -/

/-- A line goes to the end of the text. -/
theorem text_emit (f : Frame) (level : Nat) (item : Item) :
    (f.emit level item).text = f.text ++ (Line.mk level item).text := by
  simp [text, emit, String.append_assoc]

/-- A pop is refused exactly when nothing was pushed. -/
theorem pop_eq_error_iff (f : Frame) (level : Nat) (r : Register) :
    f.pop level r = .error (.underflow r.text) ↔ f.depth = 0 := by
  unfold pop
  split <;> simp_all

/-- A pop takes back one push. -/
theorem depth_of_pop {f g : Frame} {level : Nat} {r : Register} (h : f.pop level r = .ok g) :
    f.depth = g.depth + 1 := by
  unfold pop at h
  split at h
  · cases h
  · rename_i hd
    cases h
    exact hd

/-- The latest binding of a name is the one that is found. -/
theorem slot?_bind_self (f : Frame) (name : String) (slot : Nat) :
    (f.bind name slot).slot? name = some slot := by
  simp [slot?, bind]

/-- A binding leaves other names alone. -/
theorem slot?_bind_of_ne (f : Frame) {name other : String} (slot : Nat) (h : other ≠ name) :
    (f.bind name slot).slot? other = f.slot? other := by
  have hfilter : ∀ slots : List (String × Nat),
      (slots.filter (·.1 != name)).lookup other = slots.lookup other := by
    intro slots
    induction slots with
    | nil => rfl
    | cons binding rest ih =>
      obtain ⟨bound, place⟩ := binding
      by_cases hb : bound = name
      · -- the binding that is dropped is not the one looked for
        subst hb
        simp [List.lookup_cons, ih, beq_false_of_ne h]
      · simp [List.lookup_cons, hb, ih]
  simp [slot?, bind, List.lookup_cons, beq_false_of_ne h, hfilter]

end Frame

/-! ## Frames built step by step -/

/-- A step that a tool may take on a frame.  Levels below zero count as zero. -/
inductive FrameStep where
  | emit (text : String) (level : Int)
  | label (text : String) (level : Int)
  | comment (text : String) (level : Int)
  | push (register : String) (level : Int)
  | pop (register : String) (level : Int)
  | offsetOf (slot : Int)
  | nextLoop
  | nextPrint
  deriving DecidableEq, Repr

/-- What a step answers. -/
inductive FrameAnswer where
  | nothing
  | number (n : Int)
  | label (text : String)
  | labels (first second : String)
  deriving DecidableEq, Repr

/-- One step.  A step that fails leaves the frame as it was. -/
def Frame.step (f : Frame) : FrameStep → Except Fault (FrameAnswer × Frame)
  | .emit text level => .ok (.nothing, f.emit level.toNat (.verbatim text))
  | .label text level => .ok (.nothing, f.emit level.toNat (.label (.named text)))
  | .comment text level => .ok (.nothing, f.emit level.toNat (.comment text))
  | .push register level => .ok (.number f.depth, f.push level.toNat (.ofText register))
  | .pop register level => do return (.nothing, ← f.pop level.toNat (.ofText register))
  | .offsetOf slot => .ok (.number (f.offsetOf slot), f)
  | .nextLoop =>
      let (n, g) := f.nextLoop
      .ok (.labels (Label.loop n).text (Label.loopEnd n).text, g)
  | .nextPrint =>
      let (n, g) := f.nextPrint
      .ok (.label (printGroup n), g)

/-- The level of the line that a step writes. -/
def FrameStep.level? : FrameStep → Option Int
  | .emit _ level | .label _ level | .comment _ level | .push _ level | .pop _ level => some level
  | .offsetOf _ | .nextLoop | .nextPrint => none

/-- One step, unless the line that it writes cannot be indented by its level. -/
def Frame.stepWithin (memory : Text.Memory) (f : Frame) (s : FrameStep) :
    Except Fault (FrameAnswer × Frame) := do
  let done ← f.step s
  match s.level?.bind (Fault.ofRepetition? memory indentWidth) with
  | some fault => .error fault
  | none => return done

/-- All steps in order, each with its outcome and the frame after it. -/
def Frame.steps (memory : Text.Memory) (f : Frame) :
    List FrameStep → List (Except Fault FrameAnswer × Frame)
  | [] => []
  | s :: rest =>
      match f.stepWithin memory s with
      | .ok (answer, g) => (.ok answer, g) :: g.steps memory rest
      | .error fault => (.error fault, f) :: f.steps memory rest

end ZebLang
