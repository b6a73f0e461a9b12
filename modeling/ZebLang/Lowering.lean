/-
  Programs to assembly.

  Every expression leaves one value on the stack.  An operation pops its right operand into `rbx` and
  its left one into `rax`, combines them in `rax` and pushes the result.  A name is the slot that its
  value was pushed into; it is bound after its value is lowered, so `x = x + 1` reads the earlier `x`.

  A statement list is lowered once, from top to bottom, and whatever is wrong with it is found on the
  way: the fields of a node are checked before its children, operands before their operator, and the
  argument of a call before the name that is called.  On a fault the frame stays as far as it got.
-/

import ZebLang.Assembly.Frame
import ZebLang.Datum.Printer

namespace ZebLang

/-- A computation that extends a frame and may stop with a fault. -/
abbrev Lowering := EStateM Fault Frame

namespace Lowering

/-! ## Steps on the frame -/

/-- One more instruction. -/
def instr (i : Instr) : Lowering Unit := modify (·.emit 1 (.instr i))

/-- One more label. -/
def label (l : Label) : Lowering Unit := modify (·.emit 1 (.label l))

/-- One more comment. -/
def comment (text : String) : Lowering Unit := modify (·.emit 1 (.comment text))

/-- One more note. -/
def note (n : Note) : Lowering Unit := modify (·.note n)

/-- A `push`. -/
def push (r : Register) : Lowering Unit := modify (·.push 1 r)

/-- A `pop`. -/
def pop (r : Register) : Lowering Unit := do
  match (← get).pop 1 r with
  | .ok f => set f
  | .error fault => throw fault

/-- A pure check inside a lowering. -/
def check {α : Type} : Except Fault α → Lowering α
  | .ok value => pure value
  | .error fault => throw fault

/-! ## Fields -/

/-- The fault that a node is not one that can be lowered, or that `detail` is wrong with it. -/
def malformed (d : Datum) (detail : Option String) : Fault :=
  .report (.malformed d.typeName detail) d.location?

/-- The value of a literal, which must be an integer that fits a register. -/
def literalOf (d value : Datum) : Except Fault Int :=
  match value with
  | .int n =>
      if Cause.literalMin ≤ n ∧ n ≤ Cause.literalMax then .ok n
      else do
        let text ← writeInt n
        .error (malformed d (some ("value " ++ text ++ " does not fit in 64 bits")))
  | other => do
      let text ← other.structural
      .error (malformed d (some ("value " ++ text ++ " is not an integer")))

/-- A name, which must be a text and not empty. -/
def nameOf (d name : Datum) : Except Fault String :=
  let refuse : Except Fault String := do
    let text ← name.structural
    .error (malformed d (some ("name " ++ text ++ " is not an identifier")))
  match name with
  | .text word => if word.isEmpty then refuse else .ok word
  | _ => refuse

/-- An operator, which must be a text. -/
def operatorOf (d operator : Datum) : Except Fault String :=
  match operator with
  | .text word => .ok word
  | other => do
      let text ← other.structural
      .error (malformed d (some ("operator " ++ text ++ " is not a string")))

/-- The name that a statement binds, checked; none if its kind binds none. -/
def boundName? (d : Datum) : Except Fault (Option String) :=
  match d with
  | .assign _ name _ | .loop _ name _ => some <$> nameOf d name
  | _ => .ok none

/-! ## Faults of rules -/

/-- The end of a loop body cannot be lowered. -/
def endLoopFault (d : Datum) : Fault :=
  .report
    (.notImplemented "loop bodies (endfor)"
      (some "a for statement currently only counts; remove the endfor"))
    d.location?

/-- A loop over anything but a range cannot be lowered. -/
def iterableFault (d iterable : Datum) : Fault :=
  .report
    (.notImplemented "for-loop over something other than range(...)"
      (some "write 'for i in range(n)'"))
    (Origin.orElse iterable.location? d.location?)

/-! ## Built-in functions -/

/-- The bytes that hold a number while it is printed: twenty digits, a sign and a line feed fit. -/
def printBuffer : Int := 32

/-- The number of the system call that writes. -/
def writeCall : Int := 1

/-- The number of the system call that ends the program. -/
def exitCall : Int := 60

/-- The file to which numbers are printed. -/
def standardOutput : Int := 1

/-- The code of one printing sequence: the value on top of the stack, in decimal and on a line of its
    own, goes to standard output and stays on the stack.  The digits are made from the last to the
    first in a buffer below the stack, which is given back at the end. -/
def printLines (n : Nat) : List Line :=
  let rax : Operand := .reg .rax
  [⟨1, .instr (.mov rax (.mem .rsp none))⟩,
    ⟨1, .instr (.sub (.reg .rsp) (.imm printBuffer))⟩,
    ⟨1, .instr (.lea .rsi .rsp printBuffer)⟩,
    ⟨1, .instr (.dec .rsi)⟩,
    ⟨1, .instr (.mov (.byteMem .rsi) (.imm 10))⟩,
    ⟨1, .instr (.mov (.reg .r8) rax)⟩,
    ⟨1, .instr (.test .rax .rax)⟩,
    ⟨1, .instr (.jump .notNegative (.printDigits n))⟩,
    ⟨1, .instr (.neg .rax)⟩,
    ⟨1, .label (.printDigits n)⟩,
    ⟨1, .instr (.mov (.reg .rcx) (.imm 10))⟩,
    ⟨1, .label (.printNext n)⟩,
    ⟨2, .instr (.xor (.reg .rdx) (.reg .rdx))⟩,
    ⟨2, .instr (.div .rcx)⟩,
    ⟨2, .instr (.add .dl (.imm 48))⟩,
    ⟨2, .instr (.dec .rsi)⟩,
    ⟨2, .instr (.mov (.mem .rsi none) .dl)⟩,
    ⟨2, .instr (.test .rax .rax)⟩,
    ⟨2, .instr (.jump .notZero (.printNext n))⟩,
    ⟨1, .instr (.test .r8 .r8)⟩,
    ⟨1, .instr (.jump .notNegative (.printWrite n))⟩,
    ⟨1, .instr (.dec .rsi)⟩,
    ⟨1, .instr (.mov (.byteMem .rsi) (.imm 45))⟩,
    ⟨1, .label (.printWrite n)⟩,
    ⟨1, .instr (.mov rax (.imm writeCall))⟩,
    ⟨1, .instr (.mov (.reg .rdi) (.imm standardOutput))⟩,
    ⟨1, .instr (.lea .rdx .rsp printBuffer)⟩,
    ⟨1, .instr (.sub (.reg .rdx) (.reg .rsi))⟩,
    ⟨1, .instr .syscall⟩,
    ⟨1, .instr (.add (.reg .rsp) (.imm printBuffer))⟩]

/-- The loop of a range: the counter `rbx` goes up from zero and is stored in place on top of the
    stack, until the next value would reach the bound in `rax`. -/
def countingLines (n : Nat) : List Line :=
  [⟨1, .label (.loop n)⟩,
    ⟨2, .instr (.mov (.mem .rsp none) (.reg .rbx))⟩,
    ⟨2, .instr (.inc .rbx)⟩,
    ⟨2, .instr (.cmp .rax .rbx)⟩,
    ⟨2, .instr (.jump .lessOrEqual (.loopEnd n))⟩,
    ⟨2, .instr (.jump .always (.loop n))⟩,
    ⟨1, .label (.loopEnd n)⟩]

/-- Lines that neither push nor pop. -/
def block (lines : List Line) : Lowering Unit :=
  modify fun f => { f with lines := f.lines ++ lines }

/-- Printing of the value on top of the stack. -/
def lowerPrint : Lowering Unit := do
  let (n, f) := (← get).nextPrint
  set f
  block (printLines n)

/-- A range whose bound is on top of the stack: the bound gives way to the last value counted. -/
def lowerRange : Lowering Unit := do
  let (n, f) := (← get).nextLoop
  set f
  pop .rax
  instr (.mov (.reg .rbx) (.imm 0))
  push .rbx
  block (countingLines n)

/-! ## Expressions -/

/-- The instruction of an operator that can be lowered. -/
def arithmetic? (operator : String) : Option Instr :=
  if operator = "+" then some (.add (.reg .rax) (.reg .rbx))
  else if operator = "-" then some (.sub (.reg .rax) (.reg .rbx))
  else if operator = "*" then some (.imul .rbx)
  else none

/-- The value of a literal, pushed. -/
def lowerLiteral (value : Int) : Lowering Unit := do
  instr (.mov (.reg .rax) (.imm value))
  push .rax

/-- The value of a bound name, pushed. -/
def lowerReference (name : String) (place : Option Origin) : Lowering Unit := do
  let f ← get
  match f.slot? name with
  | none => throw (.report (Cause.undeclared name f.names) place)
  | some slot =>
      instr (.mov (.reg .rax) (.mem .rsp (some (f.offsetOf slot))))
      push .rax

/-- The two values on top of the stack, combined. -/
def lowerOperator (operator : String) (place : Option Origin) : Lowering Unit := do
  match arithmetic? operator with
  | none => throw (.report (.unsupportedOperator operator) place)
  | some combine =>
      pop .rbx
      pop .rax
      instr combine
      push .rax

/-- A built-in function applied to the value on top of the stack. -/
def lowerCall (name : String) (place : Option Origin) : Lowering Unit :=
  if name = "print" then lowerPrint
  else if name = "range" then lowerRange
  else throw (.report (.undeclaredFunction name) place)

/-- The end of the program, with the value on top of the stack. -/
def lowerExit : Lowering Unit := do
  instr (.mov (.reg .rax) (.imm exitCall))
  pop .rdi
  instr .syscall

/-- Whether a datum is a call of `range`; the name of any call is checked. -/
def isRange (d : Datum) : Except Fault Bool :=
  match d with
  | .call _ name _ => do return (← nameOf d name) = "range"
  | _ => .ok false

/-- The value of an expression with this code, bound to the name of the node `d`. -/
def lowerBinding (d : Datum) (code : Lowering Unit) (name : Option String) : Lowering Unit := do
  let slot := (← get).depth
  code
  let word ← check (d.ask "name" name)
  modify (·.bind word slot)

/-- A value as it is written, pushed. -/
def lowerVerbatim (value : String) : Lowering Unit := do
  modify (·.emit 1 (.verbatim ("mov rax, " ++ value)))
  push .rax

/-- The rule that the title of a node names, if any.  `name` is the name that the node has by its kind,
    checked; `code` is the code of the expressions that the rule may ask for.  A field that the node has
    neither by its kind nor besides ends the rule where it is asked for; those that it has besides are
    not checked. -/
def lowerByTitle (d : Datum) (name : Option String) (code : Additions (Lowering Unit)) :
    Lowering Unit :=
  match d.rule? with
  | some .exit => do
      let expression ← check (d.ask "expression" code.expression)
      expression
      lowerExit
  | some .assign => do
      let expression ← check (d.ask "expression" code.expression)
      lowerBinding d expression (name.or d.added.name)
  | some .loop => do
      let iterable ← check d.askExpression
      if ← check (isRange iterable) then
        let expression ← check (d.ask "expression" code.expression)
        lowerBinding d expression (name.or d.added.name)
      else throw (iterableFault d iterable)
  | some .endLoop => throw (endLoopFault d)
  | some .literal => do
      let value ← check (d.ask "value" d.added.value)
      lowerVerbatim (← check value.plain)
  | some .reference => do
      let word ← check (d.ask "name" (name.or d.added.name))
      lowerReference word d.location?
  | some .binary => do
      let left ← check (d.ask "left" code.left)
      left
      let right ← check (d.ask "right" code.right)
      right
      let operator ← check (d.ask "operator" d.added.operator)
      lowerOperator operator d.location?
  | some .call => do
      let argument ← check (d.ask "argument" code.argument)
      argument
      let word ← check (d.ask "name" (name.or d.added.name))
      lowerCall word d.location?
  | _ => throw (malformed d none)

/-- Whether a node is lowered by the rule of its own kind. -/
def isPlain (d : Datum) : Bool := d.rule? = d.kind?

/-- The code of the expression `d`, which has to leave one more value on the stack than there was. -/
def leavingOne (d : Datum) (code : Lowering Unit) : Lowering Unit := do
  let expected := (← get).depth + 1
  code
  let found := (← get).depth
  if found ≠ expected then throw (.unbalanced d.typeName found expected)

mutual

/-- The code of an expression: its value on top of the stack. -/
def lowerExpression : Datum → Lowering Unit
  | .literal tag value => leavingOne (.literal tag value) do
      let d := Datum.literal tag value
      let n ← check (literalOf d value)
      if isPlain d then lowerLiteral n else lowerByTitle d none (lowerTag tag)
  | .reference tag name => leavingOne (.reference tag name) do
      let d := Datum.reference tag name
      let word ← check (nameOf d name)
      if isPlain d then lowerReference word d.location?
      else lowerByTitle d (some word) (lowerTag tag)
  | .binary tag left operator right => leavingOne (.binary tag left operator right) do
      let d := Datum.binary tag left operator right
      let word ← check (operatorOf d operator)
      if isPlain d then
        lowerExpression left
        lowerExpression right
        lowerOperator word d.location?
      else lowerByTitle d none (lowerTag tag)
  | .call tag name argument => leavingOne (.call tag name argument) do
      let d := Datum.call tag name argument
      let word ← check (nameOf d name)
      if isPlain d then
        lowerExpression argument
        lowerCall word d.location?
      else lowerByTitle d (some word) (lowerTag tag)
  | d => throw (malformed d none)

/-- The code of what a tag has besides the fields of a kind. -/
def lowerTag : Tag Datum → Additions (Lowering Unit)
  | ⟨_, _, added⟩ => lowerAdditions added

/-- The code of each expression that was added. -/
def lowerAdditions : Additions Datum → Additions (Lowering Unit)
  | ⟨expression, left, right, argument, value, name, operator⟩ =>
      ⟨lowerOption expression, lowerOption left, lowerOption right, lowerOption argument,
        lowerOption value, name, operator⟩

/-- The code of an expression, if there is one. -/
def lowerOption : Option Datum → Option (Lowering Unit)
  | none => none
  | some d => some (lowerExpression d)

end

theorem lowerOption_eq (found : Option Datum) : lowerOption found = found.map lowerExpression := by
  cases found with
  | none | some d => rfl

/-- What was added to a node is lowered datum by datum. -/
theorem lowerTag_eq (tag : Tag Datum) : lowerTag tag = tag.added.map lowerExpression := by
  obtain ⟨title, location, added⟩ := tag
  rw [lowerTag]
  obtain ⟨expression, left, right, argument, value, name, operator⟩ := added
  rw [lowerAdditions]
  simp only [lowerOption_eq]
  rfl

/-- Induction on an expression along its operands and what was added to its nodes. -/
theorem expression_induction {motive : Datum → Prop}
    (literal : ∀ tag value, tag.added.All motive → motive (.literal tag value))
    (reference : ∀ tag name, tag.added.All motive → motive (.reference tag name))
    (binary : ∀ tag left operator right, motive left → motive right → tag.added.All motive →
      motive (.binary tag left operator right))
    (call : ∀ tag name argument, motive argument → tag.added.All motive →
      motive (.call tag name argument))
    (other : ∀ d, (∀ tag value, d ≠ .literal tag value) → (∀ tag name, d ≠ .reference tag name) →
      (∀ tag left operator right, d ≠ .binary tag left operator right) →
      (∀ tag name argument, d ≠ .call tag name argument) → motive d) (d : Datum) : motive d :=
  lowerExpression.induct motive (fun tag => tag.added.All motive) (fun added => added.All motive)
    (fun found => ∀ d ∈ found, motive d) literal reference binary call other
    (fun _ _ _ hadded => hadded)
    (fun _ _ _ _ _ _ _ hexpression hleft hright hargument hvalue =>
      ⟨hexpression, hleft, hright, hargument, hvalue⟩)
    (fun _ h => by cases h) (fun _ hd _ h => by cases h; exact hd) d

/-! ## Statements -/

/-- The code of a statement whose bound name, if any, is checked. -/
def lowerStatement (d : Datum) (name : Option String) : Lowering Unit :=
  lowerByTitle d name { d.added.map lowerExpression with expression := d.expression?.map lowerExpression }

section Plain

variable {tag : Tag Datum} {name e : Datum} {word : String}

/-- A plain node goes by the rule of its kind. -/
theorem rule_of_isPlain {d : Datum} (h : isPlain d = true) : d.rule? = d.kind? := of_decide_eq_true h

theorem lowerBinding_some (d : Datum) (code : Lowering Unit) (word : String) :
    lowerBinding d code (some word) =
      (do
        let slot := (← get).depth
        code
        modify (·.bind word slot)) := rfl

/-- A plain `exit`: the code of its expression, and the end of the program. -/
theorem lowerStatement_exit (h : isPlain (.exit tag e) = true) (bound : Option String) :
    lowerStatement (.exit tag e) bound =
      (do
        lowerExpression e
        lowerExit) := by
  unfold lowerStatement lowerByTitle
  rw [rule_of_isPlain h]
  rfl

/-- A plain assignment: the code of its expression, bound to its name. -/
theorem lowerStatement_assign (h : isPlain (.assign tag name e) = true) :
    lowerStatement (.assign tag name e) (some word) =
      lowerBinding (.assign tag name e) (lowerExpression e) (some word) := by
  unfold lowerStatement lowerByTitle
  rw [rule_of_isPlain h]
  rfl

/-- A plain loop: as an assignment, if it goes over a range. -/
theorem lowerStatement_loop (h : isPlain (.loop tag name e) = true) :
    lowerStatement (.loop tag name e) (some word) =
      (do
        if ← check (isRange e) then lowerBinding (.loop tag name e) (lowerExpression e) (some word)
        else throw (iterableFault (.loop tag name e) e)) := by
  unfold lowerStatement lowerByTitle
  rw [rule_of_isPlain h]
  rfl

/-- A plain end of a loop cannot be lowered. -/
theorem lowerStatement_endLoop (h : isPlain (.endLoop tag) = true) (bound : Option String) :
    lowerStatement (.endLoop tag) bound = throw (endLoopFault (.endLoop tag)) := by
  unfold lowerStatement lowerByTitle
  rw [rule_of_isPlain h]
  rfl

/-- A plain node of a family by itself cannot be lowered. -/
theorem lowerStatement_bare {family : Family} (h : isPlain (.bare tag family) = true)
    (bound : Option String) :
    lowerStatement (.bare tag family) bound = throw (malformed (.bare tag family) none) := by
  unfold lowerStatement lowerByTitle
  rw [rule_of_isPlain h]
  cases family with
  | node | statement | expression => rfl

end Plain

/-- One element of a statement list, with a comment in front of its code if wanted. -/
def lowerElement (comments : Bool) (d : Datum) : Lowering Unit := do
  if !d.isStatement then throw (malformed d none)
  let name ← check (boundName? d)
  if comments then comment (← check d.statementText)
  note (.lowering d.typeName (← get).depth)
  lowerStatement d name

/-- A statement list. -/
def lowerAll (comments : Bool) : List Datum → Lowering Unit
  | [] => pure ()
  | d :: rest => do
      lowerElement comments d
      lowerAll comments rest

/-- A statement list, and a note on the whole of it. -/
def lowerProgram (comments : Bool) (statements : List Datum) : Lowering Unit := do
  lowerAll comments statements
  let f ← get
  note (.generated statements.length f.depth f.loops)

end Lowering

/-- The frame after lowering a statement list, and the fault that stopped it. -/
structure Lowered where
  frame : Frame
  fault : Option Fault

/-- A statement list, lowered from an empty frame. -/
def lower (comments : Bool) (statements : List Datum) : Lowered :=
  match (Lowering.lowerProgram comments statements).run {} with
  | .ok _ frame => ⟨frame, none⟩
  | .error fault frame => ⟨frame, some fault⟩

/-- The statements of a program or of a list.  A text is a list of its characters. -/
def Datum.statements : Datum → Except Fault (List Datum)
  | .program _ statements => .ok statements
  | .list items => .ok items
  | .text value => .ok (value.toList.map fun c => .text (String.singleton c))
  | d => .error (.notIterable d.typeName)

/-- A program or a list of statements, lowered from an empty frame. -/
def lowerTree (comments : Bool) (d : Datum) : Lowered :=
  match d.statements with
  | .ok statements => lower comments statements
  | .error fault => ⟨{}, some fault⟩

/-- A program or a list of statements that was built by hand.  A fault whose place cannot be written gives way
    to another (`Fault.written`). -/
def lowerGiven (comments : Bool) (d : Datum) : Lowered :=
  let lowered := lowerTree comments d
  { lowered with fault := lowered.fault.map Fault.written }

/-- The assembly text, if nothing stopped the lowering. -/
def Lowered.text (l : Lowered) : Except Fault String :=
  match l.fault with
  | some fault => .error fault
  | none => .ok l.frame.text

end ZebLang
