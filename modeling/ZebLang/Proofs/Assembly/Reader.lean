/-
  Assembly text read back.

  A line of assembly is a label, an instruction or nothing; a comment runs from a semicolon to the end
  of the line, and blanks around a line, a mnemonic or an operand do not count.  `assemble` reads a
  whole text.  It refuses a line that it cannot read, and a text with two labels of one name.

  A label is read under its written name.  Items that lowering emits have their labels numbered, and
  `Item.named` says what becomes of them.
-/

import ZebLang.Assembly
import ZebLang.Text.Blank
import ZebLang.Text.Decimal
import ZebLang.Text.Lines

namespace ZebLang

/-! ## Reading -/

namespace Reader

/-- Decimal digits, at least one. -/
def digits? (text : List Char) : Option Nat :=
  if text ≠ [] ∧ text.all Char.isDigit then some (Text.ofDigits 10 text) else none

/-- An integer in decimal. -/
def number? : List Char → Option Int
  | '-' :: digits => (digits? digits).map fun n : Nat => -(n : Int)
  | digits => (digits? digits).map fun n : Nat => (n : Int)

/-- The register that is written so. -/
def register? (text : String) : Option Register := Register.known.find? (·.text == text)

/-- A base register and an offset, between brackets. -/
def address? (text : List Char) : Option (Register × Option Int) :=
  if text.getLast? = some ']' then
    let inner := text.dropLast
    let base := register? (Text.trim (String.ofList (inner.takeWhile (· != '+'))))
    match inner.dropWhile (· != '+') with
    | [] => base.map fun r => (r, none)
    | _ :: offset => do
        return (← base, some (← number? (Text.trim (String.ofList offset)).toList))
  else none

/-- An operand. -/
def operand? (text : String) : Option Operand :=
  match text.toList with
  | '[' :: inner => (address? inner).map fun (base, offset) => .mem base offset
  | 'b' :: 'y' :: 't' :: 'e' :: ' ' :: '[' :: inner =>
      match address? inner with
      | some (base, none) => some (.byteMem base)
      | _ => none
  | chars =>
      if text = "dl" then some .dl
      else
        match register? text with
        | some r => some (.reg r)
        | none => (number? chars).map .imm

/-- The operands of an instruction, parted by a comma. -/
def operandTexts (text : List Char) : List String :=
  if text = [] then []
  else
    match text.dropWhile (· != ',') with
    | [] => [Text.trim (String.ofList text)]
    | _ :: second =>
        [Text.trim (String.ofList (text.takeWhile (· != ','))), Text.trim (String.ofList second)]

/-- The condition of a jump. -/
def condition? (mnemonic : String) : Option Condition :=
  [Condition.always, .lessOrEqual, .notNegative, .notZero].find? (·.text == mnemonic)

/-- An instruction with two operands. -/
def binary? (mnemonic left right : String) : Option Instr :=
  if mnemonic = "mov" then do return .mov (← operand? left) (← operand? right)
  else if mnemonic = "add" then do return .add (← operand? left) (← operand? right)
  else if mnemonic = "sub" then do return .sub (← operand? left) (← operand? right)
  else if mnemonic = "xor" then do return .xor (← operand? left) (← operand? right)
  else if mnemonic = "cmp" then do return .cmp (← register? left) (← register? right)
  else if mnemonic = "test" then do return .test (← register? left) (← register? right)
  else if mnemonic = "lea" then
    match operand? right with
    | some (.mem base (some offset)) => do return .lea (← register? left) base offset
    | _ => none
  else none

/-- An instruction with one operand. -/
def unary? (mnemonic operand : String) : Option Instr :=
  match condition? mnemonic with
  | some condition => some (.jump condition (.named operand))
  | none =>
      if mnemonic = "inc" then (register? operand).map .inc
      else if mnemonic = "dec" then (register? operand).map .dec
      else if mnemonic = "neg" then (register? operand).map .neg
      else if mnemonic = "imul" then (register? operand).map .imul
      else if mnemonic = "div" then (register? operand).map .div
      else if mnemonic = "push" then (register? operand).map .push
      else if mnemonic = "pop" then (register? operand).map .pop
      else none

/-- An instruction: a mnemonic, and its operands after a blank. -/
def instr? (text : List Char) : Option Instr :=
  let mnemonic := String.ofList (text.takeWhile (· != ' '))
  match operandTexts ((text.dropWhile (· != ' ')).drop 1) with
  | [] => if mnemonic = "syscall" then some .syscall else none
  | [operand] => unary? mnemonic operand
  | [left, right] => binary? mnemonic left right
  | _ => none

/-- What stands on a line, if anything. -/
def line? (line : String) : Option (List Item) :=
  let code := (Text.trim (String.ofList (line.toList.takeWhile (· != ';')))).toList
  if code = [] ∨ "global ".toList.isPrefixOf code then some []
  else if code.getLast? = some ':' then some [.label (.named (String.ofList code.dropLast))]
  else (instr? code).map fun i => [.instr i]

end Reader

/-- The name of a label. -/
def Item.labelName? : Item → Option String
  | .label l => some l.text
  | _ => none

/-- The names of all labels. -/
def labelNames (items : List Item) : List String := items.filterMap Item.labelName?

/-- The lines of an assembly text, if all of them can be read and no two labels have one name. -/
def assemble (text : String) : Option (List Item) := do
  let items := (← (Text.lines text).mapM Reader.line?).flatten
  if (labelNames items).Nodup then return items else none

/-! ## What is emitted

  Known items are those that lowering emits when no comments are wanted: their registers are the eight
  of the machine, and their labels are numbered. -/

/-- One of the eight registers. -/
def Register.IsKnown (r : Register) : Prop := r ∈ Register.known

/-- A numbered label. -/
def Label.IsNumbered : Label → Prop
  | named _ => False
  | _ => True

/-- An operand on known registers. -/
def Operand.IsKnown : Operand → Prop
  | reg r | mem r _ | byteMem r => r.IsKnown
  | dl | imm _ => True

/-- An instruction on known operands. -/
def Instr.IsKnown : Instr → Prop
  | mov a b | add a b | sub a b | xor a b => a.IsKnown ∧ b.IsKnown
  | lea a b _ | cmp a b | test a b => a.IsKnown ∧ b.IsKnown
  | inc r | dec r | neg r | imul r | div r | push r | pop r => r.IsKnown
  | jump _ target => target.IsNumbered
  | syscall => True

/-- A known instruction, or a numbered label. -/
def Item.IsKnown : Item → Prop
  | instr i => i.IsKnown
  | label l => l.IsNumbered
  | comment _ | verbatim _ => False

/-- An instruction with the target of a jump under its written name. -/
def Instr.named : Instr → Instr
  | jump condition target => jump condition (.named target.text)
  | i => i

/-- An item with all labels under their written names. -/
def Item.named : Item → Item
  | instr i => instr i.named
  | label l => label (.named l.text)
  | item => item

end ZebLang
