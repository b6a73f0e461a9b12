/-
  Assembly as data, and its text.

  The instructions are the ones that lowering uses, each with typed operands; a line is an instruction,
  a label or a comment at a level of indentation.  `Line.text` is the only place where assembly becomes
  text, so what is said about lines is said about the text.

  Text that a tool supplies itself goes in as it is (`verbatim`, and the constructors `named`).
-/

import ZebLang.Text.Decimal

namespace ZebLang

/-! ## Operands -/

/-- The registers in use. -/
inductive Register where
  | rax
  | rbx
  | rcx
  | rdx
  | rsi
  | rdi
  | r8
  | rsp
  | named (name : String)
  deriving DecidableEq, Repr

namespace Register

/-- How a register is written. -/
def text : Register → String
  | rax => "rax"
  | rbx => "rbx"
  | rcx => "rcx"
  | rdx => "rdx"
  | rsi => "rsi"
  | rdi => "rdi"
  | r8 => "r8"
  | rsp => "rsp"
  | named name => name

/-- The registers that lowering uses. -/
def known : List Register := [rax, rbx, rcx, rdx, rsi, rdi, r8, rsp]

/-- The register that is written so. -/
def ofText (name : String) : Register := (known.find? (·.text == name)).getD (named name)

theorem text_ofText (name : String) : (ofText name).text = name := by
  unfold ofText
  cases h : known.find? (·.text == name) with
  | none => rfl
  | some r => simpa using List.find?_some h

end Register

/-- What an instruction reads or writes. -/
inductive Operand where
  | reg (r : Register)
  /-- The lowest byte of `rdx`. -/
  | dl
  | imm (value : Int)
  /-- Eight bytes of memory, or one if the other operand is a byte. -/
  | mem (base : Register) (offset : Option Int)
  /-- One byte of memory. -/
  | byteMem (base : Register)
  deriving DecidableEq, Repr

/-- How an operand is written. -/
def Operand.text : Operand → String
  | reg r => r.text
  | dl => "dl"
  | imm value => Text.decimal value
  | mem base none => "[" ++ base.text ++ "]"
  | mem base (some offset) => "[" ++ base.text ++ " + " ++ Text.decimal offset ++ "]"
  | byteMem base => "byte [" ++ base.text ++ "]"

/-! ## Labels -/

/-- Labels.  Each loop and each printing sequence has labels with its own number. -/
inductive Label where
  | loop (n : Nat)
  | loopEnd (n : Nat)
  | printDigits (n : Nat)
  | printNext (n : Nat)
  | printWrite (n : Nat)
  | named (name : String)
  deriving DecidableEq, Repr

/-- What the labels of one printing sequence start with. -/
def printGroup (n : Nat) : String := "print" ++ Text.natural n

/-- How a label is written. -/
def Label.text : Label → String
  | loop n => "loop" ++ Text.natural n
  | loopEnd n => "exit" ++ Text.natural n
  | printDigits n => printGroup n ++ "_digits"
  | printNext n => printGroup n ++ "_next"
  | printWrite n => printGroup n ++ "_write"
  | named name => name

/-! ## Instructions -/

/-- When a jump is taken. -/
inductive Condition where
  | always
  | lessOrEqual
  | notNegative
  | notZero
  deriving DecidableEq, Repr

/-- How a jump on a condition is written. -/
def Condition.text : Condition → String
  | always => "jmp"
  | lessOrEqual => "jle"
  | notNegative => "jns"
  | notZero => "jnz"

/-- Instructions. -/
inductive Instr where
  | mov (target source : Operand)
  | lea (target base : Register) (offset : Int)
  | add (target source : Operand)
  | sub (target source : Operand)
  | xor (target source : Operand)
  | cmp (left right : Register)
  | test (left right : Register)
  | inc (r : Register)
  | dec (r : Register)
  | neg (r : Register)
  | imul (r : Register)
  | div (r : Register)
  | push (r : Register)
  | pop (r : Register)
  | jump (condition : Condition) (target : Label)
  | syscall
  deriving DecidableEq, Repr

/-- A mnemonic with two operands. -/
def twoOperands (mnemonic left right : String) : String := mnemonic ++ " " ++ left ++ ", " ++ right

/-- How an instruction is written. -/
def Instr.text : Instr → String
  | mov target source => twoOperands "mov" target.text source.text
  | lea target base offset => twoOperands "lea" target.text (Operand.mem base (some offset)).text
  | add target source => twoOperands "add" target.text source.text
  | sub target source => twoOperands "sub" target.text source.text
  | xor target source => twoOperands "xor" target.text source.text
  | cmp left right => twoOperands "cmp" left.text right.text
  | test left right => twoOperands "test" left.text right.text
  | inc r => "inc " ++ r.text
  | dec r => "dec " ++ r.text
  | neg r => "neg " ++ r.text
  | imul r => "imul " ++ r.text
  | div r => "div " ++ r.text
  | push r => "push " ++ r.text
  | pop r => "pop " ++ r.text
  | jump condition target => condition.text ++ " " ++ target.text
  | syscall => "syscall"

/-! ## Lines -/

/-- What stands on a line. -/
inductive Item where
  | instr (i : Instr)
  | label (l : Label)
  | comment (text : String)
  | verbatim (text : String)
  deriving DecidableEq, Repr

/-- How an item is written, without indentation. -/
def Item.text : Item → String
  | instr i => i.text
  | label l => l.text ++ ":"
  | comment text => "; " ++ text
  | verbatim text => text

/-- The width of one level of indentation. -/
def indentWidth : Nat := 4

/-- An item at a level of indentation. -/
structure Line where
  level : Nat
  item : Item
  deriving DecidableEq, Repr

/-- Four spaces for each level, the item, and the end of the line. -/
def Line.text (l : Line) : String :=
  String.ofList (List.replicate (indentWidth * l.level) ' ') ++ l.item.text ++ "\n"

/-- What every assembly text starts with. -/
def prologue : String := "global _start\n_start:\n"

end ZebLang
