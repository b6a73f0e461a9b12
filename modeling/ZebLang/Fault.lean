/-
  Everything that can stop the library.

  Most faults are diagnostics: they concern the program that is compiled.  The others concern what
  lies around it: numbers with too many digits, a token list without an end, a node whose title asks
  for fields that it does not have, an instruction that would pop an empty stack, code that leaves the
  stack at a wrong depth, a line that is too wide to write.

  Messages about a type leave its name so many bytes of room, and how many depends on the message.
-/

import ZebLang.Diagnostic
import ZebLang.Text.Room

namespace ZebLang

/-- Why an operation of the library ends without a result. -/
inductive Fault where
  | diagnostic (d : Diagnostic)
  /-- Decimal text with too many digits to read. -/
  | unreadable (digits : Nat)
  /-- An integer with too many digits to write. -/
  | unwritable
  /-- A node was asked for a field that its kind does not have. -/
  | missingField (typeName field : String)
  /-- Something other than a program or a list was given as a list of statements. -/
  | notIterable (typeName : String)
  /-- The token list ended, without an end-of-file token, where a token was to be taken. -/
  | outOfTokens
  /-- A number token carries something that cannot be compared with a number. -/
  | notComparable (typeName : String)
  /-- The line of a place is something that cannot be compared with a number. -/
  | unordered (typeName : String)
  /-- A number token after a minus carries something that has no negative. -/
  | notNegatable (typeName : String)
  /-- A character was given by a text of another length than one. -/
  | notCharacter (length : Nat)
  /-- A character was given by something other than a text. -/
  | notText (typeName : String)
  /-- A name is given item by item, and an item of it cannot be looked up. -/
  | unhashable (typeName : String)
  /-- A count was given by a number that is not an integer. -/
  | notInteger (typeName : String)
  /-- A count does not fit a register. -/
  | uncountable
  /-- A message was given by something other than a text. -/
  | notMessage (typeName : String)
  /-- An error was described without the one part that it must have. -/
  | missingPart (owner part : String)
  /-- An error was described by more parts than the one it must have and the `optional` others. -/
  | extraParts (owner : String) (optional given : Nat)
  /-- A title has a null character in it. -/
  | nullInTitle
  /-- A text was to be repeated more often than a text can have characters. -/
  | unindexable
  /-- A repeated text would have more characters than a text can have. -/
  | overlong
  /-- A repeated text would fit no memory. -/
  | exhausted
  /-- An instruction would pop the empty evaluation stack into `register`. -/
  | underflow (register : String)
  /-- The code of an expression leaves the stack at depth `found`, where it should be `expected`. -/
  | unbalanced (typeName : String) (found expected : Nat)
  deriving DecidableEq, Repr

namespace Fault

/-- What is said about a fault. -/
def message : Fault → String
  | diagnostic d => d.message
  | unreadable digits =>
      "Exceeds the limit (" ++ Text.natural Text.digitLimit ++
        " digits) for integer string conversion: value has " ++ Text.natural digits ++
        " digits; use sys.set_int_max_str_digits() to increase the limit"
  | unwritable =>
      "Exceeds the limit (" ++ Text.natural Text.digitLimit ++
        " digits) for integer string conversion; " ++
        "use sys.set_int_max_str_digits() to increase the limit"
  | missingField typeName field =>
      "'" ++ Text.clip 50 typeName ++ "' object has no attribute '" ++ field ++ "'"
  | notIterable typeName => "'" ++ Text.clip 200 typeName ++ "' object is not iterable"
  | outOfTokens => "list index out of range"
  | notComparable typeName =>
      "'<=' not supported between instances of 'int' and '" ++ Text.clip 100 typeName ++ "'"
  | unordered typeName =>
      "'<' not supported between instances of 'int' and '" ++ Text.clip 100 typeName ++ "'"
  | notNegatable typeName => "bad operand type for unary -: '" ++ Text.clip 200 typeName ++ "'"
  | notCharacter length =>
      "ord() expected a character, but string of length " ++ Text.natural length ++ " found"
  | notText typeName =>
      "ord() expected string of length 1, but " ++ Text.clip 200 typeName ++ " found"
  | unhashable typeName => "unhashable type: '" ++ Text.clip 200 typeName ++ "'"
  | notInteger typeName =>
      "'" ++ Text.clip 200 typeName ++ "' object cannot be interpreted as an integer"
  | uncountable => "cannot fit 'int' into an index-sized integer"
  | notMessage typeName => "__str__ returned non-string (type " ++ Text.clip 200 typeName ++ ")"
  | missingPart owner part =>
      owner ++ ".__init__() missing 1 required positional argument: '" ++ part ++ "'"
  | extraParts owner optional given =>
      let room := if optional = 0 then "2" else "from 2 to " ++ Text.natural (optional + 2)
      owner ++ ".__init__() takes " ++ room ++ " positional arguments but " ++
        Text.natural (given + 1) ++ " were given"
  | nullInTitle => "type name must not contain null characters"
  | unindexable => "cannot fit 'int' into an index-sized integer"
  | overlong => "repeated string is too long"
  | exhausted => ""
  | underflow register => "internal error: evaluation stack underflow popping into " ++ register
  | unbalanced typeName found expected =>
      "internal error: " ++ typeName ++ " left depth " ++ Text.natural found ++ ", expected " ++
        Text.natural expected

/-- A diagnostic at a place. -/
def report (cause : Cause) (place : Option Origin) : Fault := .diagnostic { cause, location := place }

/-- A diagnostic quotes the line at its place; other faults stay as they are. -/
def quoting (lines : List String) : Fault → Fault
  | diagnostic d => .diagnostic (d.quoting lines)
  | fault => fault

/-- Why a text of `width` characters cannot be repeated `count` times. -/
def ofRepetition? (memory : Text.Memory) (width : Nat) (count : Int) : Option Fault :=
  if count < -Text.lengthLimit - 1 ∨ Text.lengthLimit < count then some .unindexable
  else if Text.lengthLimit < (width : Int) * count then some .overlong
  else if memory.holds ((width : Int) * count).toNat then none
  else some .exhausted

/-- Why a place cannot be shown: it cannot be written or, where a line is quoted, the caret under its
    column is too far out. -/
def ofPlace? (memory : Text.Memory) (quoted : Bool) (place : Origin) : Option Fault :=
  if !place.isPrintable then some .unwritable
  else
    match place with
    | .known l =>
        if quoted ∧ 0 < l.column then ofRepetition? memory 1 (Diagnostic.caretIndent l.column) else none
    | .stray .. => none

/-- Why the line of a place cannot be looked up. -/
def ofLine? : Origin → Option Fault
  | .known _ => none
  | .stray _ isVacant answer =>
      if isVacant then none
      else
        match answer with
        | .number => none
        | .missing typeName => some (.missingField typeName "line")
        | .unordered typeName => some (.unordered typeName)

/-- The fault that comes of writing a fault whose place was given by hand: itself, unless its place cannot be
    written. -/
def written : Fault → Fault
  | diagnostic d => if d.location.all Origin.isPrintable then .diagnostic d else .unwritable
  | fault => fault

/-- The fault that comes of showing a fault whose place was given by hand, with the line that it quotes:
    itself, unless its place cannot be shown. -/
def drawn (memory : Text.Memory) : Fault → Fault
  | diagnostic d =>
      (d.location.bind (ofPlace? memory d.sourceLine.isSome)).getD (.diagnostic d)
  | fault => fault

end Fault

/-- The integer that decimal text stands for, or the fault that it has too many digits. -/
def readInt (text : String) : Except Fault Int :=
  let (negative, digits) :=
    match text.toList with
    | '-' :: digits => (true, digits)
    | digits => (false, digits)
  if Text.digitLimit < digits.length then .error (.unreadable digits.length)
  else
    let n : Int := Text.ofDigits 10 digits
    .ok (if negative then -n else n)

/-- The decimal text of an integer, or the fault that it is too long. -/
def writeInt (n : Int) : Except Fault String :=
  match Text.decimal? n with
  | some text => .ok text
  | none => .error .unwritable

end ZebLang
