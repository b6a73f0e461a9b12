/-
  Places in a source text.

  Lines and columns count from one, and a column counts characters.  Both are integers, because a tool
  that builds tokens or trees by hand may place them anywhere.  Such a tool may even give something
  else for a place (`Origin.stray`), which shows only when the place is written or looked up.
-/

import ZebLang.Text.Decimal

namespace ZebLang

/-- A place in a named source text. -/
structure Location where
  file : String
  line : Int
  column : Int
  deriving DecidableEq, Repr, Inhabited

namespace Location

/-- A place is written `file:line:column`. -/
def text (l : Location) : String := l.file ++ ":" ++ Text.decimal l.line ++ ":" ++ Text.decimal l.column

/-- Whether a place can be written: neither of its numbers has too many digits.  A place in a text always
    can be; one that was given by hand need not. -/
def isWritable (l : Location) : Bool :=
  Text.digitCount l.line ≤ Text.digitLimit && Text.digitCount l.column ≤ Text.digitLimit

end Location

/-- What something says that is asked for its line. -/
inductive LineAnswer where
  | number
  /-- It has no line, being of another type. -/
  | missing (typeName : String)
  /-- It has a line, but of a type that cannot be compared with a number. -/
  | unordered (typeName : String)
  deriving DecidableEq, Repr

/-- What is given for a place. -/
inductive Origin where
  | known (location : Location)
  /-- Something else: its text, if it can be written, whether it counts as no place, and its answer when
      it is asked for its line. -/
  | stray (shown : Option String) (isVacant : Bool) (line : LineAnswer)
  deriving DecidableEq, Repr

namespace Origin

/-- The text of a place; without one, nothing. -/
def text : Origin → String
  | .known l => l.text
  | stray shown _ _ => shown.getD ""

/-- Whether a place can be written. -/
def isWritable : Origin → Bool
  | .known l => l.isWritable
  | stray shown _ _ => shown.isSome

/-- Whether what is given counts as no place. -/
def isVacant : Origin → Bool
  | .known _ => false
  | stray _ isVacant _ => isVacant

/-- Whether a message can be written that names what is given: it counts as no place, or can be written. -/
def isPrintable (place : Origin) : Bool := place.isVacant || place.isWritable

/-- The first of two places, unless it counts as none. -/
def orElse (first second : Option Origin) : Option Origin := (first.filter fun p => !p.isVacant).or second

end Origin

end ZebLang
