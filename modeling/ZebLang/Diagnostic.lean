/-
  What is wrong with a program, and how it is said.

  A diagnostic is a cause, the place of the cause if it has one, and the source line that is quoted for
  it.  Its message is

      file:line:column: error: what is wrong
          the quoted line
          ^
      hint: what to do about it

  where the caret stands under the column.  Without a place there is nothing before `error:` and no
  quotation; without a quoted line, or with a column that is not positive, there is no caret.  A line is
  quoted only for a place in a text.
-/

import ZebLang.Location
import ZebLang.Text.Lines
import ZebLang.Text.Similar

namespace ZebLang

/-- The categories under which a failed compilation is reported. -/
inductive Category where
  | grammar
  | undeclaredVariable
  | undeclaredFunction
  | unsupportedOperator
  | notImplemented
  | malformedProgram
  deriving DecidableEq, Repr

/-- The word for a category. -/
def Category.text : Category → String
  | .grammar => "syntax"
  | .undeclaredVariable => "undeclared-variable"
  | .undeclaredFunction => "undeclared-function"
  | .unsupportedOperator => "unsupported-operator"
  | .notImplemented => "not-implemented"
  | .malformedProgram => "malformed-program"

/-- Why a program is rejected.  The first three carry a message that another tool worded. -/
inductive Cause where
  | worded (message : String) (hint : Option String)
  | wordedGrammar (message : String) (hint : Option String)
  | wordedLowering (message : String) (hint : Option String)
  | invalidCharacter (char : Char)
  | invalidDigit (char : Char)
  | missingDigits
  | literalRange (literal : String)
  | unexpectedToken (found : String) (expected : Option String)
  | missingToken (expected : String)
  | undeclaredVariable (name : String) (similar : List String)
  | undeclaredFunction (name : String)
  | unsupportedOperator (operator : String)
  | notImplemented (feature : String) (alternative : Option String)
  | malformed (typeName : String) (detail : Option String)
  deriving DecidableEq, Repr

namespace Cause

/-- The least literal that fits a register. -/
def literalMin : Int := -9223372036854775808

/-- The greatest literal that fits a register. -/
def literalMax : Int := 9223372036854775807

/-- Names in ascending order. -/
def ascending (names : List String) : List String := names.mergeSort fun a b => decide (a ≤ b)

/-- A name that is not bound, with the bound names that look like it.  The order in which names were
    bound plays no part. -/
def undeclared (name : String) (known : List String) : Cause :=
  .undeclaredVariable name (Text.closeMatches name (ascending known))

/-- What is wrong, in one line. -/
def text : Cause → String
  | worded message _ | wordedGrammar message _ | wordedLowering message _ => message
  | invalidCharacter c =>
      "invalid character '" ++ String.singleton c ++ "' (0x" ++ Text.hexUpper 2 c.toNat ++ ")"
  | invalidDigit c => "invalid digit '" ++ String.singleton c ++ "' in number"
  | missingDigits => "number prefix without digits"
  | literalRange literal => "integer literal " ++ literal ++ " does not fit in 64 bits"
  | unexpectedToken found _ => "unexpected token '" ++ found ++ "'"
  | missingToken expected => "expected '" ++ expected ++ "'"
  | undeclaredVariable name _ => "undeclared variable '" ++ name ++ "'"
  | undeclaredFunction name => "undeclared function '" ++ name ++ "'"
  | unsupportedOperator operator => "unsupported operator '" ++ operator ++ "'"
  | notImplemented feature _ => "not implemented: " ++ feature
  | malformed typeName none => "unrecognized program node " ++ typeName
  | malformed typeName (some detail) => "malformed " ++ typeName ++ " node: " ++ detail

/-- What to do about it, if there is something to say. -/
def hint : Cause → Option String
  | worded _ hint | wordedGrammar _ hint | wordedLowering _ hint => hint
  | missingDigits => some "write e.g. 0x1F or 0b101"
  | literalRange _ =>
      some ("literals must lie between " ++ Text.decimal literalMin ++ " and " ++
        Text.decimal literalMax)
  | unexpectedToken _ (some expected) =>
      if expected.isEmpty then none else some ("expected " ++ expected)
  | undeclaredVariable _ similar =>
      if similar.isEmpty then none
      else some ("did you mean " ++ ", ".intercalate (similar.map fun s => "'" ++ s ++ "'") ++ "?")
  | undeclaredFunction _ => some "the available built-ins are print() and range()"
  | unsupportedOperator _ => some "supported operators are '+', '-' and '*'"
  | notImplemented _ alternative => alternative
  | _ => none

/-- The category of a cause; a message that another tool worded may have none. -/
def category : Cause → Option Category
  | worded .. | wordedLowering .. => none
  | wordedGrammar .. | invalidCharacter _ | invalidDigit _ | missingDigits | literalRange _
  | unexpectedToken .. | missingToken _ => some .grammar
  | undeclaredVariable .. => some .undeclaredVariable
  | undeclaredFunction _ => some .undeclaredFunction
  | unsupportedOperator _ => some .unsupportedOperator
  | notImplemented .. => some .notImplemented
  | malformed .. => some .malformedProgram

end Cause

/-- A cause, its place, and the source line that is quoted for it. -/
structure Diagnostic where
  cause : Cause
  location : Option Origin := none
  sourceLine : Option String := none
  deriving DecidableEq, Repr

namespace Diagnostic

/-- How many blanks stand before the caret under `column`. -/
def caretIndent (column : Int) : Int := 4 + column - 1

/-- The quoted line, and the caret under `column` if there is such a column. -/
def quotation (line : String) (column : Int) : List String :=
  ("    " ++ line) ::
    if 0 < column then [String.ofList (List.replicate (caretIndent column).toNat ' ') ++ "^"] else []

/-- The full message: place, cause, quotation and hint. -/
def message (d : Diagnostic) : String :=
  let head :=
    match d.location with
    | some place =>
        if place.isVacant then "error: " ++ d.cause.text else place.text ++ ": error: " ++ d.cause.text
    | none => "error: " ++ d.cause.text
  let quote :=
    match d.sourceLine, d.location with
    | some line, some (.known place) => quotation line place.column
    | _, _ => []
  let hint :=
    match d.cause.hint with
    | some hint => if hint.isEmpty then [] else ["hint: " ++ hint]
    | none => []
  Text.joinLines (head :: quote ++ hint)

/-- The diagnostic with the line at its place quoted, if none is quoted yet and there is such a line. -/
def quoting (lines : List String) (d : Diagnostic) : Diagnostic :=
  match d.sourceLine, d.location with
  | none, some (.known place) => { d with sourceLine := Text.lineAt? lines place.line }
  | _, _ => d

end Diagnostic

end ZebLang
