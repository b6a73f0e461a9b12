/-
  The lines of a text, counted in two ways.

  Source positions count line feeds only.  A message that quotes a line by its number splits the text
  at every line break: line feed, carriage return (a carriage return before a line feed belongs to the
  same break), vertical tab, form feed, the three information separators, next line, and the two
  Unicode separators.  The two counts agree on text whose only break is the line feed.
-/

namespace ZebLang.Text

/-- The characters that end a line when lines are quoted. -/
def isLineBreak (c : Char) : Bool :=
  c = '\n' || c = '\r' || c = '\x0b' || c = '\x0c' || c = '\x1c' || c = '\x1d' || c = '\x1e' ||
  c = '\u0085' || c = '\u2028' || c = '\u2029'

/-- The loop behind `lines`; `taken` holds the current line in reverse. -/
def linesFrom (taken : List Char) : List Char → List String
  | [] => if taken.isEmpty then [] else [String.ofList taken.reverse]
  | '\r' :: '\n' :: rest => String.ofList taken.reverse :: linesFrom [] rest
  | c :: rest =>
      if isLineBreak c then String.ofList taken.reverse :: linesFrom [] rest
      else linesFrom (c :: taken) rest

/-- The lines of a text, split at every line break.  A break at the end opens no further line. -/
def lines (text : String) : List String := linesFrom [] text.toList

/-- Line `number`, counted from one, if there is such a line. -/
def lineAt? (lines : List String) (number : Int) : Option String :=
  if 0 < number then lines[number.toNat - 1]? else none

/-- The characters up to the next line feed. -/
def untilLineFeed (text : List Char) : String := String.ofList (text.takeWhile (· != '\n'))

/-- Every line break becomes a line feed when the breaks are carriage returns, alone or before a line
    feed; all other characters stay. -/
def unifyBreaks : List Char → List Char
  | [] => []
  | '\r' :: '\n' :: rest => '\n' :: unifyBreaks rest
  | c :: rest => (if c = '\r' then '\n' else c) :: unifyBreaks rest

/-- Lines joined with a line feed between them. -/
def joinLines (lines : List String) : String := "\n".intercalate lines

end ZebLang.Text
