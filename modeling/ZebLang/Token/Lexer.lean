/-
  Source text to tokens.

  Between tokens stand gaps: spaces, tabs, carriage returns, and comments from `#` up to the end of the
  line.  A token is the longest word, number or sign at the place where a gap ends.  Words and numbers
  are made of ASCII letters, digits and underscores only, and a number that runs into a letter is an
  error, so each maximal run of such characters is one token or none.

  `lex` gives the tokens up to the first place where none starts, and what is wrong there.  It ends
  because every token takes at least one character (`Lexeme.length_pos`).
-/

import ZebLang.Token

namespace ZebLang

/-! ## Character classes -/

/-- Characters that stand between tokens on a line. -/
def isGapChar (c : Char) : Bool := c = ' ' || c = '\t' || c = '\r'

/-- Characters that a word may start with. -/
def isWordStart (c : Char) : Bool := c.isAlpha || c = '_'

/-- Characters that a word may go on with. -/
def isWordChar (c : Char) : Bool := c.isAlphanum || c = '_'

/-- The bases in which a number may be written. -/
inductive Base where
  | binary
  | decimal
  | hexadecimal
  deriving DecidableEq, Repr

namespace Base

/-- How many digits a base has. -/
def size : Base → Nat
  | binary => 2
  | decimal => 10
  | hexadecimal => 16

/-- The digits of a base, in either case. -/
def isDigit : Base → Char → Bool
  | binary, c => c = '0' || c = '1'
  | decimal, c => c.isDigit
  | hexadecimal, c => c.isDigit || ('a' ≤ c && c ≤ 'f') || ('A' ≤ c && c ≤ 'F')

/-- The base of the number at the start of a text, and the text after the mark of its base. -/
def split : List Char → Base × List Char
  | '0' :: 'x' :: rest | '0' :: 'X' :: rest => (hexadecimal, rest)
  | '0' :: 'b' :: rest | '0' :: 'B' :: rest => (binary, rest)
  | text => (decimal, text)

/-- How many characters mark a base. -/
def markLength : Base → Nat
  | decimal => 0
  | _ => 2

end Base

/-! ## One token -/

/-- What stands at the start of a text: the kind and value of a token and how many characters it
    takes. -/
structure Lexeme where
  kind : TokenKind
  value : Datum
  length : Nat
  length_pos : 0 < length

/-- The number at the start of a text, which starts with a digit. -/
def scanNumber (text : List Char) : Except Fault Lexeme :=
  let (base, body) := Base.split text
  let digits := body.takeWhile base.isDigit
  let next := (body.dropWhile base.isDigit).head?
  match next.filter isWordChar with
  | some c => .error (.report (.invalidDigit c) none)
  | none =>
      if h : digits.length = 0 then .error (.report .missingDigits none)
      else if base = .decimal ∧ Text.digitLimit < digits.length then
        .error (.unreadable digits.length)
      else
        .ok ⟨.number, .int (Text.ofDigits base.size digits), base.markLength + digits.length,
          by omega⟩

/-- The word that starts with `first`. -/
def scanWord (first : Char) (rest : List Char) : Lexeme :=
  let word := String.ofList (first :: rest.takeWhile isWordChar)
  ⟨.ofWord word, .text word, 1 + (rest.takeWhile isWordChar).length, by omega⟩

/-- The token at the start of the text `first :: rest`. -/
def scan (first : Char) (rest : List Char) : Except Fault Lexeme :=
  let spelled := Datum.text (String.singleton first)
  if first = '\n' ∨ first = ';' then .ok ⟨.newline, spelled, 1, by omega⟩
  else if first.isDigit then scanNumber (first :: rest)
  else if isWordStart first then .ok (scanWord first rest)
  else
    match TokenKind.ofSign? first with
    | some kind => .ok ⟨kind, spelled, 1, by omega⟩
    | none => .error (.report (.invalidCharacter first) none)

/-! ## Places -/

/-- Where reading stands: the text that is left, the text from the start of the current line on, and
    the numbers of line and column. -/
structure Cursor where
  rest : List Char
  row : List Char
  line : Nat
  column : Nat

namespace Cursor

/-- The start of a text. -/
def start (text : List Char) : Cursor := ⟨text, text, 1, 1⟩

/-- One character further.  Only a line feed starts a new line. -/
def advance (c : Cursor) : Cursor :=
  match c.rest with
  | [] => c
  | '\n' :: rest => ⟨rest, rest, c.line + 1, 1⟩
  | _ :: rest => ⟨rest, c.row, c.line, c.column + 1⟩

/-- Several characters further. -/
def advanceBy : Nat → Cursor → Cursor
  | 0, c => c
  | n + 1, c => advanceBy n c.advance

/-- How many characters of a gap stand at the start of a text.  After a comment stands a line feed or
    the end, so a gap has at most one comment and that comes last. -/
def gapLength (text : List Char) : Nat :=
  let blanks := text.takeWhile isGapChar
  match text.dropWhile isGapChar with
  | '#' :: rest => blanks.length + 1 + (rest.takeWhile (· != '\n')).length
  | _ => blanks.length

/-- Past the gap. -/
def skipGap (c : Cursor) : Cursor := c.advanceBy (gapLength c.rest)

/-- The place of a cursor in a file. -/
def location (c : Cursor) (file : String) : Location := ⟨file, c.line, c.column⟩

/-- A diagnostic gets the place of the cursor and quotes its line; other faults stay as they are. -/
def placing (c : Cursor) (file : String) : Fault → Fault
  | .diagnostic d =>
      .diagnostic
        { d with location := some (.known (c.location file)), sourceLine := some (Text.untilLineFeed c.row) }
  | fault => fault

theorem rest_advance (c : Cursor) : c.advance.rest = c.rest.drop 1 := by
  unfold advance
  split <;> simp_all

theorem rest_advanceBy (n : Nat) (c : Cursor) : (c.advanceBy n).rest = c.rest.drop n := by
  induction n generalizing c with
  | zero => simp [advanceBy]
  | succ n ih => rw [advanceBy, ih, rest_advance, List.drop_drop, Nat.add_comm]

/-- A gap takes nothing away but itself. -/
theorem rest_skipGap (c : Cursor) : c.skipGap.rest = c.rest.drop (gapLength c.rest) :=
  rest_advanceBy _ c

/-- Past a gap and at least one character more, less is left to read. -/
theorem length_rest_lt {c : Cursor} {first : Char} {rest : List Char} {n : Nat}
    (h : c.skipGap.rest = first :: rest) (hn : 0 < n) :
    (c.skipGap.advanceBy n).rest.length < c.rest.length := by
  have hgap : c.skipGap.rest.length ≤ c.rest.length := by
    rw [rest_skipGap, List.length_drop]; omega
  have hsome : c.skipGap.rest.length = rest.length + 1 := by rw [h]; rfl
  rw [rest_advanceBy, List.length_drop]
  omega

end Cursor

/-! ## All tokens -/

/-- The tokens read from a text, and the fault that ended the reading early. -/
structure Lexed where
  tokens : List Token
  fault : Option Fault

/-- The tokens from a cursor on. -/
def lexFrom (file : String) (start : Cursor) : Lexed :=
  match h : start.skipGap.rest with
  | [] =>
      let c := start.skipGap
      ⟨[⟨.endOfFile, .none, c.line, c.column, file⟩], none⟩
  | first :: rest =>
      let c := start.skipGap
      match scan first rest with
      | .error fault => ⟨[], some (c.placing file fault)⟩
      | .ok lexeme =>
          have := Cursor.length_rest_lt h lexeme.length_pos
          let others := lexFrom file (start.skipGap.advanceBy lexeme.length)
          ⟨⟨lexeme.kind, lexeme.value, c.line, c.column, file⟩ :: others.tokens, others.fault⟩
termination_by start.rest.length
decreasing_by assumption

/-- The tokens of a source text.  Without a fault, the last one and no other marks the end. -/
def lex (source file : String) : Lexed := lexFrom file (.start source.toList)

/-- The tokens of a source text, all or nothing. -/
def Lexed.all (l : Lexed) : Except Fault (List Token) :=
  match l.fault with
  | some fault => .error fault
  | none => .ok l.tokens

/-- Tokens beside their listed form, up to the first that cannot be written. -/
def listTokens : List Token → Option Fault → List (Token × String) × Option Fault
  | [], fault => ([], fault)
  | t :: rest, fault =>
      match t.text with
      | .error tooLong => ([], some tooLong)
      | .ok text =>
          let (others, last) := listTokens rest fault
          ((t, text) :: others, last)

/-- The listing of the tokens read: token and text, and the fault that ended it. -/
def Lexed.listing (l : Lexed) : List (Token × String) × Option Fault := listTokens l.tokens l.fault

end ZebLang
