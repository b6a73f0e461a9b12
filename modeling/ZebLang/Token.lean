/-
  Tokens: the words of a source text, each with its kind, its value and its place.

  The value of a word or a sign is its spelling, that of a number is the number, and the end of the
  text has none.  A token built by hand may carry any datum.
-/

import ZebLang.Datum.Printer

namespace ZebLang

/-- The kinds of token. -/
inductive TokenKind where
  | endOfFile
  /-- A line feed or a semicolon: both end a statement. -/
  | newline
  | identifier
  | number
  | exitWord
  | forWord
  | inWord
  | endforWord
  | plus
  | minus
  | star
  | slash
  | percent
  | assign
  | leftParen
  | rightParen
  deriving DecidableEq, Repr

namespace TokenKind

/-- The name under which tokens of a kind are listed. -/
def name : TokenKind → String
  | endOfFile => "EOF"
  | newline => "NEWLINE"
  | identifier => "IDENTIFIER"
  | number => "NUMBER"
  | exitWord => "EXIT"
  | forWord => "FOR"
  | inWord => "IN"
  | endforWord => "ENDFOR"
  | plus => "PLUS"
  | minus => "MINUS"
  | star => "STAR"
  | slash => "SLASH"
  | percent => "PERCENT"
  | assign => "ASSIGN"
  | leftParen => "LPAREN"
  | rightParen => "RPAREN"

/-- All kinds of token. -/
def all : List TokenKind :=
  [endOfFile, newline, identifier, number, exitWord, forWord, inWord, endforWord, plus, minus, star,
    slash, percent, assign, leftParen, rightParen]

/-- The kind with this name. -/
def ofName? (text : String) : Option TokenKind := all.find? (·.name == text)

/-- The kind of a whole word: one of the four keywords, or an identifier. -/
def ofWord (word : String) : TokenKind :=
  if word = "exit" then exitWord
  else if word = "for" then forWord
  else if word = "in" then inWord
  else if word = "endfor" then endforWord
  else identifier

/-- The kind of a sign that stands for itself. -/
def ofSign? (c : Char) : Option TokenKind :=
  match c with
  | '+' => some plus
  | '-' => some minus
  | '*' => some star
  | '/' => some slash
  | '%' => some percent
  | '=' => some assign
  | '(' => some leftParen
  | ')' => some rightParen
  | _ => none

/-- Operators of the lower precedence. -/
def isAdditive : TokenKind → Bool
  | plus | minus => true
  | _ => false

/-- Operators of the higher precedence. -/
def isMultiplicative : TokenKind → Bool
  | star | slash | percent => true
  | _ => false

end TokenKind

/-- The chains of operators.  Those of a product bind tighter than those of a sum. -/
inductive Chain where
  | product
  | sum
  deriving DecidableEq, Repr

/-- Whether tokens of a kind join the operands of a chain. -/
def Chain.joins : Chain → TokenKind → Bool
  | product => TokenKind.isMultiplicative
  | sum => TokenKind.isAdditive

/-- A token. -/
structure Token where
  kind : TokenKind
  value : Datum
  line : Int
  column : Int
  file : String
  deriving Repr

namespace Token

/-- The place of a token. -/
def location (t : Token) : Location := ⟨t.file, t.line, t.column⟩

/-- A token as it is listed: kind, value if any, and place in its file. -/
def text (t : Token) : Except Fault String := do
  let place := Text.decimal t.line ++ ":" ++ Text.decimal t.column ++ ")"
  match t.value with
  | .none => return "Token(" ++ t.kind.name ++ ", " ++ place
  | value => return "Token(" ++ t.kind.name ++ ", " ++ (← value.structural) ++ ", " ++ place

end Token

end ZebLang
