/-
  Tokens to programs, by recursive descent over

      program    = { [ statement ] newline } [ statement ] end
      statement  = "exit" sum | name "=" sum | "for" name "in" sum | "endfor"
      sum        = product { ( "+" | "-" ) product }
      product    = unary { ( "*" | "/" | "%" ) unary }
      unary      = "-" unary | primary
      primary    = number | name "(" sum ")" | name | "(" sum ")"

  Chains of operators associate to the left.  A minus directly before a number makes a negative literal,
  placed at the minus; any other minus subtracts its operand from zero.  A literal has to fit a signed
  64-bit register.

  A token list need not end with the end-of-file token: past its end the last token is seen again, and
  taking it there is a fault.  Every reader says in its result that it took a token (`Taken`), which is
  why the descent ends.
-/

import ZebLang.Datum.Number
import ZebLang.Program
import ZebLang.Token.Lexer

namespace ZebLang

/-! ## Taking tokens -/

/-- Something read, and the tokens left after it: fewer than `bound`. -/
structure Taken (α : Type) (bound : Nat) where
  value : α
  rest : List Token
  lt : rest.length < bound

namespace Parser

/-- The next token; past the end, the last one again. -/
def peek (last : Token) (tokens : List Token) : Token := tokens.headD last

/-- The kind of the next token. -/
def peekKind (last : Token) (tokens : List Token) : TokenKind := (peek last tokens).kind

/-- The next token, taken. -/
def take : (tokens : List Token) → Except Fault (Taken Token tokens.length)
  | [] => .error .outOfTokens
  | t :: rest => .ok ⟨t, rest, Nat.lt_succ_self _⟩

/-- How a message names a token: by its value, with line feeds spelled out. -/
def describe (t : Token) : Except Fault String :=
  if t.kind = .endOfFile then .ok "end of file"
  else do
    let text ← t.value.plain
    return String.join (text.toList.map fun c =>
      if c = '\n' then "newline" else String.singleton c)

/-- The fault that a token does not fit, where something else was expected. -/
def unexpected (t : Token) (expected : String) : Fault :=
  match describe t with
  | .ok found => .report (.unexpectedToken found (some expected)) (some (.known t.location))
  | .error fault => fault

/-- The next token, which must be of the given kind. -/
def expect (last : Token) (kind : TokenKind) (wanted : String) (tokens : List Token) :
    Except Fault (Taken Token tokens.length) :=
  if peekKind last tokens = kind then take tokens
  else .error (.report (.missingToken wanted) (some (.known (peek last tokens).location)))

/-! ## Literals -/

/-- A literal, placed at a token.  Its value must be a number, and one that fits a register. -/
def literal (value : Datum) (place : Token) : Except Fault Expr :=
  match value.between? Cause.literalMin Cause.literalMax with
  | none => .error (.notComparable value.typeName)
  | some true => .ok (.literal value place.location)
  | some false => do
      let shown ← value.plain
      .error (.report (.literalRange shown) (some (.known place.location)))

/-- The literal of a number token after the token `minus`. -/
def negativeLiteral (minus t : Token) : Except Fault Expr :=
  match t.value.negated? with
  | none => .error (.notNegatable t.value.typeName)
  | some value => literal value minus

/-! ## Expressions -/

/-- How far the operands of a chain are from primary expressions, in calls on the same tokens. -/
def rank : Chain → Nat
  | .product => 2
  | .sum => 4

mutual

/-- A chain: operands joined by its operators. -/
def chain (c : Chain) (last : Token) (tokens : List Token) :
    Except Fault (Taken Expr tokens.length) := do
  let left ← operand c last tokens
  have := left.lt
  let all ← chainTail c last left.value left.rest
  return ⟨all.value, all.rest, by have := all.lt; omega⟩
termination_by (tokens.length, rank c + 1)

/-- What a chain goes on with after `left`. -/
def chainTail (c : Chain) (last : Token) (left : Expr) (tokens : List Token) :
    Except Fault (Taken Expr (tokens.length + 1)) :=
  if c.joins (peekKind last tokens) then do
    let operator ← take tokens
    have := operator.lt
    let right ← operand c last operator.rest
    have := right.lt
    let all ← chainTail c last
      (.binary left operator.value.value right.value operator.value.location) right.rest
    return ⟨all.value, all.rest, by have := all.lt; omega⟩
  else return ⟨left, tokens, Nat.lt_succ_self _⟩
termination_by (tokens.length, 0)

/-- An operand of a chain: the next tighter expression. -/
def operand (c : Chain) (last : Token) (tokens : List Token) :
    Except Fault (Taken Expr tokens.length) :=
  match c with
  | .product => unary last tokens
  | .sum => chain .product last tokens
termination_by (tokens.length, rank c)
decreasing_by
  · exact Prod.Lex.right _ (by decide : 1 < rank .product)
  · exact Prod.Lex.right _ (by decide : rank .product + 1 < rank .sum)

/-- A primary expression, or a minus and what it negates. -/
def unary (last : Token) (tokens : List Token) : Except Fault (Taken Expr tokens.length) :=
  if peekKind last tokens = .minus then do
    let minus ← take tokens
    have := minus.lt
    if peekKind last minus.rest = .number then
      let number ← take minus.rest
      let value ← negativeLiteral minus.value number.value
      return ⟨value, number.rest, by have := number.lt; omega⟩
    else
      let operand ← unary last minus.rest
      let place := minus.value.location
      return ⟨.binary (.literal (.int 0) place) (.text "-") operand.value place, operand.rest,
        by have := operand.lt; omega⟩
  else primary last tokens
termination_by (tokens.length, 1)

/-- A number, a call, a name, or a sum in parentheses. -/
def primary (last : Token) (tokens : List Token) : Except Fault (Taken Expr tokens.length) :=
  match peekKind last tokens with
  | .number => do
      let number ← take tokens
      let value ← literal number.value.value number.value
      return ⟨value, number.rest, number.lt⟩
  | .identifier => do
      let name ← take tokens
      have := name.lt
      if peekKind last name.rest = .leftParen then
        let opening ← take name.rest
        have := opening.lt
        let argument ← chain .sum last opening.rest
        let closing ← expect last .rightParen ")" argument.rest
        return ⟨.call name.value.value argument.value name.value.location, closing.rest,
          by have := closing.lt; have := argument.lt; omega⟩
      else
        return ⟨.reference name.value.value name.value.location, name.rest, name.lt⟩
  | .leftParen => do
      let opening ← take tokens
      have := opening.lt
      let inner ← chain .sum last opening.rest
      let closing ← expect last .rightParen ")" inner.rest
      return ⟨inner.value, closing.rest, by have := closing.lt; have := inner.lt; omega⟩
  | _ => .error (unexpected (peek last tokens) "an expression")
termination_by (tokens.length, 0)

end

/-! ## Statements -/

/-- One statement, without what ends it. -/
def statement (last : Token) (tokens : List Token) : Except Fault (Taken Stmt tokens.length) :=
  let first := peek last tokens
  let place := first.location
  match first.kind with
  | .exitWord => do
      let word ← take tokens
      let value ← chain .sum last word.rest
      return ⟨.exit value.value place, value.rest, by have := word.lt; have := value.lt; omega⟩
  | .endforWord => do
      let word ← take tokens
      return ⟨.endLoop place, word.rest, word.lt⟩
  | .forWord => do
      let word ← take tokens
      let name ← expect last .identifier "loop variable name" word.rest
      let joint ← expect last .inWord "in" name.rest
      let range ← chain .sum last joint.rest
      return ⟨.loop name.value.value range.value place, range.rest,
        by have := word.lt; have := name.lt; have := joint.lt; have := range.lt; omega⟩
  | .identifier =>
      if peekKind last (tokens.drop 1) = .assign then do
        let name ← take tokens
        let sign ← take name.rest
        let value ← chain .sum last sign.rest
        return ⟨.assign name.value.value value.value place, value.rest,
          by have := name.lt; have := sign.lt; have := value.lt; omega⟩
      else .error (unexpected first "'exit', 'for', 'endfor' or an assignment")
  | _ => .error (unexpected first "'exit', 'for', 'endfor' or an assignment")

/-- All statements up to the end of the file. -/
def statements (last : Token) (tokens : List Token) : Except Fault (List Stmt) :=
  match peekKind last tokens with
  | .endOfFile => return []
  | .newline => do
      let separator ← take tokens
      have := separator.lt
      statements last separator.rest
  | _ => do
      let first ← statement last tokens
      have := first.lt
      match peekKind last first.rest with
      | .endOfFile => return [first.value]
      | .newline =>
          let separator ← take first.rest
          have := separator.lt
          return first.value :: (← statements last separator.rest)
      | _ => .error (unexpected (peek last first.rest) "end of statement")
termination_by tokens.length

end Parser

/-- The statements that a token list spells. -/
def parseTokens (tokens : List Token) : Except Fault (List Stmt) :=
  match tokens.getLast? with
  | none => .error .outOfTokens
  | some last => Parser.statements last tokens

/-- The program that a token list spells.  A diagnostic quotes the line of `lines` at its place. -/
def Program.ofTokens (tokens : List Token) (file : String) (lines : List String) :
    Except Fault Program :=
  match parseTokens tokens with
  | .ok statements => .ok ⟨statements, ⟨file, 1, 1⟩⟩
  | .error fault => .error (fault.quoting lines)

/-- The program that tokens built by hand spell.  Their places may be such as cannot be shown. -/
def Program.ofGivenTokens (memory : Text.Memory) (tokens : List Token) (file : String)
    (lines : List String) : Except Fault Program :=
  (Program.ofTokens tokens file lines).mapError (Fault.drawn memory)

/-- The program that a source text spells. -/
def Program.ofSource (source file : String) : Except Fault Program := do
  let tokens ← (lex source file).all
  Program.ofTokens tokens file (Text.lines source)

end ZebLang
