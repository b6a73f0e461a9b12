/-
  Programs as the parser reads them.

  A program is a flat list of statements.  Every statement and expression has a place; the place of an
  operation is that of its operator.

  The grammar fixes the shape of a program.  Names, operators and numbers are what the tokens carry:
  texts and integers when a lexer made the tokens, any data when they were built by hand.  Which of
  them can be lowered is not a question of grammar.

  `toDatum` turns a program into the open form of trees built by hand, which is what is shown, compared
  and lowered.
-/

import ZebLang.Datum

namespace ZebLang

/-- An expression. -/
inductive Expr where
  | literal (value : Datum) (place : Location)
  | reference (name : Datum) (place : Location)
  | binary (left : Expr) (operator : Datum) (right : Expr) (place : Location)
  | call (name : Datum) (argument : Expr) (place : Location)
  deriving Repr, Inhabited

/-- A statement. -/
inductive Stmt where
  | exit (value : Expr) (place : Location)
  | assign (name : Datum) (value : Expr) (place : Location)
  | loop (name : Datum) (range : Expr) (place : Location)
  | endLoop (place : Location)
  deriving Repr, Inhabited

/-- A program. -/
structure Program where
  statements : List Stmt
  place : Location
  deriving Repr, Inhabited

/-- An expression in open form. -/
def Expr.toDatum : Expr → Datum
  | literal value place => .literal (.placed place) value
  | reference name place => .reference (.placed place) name
  | binary left operator right place =>
      .binary (.placed place) left.toDatum operator right.toDatum
  | call name argument place => .call (.placed place) name argument.toDatum

/-- A statement in open form. -/
def Stmt.toDatum : Stmt → Datum
  | exit value place => .exit (.placed place) value.toDatum
  | assign name value place => .assign (.placed place) name value.toDatum
  | loop name range place => .loop (.placed place) name range.toDatum
  | endLoop place => .endLoop (.placed place)

/-- A program in open form. -/
def Program.toDatum (p : Program) : Datum :=
  .program (.placed p.place) (p.statements.map Stmt.toDatum)

end ZebLang
