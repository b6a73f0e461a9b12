/-
  Trees as text.

  Three forms are written.  `structural` names every field, so that two trees that differ in a field
  are written differently: `Assign(name='x', expression=IntegerLiteral(value=5))`.  `expressionText`
  and `statementText` are source text: the one reads as an expression with every operation in
  parentheses, the other as one line of a program.  `outline` is a program with one indented line for
  each statement.

  Source text is written by the kind of a node, the outline by its rule, so a node with a title of its
  own may be asked for a field that it does not have.  Places are never written.
-/

import ZebLang.Datum
import ZebLang.Fault
import ZebLang.Text.Quoted

namespace ZebLang.Datum

/-! ## Structural form -/

/-- The title under which a node is written. -/
def titleOf (kind : Kind) (tag : Tag Datum) : String := tag.title.getD kind.title

/-- Fields in parentheses after a title. -/
def record (kind : Kind) (tag : Tag Datum) (fields : List (String × String)) : String :=
  titleOf kind tag ++ "(" ++ ", ".intercalate (fields.map fun f => f.1 ++ "=" ++ f.2) ++ ")"

mutual

/-- A datum with all its fields. -/
def structural : Datum → Except Fault String
  | .none => .ok "None"
  | truth value => .ok (if value then "True" else "False")
  | int value => writeInt value
  | real shown => .ok shown
  | text value => .ok (Text.quoted value)
  | list items => do return "[" ++ ", ".intercalate (← structuralAll items) ++ "]"
  | bare tag family => .ok (record family.kind tag [])
  | program tag statements => do
      let items ← structuralAll statements
      return record .program tag [("statements", "[" ++ ", ".intercalate items ++ "]")]
  | exit tag expression => do
      let e ← expression.structural
      return record .exit tag [("expression", e)]
  | assign tag name expression => do
      let n ← name.structural
      let e ← expression.structural
      return record .assign tag [("name", n), ("expression", e)]
  | loop tag name expression => do
      let n ← name.structural
      let e ← expression.structural
      return record .loop tag [("name", n), ("expression", e)]
  | endLoop tag => .ok (record .endLoop tag [])
  | literal tag value => do
      let v ← value.structural
      return record .literal tag [("value", v)]
  | reference tag name => do
      let n ← name.structural
      return record .reference tag [("name", n)]
  | binary tag left operator right => do
      let l ← left.structural
      let o ← operator.structural
      let r ← right.structural
      return record .binary tag [("left", l), ("operator", o), ("right", r)]
  | call tag name argument => do
      let n ← name.structural
      let a ← argument.structural
      return record .call tag [("name", n), ("argument", a)]

/-- Each item with all its fields. -/
def structuralAll : List Datum → Except Fault (List String)
  | [] => .ok []
  | d :: rest => do
      let first ← d.structural
      let others ← structuralAll rest
      return first :: others

end

/-- A datum inside source text: a text as it is, anything else in its structural form. -/
def plain : Datum → Except Fault String
  | text value => .ok value
  | d => d.structural

/-! ## Source text -/

/-- An expression as source text, with every operation in parentheses.  What is no expression is shown
    by its type in angle brackets, and nothing at all by nothing. -/
def expressionText : Datum → Except Fault String
  | .none => .ok ""
  | literal _ value => value.plain
  | reference _ name => name.plain
  | binary _ left operator right => do
      let l ← left.expressionText
      let o ← operator.plain
      let r ← right.expressionText
      return "(" ++ l ++ " " ++ o ++ " " ++ r ++ ")"
  | call _ name argument => do
      let n ← name.plain
      let a ← argument.expressionText
      return n ++ "(" ++ a ++ ")"
  | d => .ok ("<" ++ d.typeName ++ ">")

/-- A statement as one line of source text. -/
def statementText : Datum → Except Fault String
  | exit _ expression => do return "exit " ++ (← expression.expressionText)
  | assign _ name expression => do
      let n ← name.plain
      return n ++ " = " ++ (← expression.expressionText)
  | loop _ name expression => do
      let n ← name.plain
      return "for " ++ n ++ " in " ++ (← expression.expressionText)
  | endLoop _ => .ok "endfor"
  | d => .ok ("<" ++ d.typeName ++ ">")

/-! ## Fields by rule -/

/-- A field that a rule asks for, or the fault that the node does not have it. -/
def ask {α : Type} (d : Datum) (field : String) (found : Option α) : Except Fault α :=
  match found with
  | some value => .ok value
  | Option.none => .error (.missingField d.typeName field)

/-- The expression that a rule asks for. -/
def askExpression (d : Datum) : Except Fault Datum := d.ask "expression" d.expression?

/-- The name that a rule asks for. -/
def askName (d : Datum) : Except Fault Datum := d.ask "name" d.name?

/-! ## Outline -/

/-- The outline of anything that is not a program, in one line. -/
def outlineLine (d : Datum) : Except Fault String :=
  match d.rule? with
  | some .program => .error (.missingField d.typeName "statements")
  | some .exit => do return "Exit " ++ (← (← d.askExpression).expressionText)
  | some .assign => do
      let n ← (← d.askName).plain
      return "Assign " ++ n ++ " = " ++ (← (← d.askExpression).expressionText)
  | some .loop => do
      let n ← (← d.askName).plain
      return "For " ++ n ++ " in " ++ (← (← d.askExpression).expressionText)
  | some .endLoop => .ok "EndFor"
  | _ =>
      if d.isExpression then do return "Expr: " ++ (← d.expressionText)
      else .ok ("<" ++ d.typeName ++ ">")

/-- A line at a level of the outline. -/
def indented (level : Nat) (line : String) : String :=
  String.ofList (List.replicate (2 * level) ' ') ++ line

mutual

/-- The lines of the outline of a datum at `level`. -/
def outlineLines (level : Nat) : Datum → Except Fault (List String)
  | program tag statements =>
      if (program tag statements).rule? = some .program then do
        return indented level "Program" :: (← outlineAll (level + 1) statements)
      else do return [indented level (← (program tag statements).outlineLine)]
  | d => do return [indented level (← d.outlineLine)]

/-- The lines of the outlines of several data at `level`. -/
def outlineAll (level : Nat) : List Datum → Except Fault (List String)
  | [] => .ok []
  | d :: rest => do
      let first ← outlineLines level d
      let others ← outlineAll level rest
      return first ++ others

end

/-- The outline of a datum. -/
def outline (d : Datum) : Except Fault String := do
  return Text.joinLines (← d.outlineLines 0)

end ZebLang.Datum
