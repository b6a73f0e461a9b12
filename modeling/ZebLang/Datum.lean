/-
  Trees built by hand.

  A `Datum` is whatever may stand in a field of a syntax tree or in a token: nothing, a truth value, a
  number, a text, a list, or a node.  Every field of a node holds a datum, so a tree may be wrong in
  any place; what is wrong is found when the tree is used, not when it is built.

  A node has a *kind*, which says what fields it has, and a *title*.  Ordinarily the title is that of
  the kind.  A node with a title of its own keeps its fields, but it is shown and lowered by the rule
  that its title names, if any, and may have further fields for that rule (`Additions`).  A tree that
  the parser made has no such node.
-/

import ZebLang.Location

namespace ZebLang

/-- The kinds of node.  `node`, `statement` and `expression` are the three families by themselves. -/
inductive Kind where
  | node
  | statement
  | expression
  | program
  | exit
  | assign
  | loop
  | endLoop
  | literal
  | reference
  | binary
  | call
  deriving DecidableEq, Repr

/-- The three families to which kinds belong. -/
inductive Family where
  | node
  | statement
  | expression
  deriving DecidableEq, Repr

/-- A family as a kind by itself. -/
def Family.kind : Family → Kind
  | node => .node
  | statement => .statement
  | expression => .expression

namespace Kind

/-- The title that nodes of a kind have. -/
def title : Kind → String
  | node => "ASTNode"
  | statement => "Statement"
  | expression => "Expression"
  | program => "Program"
  | exit => "Exit"
  | assign => "Assign"
  | loop => "For"
  | endLoop => "EndFor"
  | literal => "IntegerLiteral"
  | reference => "VariableReference"
  | binary => "InfixOp"
  | call => "Call"

/-- All kinds, families first. -/
def all : List Kind :=
  [node, statement, expression, program, exit, assign, loop, endLoop, literal, reference, binary, call]

/-- The kind whose nodes have this title. -/
def ofTitle? (t : String) : Option Kind := all.find? (·.title == t)

/-- Kinds of the statement family. -/
def isStatement : Kind → Bool
  | statement | exit | assign | loop | endLoop => true
  | _ => false

/-- Kinds of the expression family. -/
def isExpression : Kind → Bool
  | expression | literal | reference | binary | call => true
  | _ => false

/-- A title determines its kind. -/
theorem ofTitle?_title (k : Kind) : ofTitle? k.title = some k := by cases k <;> decide

end Kind

/-- Fields that a node has besides those of its kind, one by one.  A name or an operator among them is a
    text. -/
structure Additions (δ : Type) where
  expression : Option δ := none
  left : Option δ := none
  right : Option δ := none
  argument : Option δ := none
  value : Option δ := none
  name : Option String := none
  operator : Option String := none
  deriving DecidableEq, Repr, Inhabited

namespace Additions

variable {δ ε : Type}

/-- Something done with every datum that was added. -/
def map (f : δ → ε) (a : Additions δ) : Additions ε :=
  ⟨a.expression.map f, a.left.map f, a.right.map f, a.argument.map f, a.value.map f, a.name, a.operator⟩

/-- Whether nothing was added. -/
def isEmpty (a : Additions δ) : Bool :=
  a.expression.isNone && a.left.isNone && a.right.isNone && a.argument.isNone && a.value.isNone &&
    a.name.isNone && a.operator.isNone

theorem eq_of_isEmpty {a : Additions δ} (h : a.isEmpty = true) : a = {} := by
  obtain ⟨expression, left, right, argument, value, name, operator⟩ := a
  simpa [isEmpty, and_assoc] using h

/-- Something that is true of every datum that was added. -/
structure All (p : δ → Prop) (a : Additions δ) : Prop where
  expression : ∀ x ∈ a.expression, p x
  left : ∀ x ∈ a.left, p x
  right : ∀ x ∈ a.right, p x
  argument : ∀ x ∈ a.argument, p x
  value : ∀ x ∈ a.value, p x

theorem All.map {p : δ → Prop} {q : ε → Prop} {f : δ → ε} {a : Additions δ} (h : a.All p)
    (hf : ∀ x, p x → q (f x)) : (a.map f).All q := by
  have hmap : ∀ {found : Option δ}, (∀ x ∈ found, p x) → ∀ y ∈ found.map f, q y := by
    intro found hfound y hy
    obtain ⟨x, hx, rfl⟩ := Option.map_eq_some_iff.mp hy
    exact hf x (hfound x hx)
  exact ⟨hmap h.expression, hmap h.left, hmap h.right, hmap h.argument, hmap h.value⟩

end Additions

/-- What every node carries: a title of its own, if any, its place, if one is given, and the fields that
    its kind does not have. -/
structure Tag (δ : Type) where
  title : Option String := none
  location : Option Origin := none
  added : Additions δ := {}
  deriving DecidableEq, Repr, Inhabited

/-- The tag of a node at a place in a text, such as the parser makes. -/
def Tag.placed {δ : Type} (place : Location) : Tag δ := { location := some (.known place) }

/-- A value in a field of a tree, or in a token. -/
inductive Datum where
  | none
  | truth (value : Bool)
  | int (value : Int)
  | real (text : String)
  | text (value : String)
  | list (items : List Datum)
  /-- A node that belongs to a family and has no fields. -/
  | bare (tag : Tag Datum) (family : Family)
  | program (tag : Tag Datum) (statements : List Datum)
  | exit (tag : Tag Datum) (expression : Datum)
  | assign (tag : Tag Datum) (name expression : Datum)
  | loop (tag : Tag Datum) (name expression : Datum)
  | endLoop (tag : Tag Datum)
  | literal (tag : Tag Datum) (value : Datum)
  | reference (tag : Tag Datum) (name : Datum)
  | binary (tag : Tag Datum) (left operator right : Datum)
  | call (tag : Tag Datum) (name argument : Datum)
  deriving Repr, Inhabited

namespace Datum

/-- The kind and the tag of a node; other data have none. -/
def node? : Datum → Option (Kind × Tag Datum)
  | bare tag family => some (family.kind, tag)
  | program tag _ => some (.program, tag)
  | exit tag _ => some (.exit, tag)
  | assign tag _ _ => some (.assign, tag)
  | loop tag _ _ => some (.loop, tag)
  | endLoop tag => some (.endLoop, tag)
  | literal tag _ => some (.literal, tag)
  | reference tag _ => some (.reference, tag)
  | binary tag _ _ _ => some (.binary, tag)
  | call tag _ _ => some (.call, tag)
  | _ => Option.none

/-- The kind of a node. -/
def kind? (d : Datum) : Option Kind := d.node?.map (·.1)

/-- The place of a node. -/
def location? (d : Datum) : Option Origin := d.node?.bind (·.2.location)

/-- The fields of a node besides those of its kind. -/
def added (d : Datum) : Additions Datum := (d.node?.map (·.2.added)).getD {}

/-- The word for what a datum is: the title of a node, the type of anything else. -/
def typeName (d : Datum) : String :=
  match d.node? with
  | some (kind, tag) => tag.title.getD kind.title
  | Option.none =>
      match d with
      | truth _ => "bool"
      | int _ => "int"
      | real _ => "float"
      | text _ => "str"
      | list _ => "list"
      | _ => "NoneType"

/-- The kind by whose rule a node is shown and lowered: the one its title names. -/
def rule? (d : Datum) : Option Kind :=
  d.node?.bind fun (kind, tag) =>
    match tag.title with
    | some title => Kind.ofTitle? title
    | Option.none => some kind

/-- Whether a datum is a node of the statement family. -/
def isStatement (d : Datum) : Bool := d.kind?.any Kind.isStatement

/-- Whether a datum is a node of the expression family. -/
def isExpression (d : Datum) : Bool := d.kind?.any Kind.isExpression

/-- The expression of a statement, or of another node that has one. -/
def expression? : Datum → Option Datum
  | exit _ e | assign _ _ e | loop _ _ e => some e
  | d => d.added.expression

/-- The name that a node binds, reads or calls. -/
def name? : Datum → Option Datum
  | assign _ n _ | loop _ n _ | reference _ n | call _ n _ => some n
  | d => d.added.name.map text

end Datum

end ZebLang
