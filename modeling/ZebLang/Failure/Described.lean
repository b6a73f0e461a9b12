/-
  Nodes and failures that another tool describes by data.

  Such a tool gives the parts and leaves the rest to this library: the title of a node, the character or
  the name that a diagnostic is about, or the data that an error carries.  A part may be wrong itself, or
  there may be too many or too few of them, and that is a fault of its own.
-/

import ZebLang.Datum.Number
import ZebLang.Datum.Printer
import ZebLang.Failure

namespace ZebLang

/-! ## Nodes -/

/-- The tag of a node with a title of its own, in which no null character may stand. -/
def Tag.titled (title : String) (location : Option Origin) : Except Fault (Tag Datum) :=
  if title.toList.contains '\x00' then .error .nullInTitle
  else .ok { title := some title, location }

/-! ## Diagnostics -/

/-- The cause "invalid character", for a character given as a text of length one. -/
def Cause.ofCharacter : Datum → Except Fault Cause
  | .text value =>
      match value.toList with
      | [c] => .ok (.invalidCharacter c)
      | cs => .error (.notCharacter cs.length)
  | d => .error (.notText d.typeName)

/-- One item of a name that is given item by item.  Only a text of length one can match a character of
    another name; an item that has items or fields itself cannot be looked up at all. -/
def nameItem : Datum → Except Fault (Option Char)
  | .text value =>
      match value.toList with
      | [c] => .ok (some c)
      | _ => .ok none
  | .none | .truth _ | .int _ | .real _ => .ok none
  | d => .error (.unhashable d.typeName)

/-- The cause "undeclared variable", for a name given as a text or as a list of items. -/
def Cause.ofName (known : List String) : Datum → Except Fault Cause
  | .text name => .ok (.undeclared name known)
  | .list items => do
      let word ← items.mapM nameItem
      let shown ← (Datum.list items).plain
      let similar := Text.closest (fun s => s.toList.map some) word (Cause.ascending known)
      return .undeclaredVariable shown similar
  | d => .error (.notIterable d.typeName)

/-- The words for a part that may be left out. -/
def Datum.words? : Datum → Except Fault (Option String)
  | .none => .ok Option.none
  | d => do return some (← d.plain)

/-- Whether a datum has nothing to say: it is none, a zero, or empty. -/
def Datum.isVacant : Datum → Bool
  | .none => true
  | .text value => value.isEmpty
  | .list items => items.isEmpty
  | .real shown => Text.wholeValue? shown == some 0
  | d => d.integer? == some 0

/-- The words for a part that is left out when it has nothing to say. -/
def Datum.advice? (d : Datum) : Except Fault (Option String) :=
  if d.isVacant then .ok Option.none else do return some (← d.plain)

/-! ## Errors that carry data -/

/-- The parts by which an error is described in order: one that it must have, and optional ones. -/
structure Form where
  owner : String
  required : String
  optional : Nat
  deriving DecidableEq, Repr

/-- The number of parts given must suit the form. -/
def Form.checkCount (form : Form) (given : Nat) : Except Fault Unit :=
  if given = 0 then .error (.missingPart form.owner form.required)
  else if form.optional + 1 < given then .error (.extraParts form.owner form.optional given)
  else .ok ()

/-- What a wrong parameter says: its first part, which must be a text.  The second part is for the
    command at work, which no datum can be. -/
def parameterMessage (items : List Datum) : Except Fault String :=
  let command := items.getD 1 .none
  if command.isVacant then
    match items.getD 0 .none with
    | .text message => .ok message
    | d => .error (.notMessage d.typeName)
  else .error (.missingField command.typeName "command")

/-- What an error says that carries data: nothing for none, one as it is, more of them in
    parentheses. -/
def dataMessage : List Datum → Except Fault String
  | [] => .ok ""
  | [d] => d.plain
  | items => do return "(" ++ ", ".intercalate (← Datum.structuralAll items) ++ ")"

/-- A path after a refusal, if there is one. -/
def pathMessage (mark : String) : Datum → Except Fault String
  | .none => .ok ""
  | path => do return mark ++ (← path.structural)

/-- What a refusal of the operating system says that carries data.  Two to five of them are its number,
    its reason, a path, something that is not shown, and a second path, which is shown only after a
    first one. -/
def refusalMessage : List Datum → Except Fault String
  | code :: reason :: rest =>
      if 3 < rest.length then dataMessage (code :: reason :: rest)
      else do
        let number ← code.plain
        let words ← reason.plain
        let first ← pathMessage ": " (rest.getD 0 .none)
        let second ← if first.isEmpty then .ok "" else pathMessage " -> " (rest.getD 2 .none)
        return "[Errno " ++ number ++ "] " ++ words ++ first ++ second
  | items => dataMessage items

/-- The number of a refusal that carries data.  A truth value counts as a number here. -/
def refusalCode? : List Datum → Option Int
  | code :: _ :: rest => if 3 < rest.length then none else code.integer?
  | _ => none

/-- Whether a refusal that carries data has a property that its number decides. -/
def refusalHas (property : SystemError → Bool) (items : List Datum) : Bool :=
  (refusalCode? items).any fun code => property ⟨code, "", none⟩

/-- The data of a refusal without a count in the place of the path.  Only a refusal to wait can have
    one: it tells how much was done before. -/
def withoutCount (items : List Datum) : Except Fault (List Datum) :=
  match refusalHas SystemError.isWait items, items with
  | true, _ :: _ :: .real shown :: _ => .error (.notInteger (Datum.real shown).typeName)
  | true, code :: reason :: count :: _ =>
      match count.integer? with
      | some n =>
          if -Text.lengthLimit - 1 ≤ n ∧ n ≤ Text.lengthLimit then .ok [code, reason]
          else .error .uncountable
      | none => .ok items
  | _, _ => .ok items

/-- The failure that a refusal of the operating system is: its number tells whether a file is missing or
    not permitted. -/
def Failure.ofRefusal (items : List Datum) : Except Fault Failure := do
  let message ← refusalMessage (← withoutCount items)
  return if refusalHas SystemError.isUnavailable items then .refused message else .other message

end ZebLang
