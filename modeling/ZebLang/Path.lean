/-
  Paths of files.

  A path is a root and the names below it.  Reading a path drops empty names and single dots; double
  dots stay, because what they lead to depends on the files.
-/

namespace ZebLang

/-- A path: its root (`/`, `//` or nothing) and its names. -/
structure Path where
  root : String
  names : List String
  deriving DecidableEq, Repr

namespace Path

/-- The loop behind `pieces`; `taken` holds the current piece in reverse. -/
def piecesFrom (taken : List Char) : List Char → List String
  | [] => [String.ofList taken.reverse]
  | c :: rest =>
      if c = '/' then String.ofList taken.reverse :: piecesFrom [] rest
      else piecesFrom (c :: taken) rest

/-- The pieces of a text between slashes, empty ones included. -/
def pieces (text : String) : List String := piecesFrom [] text.toList

/-- Two slashes at the start are a root of their own; any other number counts as one. -/
def rootOf (text : String) : String :=
  match (text.toList.takeWhile (· = '/')).length with
  | 0 => ""
  | 2 => "//"
  | _ => "/"

/-- The path that a text stands for. -/
def ofText (text : String) : Path :=
  ⟨rootOf text, (pieces text).filter fun piece => piece != "" && piece != "."⟩

/-- A path as text; a path without names and root is a dot. -/
def text (p : Path) : String :=
  if p.root = "" ∧ p.names = [] then "." else p.root ++ "/".intercalate p.names

/-- A name without its suffix, which is what follows its last dot.  A dot at the start or at the end of
    a name starts no suffix. -/
def stem (name : String) : String :=
  let reversed := name.toList.reverse
  let suffix := reversed.takeWhile (· != '.')
  let before := (reversed.dropWhile (· != '.')).drop 1
  if suffix.isEmpty || before.isEmpty then name else String.ofList before.reverse

/-- The path with another suffix, dot included, after the stem of its last name. -/
def withSuffix (p : Path) (suffix : String) : Path :=
  { p with names := p.names.dropLast ++ (p.names.getLast?.toList.map fun n => stem n ++ suffix) }

end Path

end ZebLang
