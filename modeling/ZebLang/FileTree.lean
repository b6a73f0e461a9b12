/-
  A system without a disk.

  A `FileTree` lists files and directories by the names that lead to them from the root, and says which
  directory is the working one.  It has no links, so a file has one place.  A `Session` is a file tree and what
  has been printed so far.

  A text names a file piece by piece.  An empty piece or a dot stays where it is and a double dot goes
  up, but each only from a directory; so a slash after a file names nothing.  Names and whole texts
  have a greatest length in bytes.
-/

import ZebLang.Path
import ZebLang.System

namespace ZebLang

/-- What stands at a place.  The null device takes every text and keeps none. -/
inductive Entry where
  | file (bytes : List UInt8)
  | directory
  | null
  deriving DecidableEq, Repr

/-- Files and directories by their places, and the working directory. -/
structure FileTree where
  entries : List (List String × Entry)
  folder : List String := []

/-- The greatest length of a name in bytes. -/
def nameLimit : Nat := 255

/-- The length in bytes from which on a text is no path. -/
def pathLimit : Nat := 4096

namespace FileTree

/-- What stands at a place.  The root is a directory. -/
def entry? (t : FileTree) : List String → Option Entry
  | [] => some .directory
  | place => t.entries.lookup place

/-- The place that pieces of a path lead to from a place. -/
def walk (t : FileTree) (path : String) (start : List String) :
    List String → Except SystemError (List String)
  | [] => .ok start
  | piece :: rest =>
      if t.entry? start ≠ some .directory then .error (.notDirectory path)
      else if piece = "" ∨ piece = "." then t.walk path start rest
      else if piece = ".." then t.walk path start.dropLast rest
      else if nameLimit < piece.utf8ByteSize then .error (.nameTooLong path)
      else if t.entry? (start ++ [piece]) = none then .error (.notFound path)
      else t.walk path (start ++ [piece]) rest

/-- Where the pieces of a path start. -/
def origin (t : FileTree) (path : String) : List String := if Path.rootOf path = "" then t.folder else []

/-- The place of an existing file or directory. -/
def locate (t : FileTree) (path : String) : Except SystemError (List String) :=
  if pathLimit ≤ path.utf8ByteSize then .error (.nameTooLong path)
  else if path = "" then .error (.notFound path)
  else t.walk path (t.origin path) (Path.pieces path)

/-- The kind of what a path leads to. -/
def status (t : FileTree) (path : String) : Except SystemError FileKind := do
  match t.entry? (← t.locate path) with
  | some (.file _) | some .null => return .file
  | some .directory => return .directory
  | none => .error (.notFound path)

/-- The bytes of a file. -/
def read (t : FileTree) (path : String) : Except SystemError (List UInt8) := do
  match t.entry? (← t.locate path) with
  | some (.file bytes) => return bytes
  | some .null => return []
  | some .directory => .error (.isDirectory path)
  | none => .error (.notFound path)

/-- The tree with a directory and all directories on the way to it. -/
def addDirectory (t : FileTree) (place : List String) : FileTree :=
  { t with
    entries := (List.range place.length).map (fun k => (place.take (k + 1), .directory)) ++ t.entries }

/-- The tree with a file in a place. -/
def put (t : FileTree) (place : List String) (bytes : List UInt8) : FileTree :=
  { t with entries := (place, .file bytes) :: t.entries.filter (·.1 != place) }

/-- The place where a file of this path would stand: an existing directory and a name in it. -/
def target (t : FileTree) (path : String) : Except SystemError (List String) := do
  let pieces := Path.pieces path
  let name := pieces.getLastD ""
  if pathLimit ≤ path.utf8ByteSize then .error (.nameTooLong path)
  else if name = "" ∨ name = "." ∨ name = ".." then
    let _ ← t.locate path
    .error (.isDirectory path)
  else
    let folder ← t.walk path (t.origin path) pieces.dropLast
    if t.entry? folder ≠ some .directory then .error (.notDirectory path)
    else if nameLimit < name.utf8ByteSize then .error (.nameTooLong path)
    else if t.entry? (folder ++ [name]) = some .directory then .error (.isDirectory path)
    else return folder ++ [name]

/-- The tree after a text is written to a file. -/
def write (t : FileTree) (path text : String) : Except SystemError FileTree := do
  let place ← t.target path
  if t.entry? place = some .null then return t else return t.put place (bytesOf text)

/-- An empty working directory for temporary files, and a null device. -/
def workshop : FileTree where
  entries := [(["dev"], .directory), (["dev", "null"], .null), (["tmp"], .directory),
    (["tmp", "workshop"], .directory)]
  folder := ["tmp", "workshop"]

/-- The workshop with directories and files, their paths taken from the working directory; a file brings the
    directories on the way to it. -/
def build (directories : List String) (files : List (String × List UInt8)) : FileTree :=
  let placeOf (path : String) := workshop.folder ++ (Path.ofText path).names
  let folders := directories.foldl (fun t path => t.addDirectory (placeOf path)) workshop
  files.foldl (fun t (path, bytes) => (t.addDirectory (placeOf path).dropLast).put (placeOf path) bytes) folders

/-- The files below the working directory that are new or different after a change, by path. -/
def changes (before after : FileTree) : List (String × List UInt8) :=
  let changed := after.entries.filterMap fun (place, entry) =>
    match entry with
    | .file bytes =>
        if before.entries.lookup place = some (.file bytes) || !before.folder.isPrefixOf place then none
        else some ("/".intercalate (place.drop before.folder.length), bytes)
    | _ => none
  changed.mergeSort fun a b => decide (a.1 ≤ b.1)

end FileTree

/-- A file tree, and what has been printed on each stream. -/
structure Session where
  files : FileTree
  stdout : String := ""
  stderr : String := ""

/-- A session answers what the command asks, and keeps what it writes and prints. -/
def Session.system : System (StateM Session) where
  status path := do return (← get).files.status path
  read path := do return (← get).files.read path |>.mapError .system
  write path text := do
    match (← get).files.write path text with
    | .ok files =>
        modify ({ · with files })
        return .ok ()
    | .error e => return .error (.system e)
  print
    | .output, text => do
        modify fun s => { s with stdout := s.stdout ++ text }
        return .ok ()
    | .error, text => do
        modify fun s => { s with stderr := s.stderr ++ text }
        return .ok ()

end ZebLang
