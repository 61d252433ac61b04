import AccumulatorMachine.CommandLine.Path
import AccumulatorMachine.Diagnostic

/-! A tree of directories and files, seen from the directory that a command works in: what is at
each location, what the system allows to be done there, and where paths lead. A file has one name
and holds what was last written to it; no entry is a link or a device. -/
namespace AccumulatorMachine.CommandLine

inductive FileError
  | notFound
  | notDirectory
  | isDirectory
  | nameTooLong
  /-- The file is read as text, but is not UTF-8. -/
  | notText
  /-- The system does not allow it, and says why. -/
  | refused (message : String)
  deriving DecidableEq, Repr

def FileError.diagnostic : FileError → Diagnostic
  | notFound => { message := "No such file or directory (os error 2)" }
  | notDirectory => { message := "Not a directory (os error 20)" }
  | isDirectory => { message := "Is a directory (os error 21)" }
  | nameTooLong => { message := "File name too long (os error 36)" }
  | notText => { message := "stream did not contain valid UTF-8" }
  | refused message => { message }

/-- A place in the tree, whether anything is there or not. -/
inductive Location
  | root
  | inside (directory : Location) (name : List Char)
  deriving DecidableEq, Repr

namespace Location

/-- The directory around a location. The root is around itself. -/
def around : Location → Location
  | root => root
  | inside directory _ => directory

/-- The location that names lead down to. -/
def down (l : Location) (names : List String) : Location :=
  names.foldl (fun l name => .inside l name.toList) l

/-- Whether a location is another one, or is the root or a directory on the way there. -/
def leadsTo (l : Location) : Location → Bool
  | root => l == root
  | inside directory name => l == inside directory name || l.leadsTo directory

end Location

/-- What may be done with a file or a directory. Whoever may change it may look at it. -/
inductive Access
  /-- A file may be read and written; names may be looked up in a directory and added to it. -/
  | full
  /-- A file may be read; names may be looked up in a directory. -/
  | readOnly (refusal : String)
  | closed (refusal : String)
  deriving DecidableEq, Repr

namespace Access

def toLook : Access → Except FileError Unit
  | full => .ok ()
  | readOnly _ => .ok ()
  | closed refusal => .error (.refused refusal)

def toChange : Access → Except FileError Unit
  | full => .ok ()
  | readOnly refusal => .error (.refused refusal)
  | closed refusal => .error (.refused refusal)

end Access

inductive Entry
  | directory (access : Access)
  | file (access : Access) (content : List UInt8)
  deriving DecidableEq, Repr

/-- The entries of a tree, and where in it a command works. Where a location comes twice, the
first entry counts. -/
structure Directory where
  entries : List (Location × Entry) := []
  here : Location := .root
  deriving DecidableEq, Repr

namespace Directory

/-- A directory with files of some names, open to all. -/
def holding (here : Location) (files : List (List Char × List UInt8)) : Directory where
  entries := files.map fun (name, content) => (.inside here name, .file .full content)
  here

/-- What is at a location. The directory to work in is there and so are those on the way to it,
listed or not. -/
def find? (d : Directory) (l : Location) : Option Entry :=
  match d.entries.lookup l with
  | some entry => some entry
  | none => if l.leadsTo d.here then some (.directory .full) else none

/-- Gives a file new content, or makes a file that anyone may read and write. -/
def store (d : Directory) (l : Location) (content : List UInt8) : Directory :=
  { d with entries := (l, .file .full content) :: d.entries.filter (·.1 ≠ l) }

/-- Bytes of the longest name and of the longest path. -/
def nameLimit : Nat := 255

def pathLimit : Nat := 4095

/-- The directory that a name leads to from another one. One dot stays there, two go up. -/
def follow (l : Location) (name : List Char) : Except FileError Location :=
  if name = ['.'] then .ok l
  else if name = ['.', '.'] then .ok l.around
  else if nameLimit < Text.byteLength name then .error .nameTooLong
  else .ok (.inside l name)

/-- What a directory allows, if it is one and lets names be looked up. -/
def enter (d : Directory) (l : Location) : Except FileError Access :=
  match d.find? l with
  | none => .error .notFound
  | some (.file _ _) => .error .notDirectory
  | some (.directory access) => access.toLook.map fun _ => access

inductive Target
  | directory (l : Location)
  /-- A name, there or not, in a directory that allows so much. -/
  | name (directory : Location) (access : Access) (name : List Char)
  deriving DecidableEq, Repr

/-- Follows names from a directory. All of them lead to directories, but for the last one, if it is
no dots. -/
def walk (d : Directory) (l : Location) : List (List Char) → Except FileError Target
  | [] => .ok (.directory l)
  | name :: further => do
    let access ← d.enter l
    if further.isEmpty && name ∉ [['.'], ['.', '.']] then .ok (.name l access name)
    else d.walk (← follow l name) further

def locate (d : Directory) (p : Path) : Except FileError Target :=
  if pathLimit < Text.byteLength p.text then .error .nameTooLong
  else if p.text.isEmpty then .error .notFound
  else d.walk (if p.isAbsolute then .root else d.here) p.names

/-- A name with a slash after it is to be a directory's. -/
def read (d : Directory) (p : Path) : Except FileError (List UInt8) := do
  match ← d.locate p with
  | .directory l =>
    let _ ← d.enter l
    .error .isDirectory
  | .name l _ name =>
    if nameLimit < Text.byteLength name then .error .nameTooLong
    else match d.find? (.inside l name) with
      | none => .error .notFound
      | some (.directory access) => do
        access.toLook
        .error .isDirectory
      | some (.file access content) =>
        if p.endsInSlash then .error .notDirectory
        else access.toLook.map fun _ => content

/-- The location of the file that writing to a path changes or makes. Its name cannot have a slash
after it. -/
def target (d : Directory) (p : Path) : Except FileError Location := do
  match ← d.locate p with
  | .directory _ => .error .isDirectory
  | .name l access name =>
    if p.endsInSlash then .error .isDirectory
    else if nameLimit < Text.byteLength name then .error .nameTooLong
    else match d.find? (.inside l name) with
      | none => access.toChange.map fun _ => .inside l name
      | some (.directory _) => .error .isDirectory
      | some (.file access _) => access.toChange.map fun _ => .inside l name

def write (d : Directory) (p : Path) (content : List UInt8) : Except FileError Directory := do
  return d.store (← d.target p) content

end Directory

end AccumulatorMachine.CommandLine
