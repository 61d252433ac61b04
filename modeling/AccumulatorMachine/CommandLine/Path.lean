import AccumulatorMachine.Text.Extent

/-! File paths: names with slashes between them. The last name has an extension if a dot
stands in it after some other character. -/
namespace AccumulatorMachine.CommandLine

structure Path where
  text : List Char
  deriving DecidableEq, Repr

namespace Path

def toString (p : Path) : String :=
  String.ofList p.text

def isAbsolute (p : Path) : Bool :=
  p.text.head? == some '/'

/-- The names of a text with slashes, empty ones included. -/
def split : List Char → List (List Char)
  | [] => [[]]
  | '/' :: rest => [] :: split rest
  | c :: rest =>
    match split rest with
    | [] => [[c]]
    | name :: names => (c :: name) :: names

/-- The names on the way, lone dots included. -/
def names (p : Path) : List (List Char) :=
  (split p.text).filter (!·.isEmpty)

def endsInSlash (p : Path) : Bool :=
  p.text.getLast? == some '/'

/-- Drops slashes, and dots that stand alone, from the front of a reversed path. -/
def dropTail : List Char → List Char
  | '/' :: rest => dropTail rest
  | '.' :: '/' :: rest => dropTail rest
  | text => text

/-- What stands before the last name, and the last name. -/
def splitLast (p : Path) : List Char × List Char :=
  let reversed := dropTail p.text.reverse
  ((reversed.dropWhile (· != '/')).reverse, (reversed.takeWhile (· != '/')).reverse)

def fileName? (p : Path) : Option (List Char) :=
  let name := p.splitLast.2
  if name.isEmpty || name == ['.'] || name == ['.', '.'] then none else some name

/-- A name up to its last dot, and what follows the dot. A dot in front does not count. -/
def splitExtension (name : List Char) : List Char × Option (List Char) :=
  let extension := (name.reverse.takeWhile (· != '.')).reverse
  let stem := name.take (name.length - extension.length - 1)
  if stem.isEmpty then (name, none) else (stem, some extension)

def extension? (p : Path) : Option (List Char) :=
  p.fileName?.bind fun name => (splitExtension name).2

def withoutExtension (p : Path) : Path :=
  ⟨p.text.take (p.text.length - (p.extension?.getD []).length)⟩

/-- The path with another extension on its last name, or with one that it did not have.
The old one is taken off first; if only two dots are left of the name, they mean the
directory above, which has no extension. -/
def withExtension (p : Path) (extension : List Char) : Path :=
  let bare := p.withoutExtension
  match bare.fileName? with
  | none => bare
  | some name => ⟨bare.splitLast.1 ++ (splitExtension name).1 ++ '.' :: extension⟩

end Path

end AccumulatorMachine.CommandLine
