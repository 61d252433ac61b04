import AccumulatorMachine.Source.Token
import AccumulatorMachine.Text.Extent
import AccumulatorMachine.Text.Segment

/-! The lines of a source that say something: those with a word before any comment. Of
its words a line keeps the first three, with their places in the source. -/
namespace AccumulatorMachine.Source

/-- A word, or the lack of one, at a place in the source. -/
structure Field where
  text : List Char
  /-- Bytes of source before the field. -/
  offset : Nat
  deriving DecidableEq, Repr

def Field.stop (f : Field) : Nat :=
  f.offset + Text.byteLength f.text

structure Line where
  /-- Counted from one, lines that say nothing included. -/
  number : Nat
  first : Field
  second : Field
  third : Field
  deriving DecidableEq, Repr

/-- The words among tokens that start at a place, up to the first comment. -/
def words (offset : Nat) : List Token → List Field
  | [] => []
  | t :: rest =>
    let after := offset + Text.byteLength t.text
    match t.kind with
    | .word => ⟨t.text, offset⟩ :: words after rest
    | .comment => []
    | .blank => words after rest

namespace Line

/-- The line with the given words. Where there are fewer than three, empty fields stand
at the end of the last word. -/
def ofWords? (number : Nat) (words : List Field) : Option Line :=
  words.getLast?.map fun last =>
    let missing : Field := ⟨[], last.stop⟩
    ⟨number, words.getD 0 missing, words.getD 1 missing, words.getD 2 missing⟩

/-- The line in a segment that starts at a place. -/
def ofSegment? (number offset : Nat) (segment : List Char) : Option Line :=
  ofWords? number (words offset (Token.scan segment))

/-- The lines in a row of segments, the first of which has a number and starts at a place. -/
def ofSegments (number offset : Nat) : List (List Char) → List Line
  | [] => []
  | segment :: rest =>
    let others := ofSegments (number + 1) (offset + Text.byteLength segment) rest
    match ofSegment? number offset segment with
    | some line => line :: others
    | none => others

end Line

/-- The lines of a source text that say something. -/
def lines (source : List Char) : List Line :=
  Line.ofSegments 1 0 (Text.segments (· == '\n') source)

end AccumulatorMachine.Source
