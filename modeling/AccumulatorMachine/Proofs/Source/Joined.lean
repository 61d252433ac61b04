import AccumulatorMachine.Proofs.Source.Place
import AccumulatorMachine.Proofs.Source.LabelTable
import Mathlib.Data.List.GetD

/-! Two sources one after the other, with a newline between them. The lines of the second are
moved behind those of the first and say what they said before; a comment that ends the first
does not reach into the second. -/
namespace AccumulatorMachine.Source

def Field.moved (bytes : Nat) (f : Field) : Field :=
  ⟨f.text, f.offset + bytes⟩

/-- The same line so many rows and bytes further on. -/
def Line.moved (rows bytes : Nat) (line : Line) : Line :=
  ⟨line.number + rows, line.first.moved bytes, line.second.moved bytes, line.third.moved bytes⟩

theorem words_moved (offset bytes : Nat) (tokens : List Token) :
    words (offset + bytes) tokens = (words offset tokens).map (Field.moved bytes) := by
  induction tokens generalizing offset with
  | nil => rfl
  | cons t rest ih =>
    have later := ih (offset + Text.byteLength t.text)
    rw [Nat.add_right_comm] at later
    rw [words, words]
    cases t.kind with
    | word =>
      dsimp only
      rw [later, List.map_cons]
      rfl
    | comment => rfl
    | blank => exact later

theorem Line.ofWords?_moved (number rows bytes : Nat) (words : List Field) :
    ofWords? (number + rows) (words.map (Field.moved bytes)) =
      (ofWords? number words).map (Line.moved rows bytes) := by
  rw [ofWords?, ofWords?, List.getLast?_map, Option.map_map, Option.map_map]
  congr 1
  funext last
  have missing : (⟨[], (last.moved bytes).stop⟩ : Field) = Field.moved bytes ⟨[], last.stop⟩ := by
    simp only [Field.moved, Field.stop, Nat.add_right_comm]
  simp only [Function.comp_apply, missing, List.getD_map]
  rfl

theorem Line.ofSegment?_moved (number offset rows bytes : Nat) (segment : List Char) :
    ofSegment? (number + rows) (offset + bytes) segment =
      (ofSegment? number offset segment).map (Line.moved rows bytes) := by
  rw [ofSegment?, words_moved, ofWords?_moved, ofSegment?]

/-- Lines do not depend on what comes before them but for their numbers and places. -/
theorem linesFrom_moved (number offset rows bytes : Nat) (source : List Char) :
    linesFrom (number + rows) (offset + bytes) source =
      (linesFrom number offset source).map (Line.moved rows bytes) := by
  have toList : ∀ found : Option Line, (found.map (Line.moved rows bytes)).toList =
      found.toList.map (Line.moved rows bytes) := by
    intro found
    cases found with
    | none => rfl
    | some line => rfl
  induction source using source_induction generalizing number offset with
  | last row inside =>
    rw [linesFrom_row _ _ inside, linesFrom_row _ _ inside, Line.ofSegment?_moved, toList]
  | next row rest inside ih =>
    have later := ih (number + 1) (offset + Text.byteLength row + 1)
    rw [linesFrom_append _ _ inside, linesFrom_append _ _ inside, Line.ofSegment?_moved, toList,
      List.map_append, ← later]
    congr 2 <;> omega

theorem linesFrom_joined (number offset : Nat) (a b : List Char) :
    linesFrom number offset (a ++ '\n' :: b) =
      linesFrom number offset a ++
        linesFrom (number + (a.count '\n' + 1)) (offset + (Text.byteLength a + 1)) b := by
  induction a using source_induction generalizing number offset with
  | last row inside =>
    rw [linesFrom_append _ _ inside, linesFrom_row _ _ inside, List.count_eq_zero.mpr inside,
      Nat.zero_add, Nat.add_assoc]
  | next row rest inside ih =>
    have newline : Text.byteLength ('\n' :: rest) = 1 + Text.byteLength rest := rfl
    rw [List.append_assoc, List.cons_append, linesFrom_append _ _ inside, ih,
      linesFrom_append _ _ inside, List.append_assoc, List.count_append,
      List.count_eq_zero.mpr inside, List.count_cons_self, Text.byteLength_append, newline]
    congr 3 <;> omega

/-- The lines of a source and of one after its newline. -/
theorem lines_joined (a b : List Char) :
    lines (a ++ '\n' :: b) =
      lines a ++ (lines b).map (Line.moved (a.count '\n' + 1) (Text.byteLength a + 1)) := by
  rw [lines_eq, linesFrom_joined, linesFrom_moved, ← lines_eq, ← lines_eq]

namespace LabelTable

/-- Declarations of earlier lines are found first. -/
theorem get?_ofLines_append (first second : List Line) (name : List Char) :
    (ofLines (first ++ second)).get? name =
      ((ofLines first).get? name).or
        (((ofLines second).get? name).map (· + first.length)) := by
  have none : empty.get? name = none := rfl
  simp only [ofLines, get?_addLines, none, Option.none_or, Nat.zero_add, Option.map_id_fun', id_eq,
    List.findIdx?_append]

theorem get?_ofLines_moved (lines : List Line) (rows bytes : Nat) (name : List Char) :
    (ofLines (lines.map (Line.moved rows bytes))).get? name = (ofLines lines).get? name := by
  have none : empty.get? name = none := rfl
  simp only [ofLines, get?_addLines, none, Option.none_or, Nat.zero_add, Option.map_id_fun', id_eq,
    List.findIdx?_map]
  rfl

end LabelTable

end AccumulatorMachine.Source
