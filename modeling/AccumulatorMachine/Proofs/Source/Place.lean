import AccumulatorMachine.Proofs.Source.Row
import Mathlib.Algebra.Group.Nat.Defs

/-! Places in a source. The words of a line stand where their fields say, and a line has the
number of its row: one more than the newlines before any of its words. -/
namespace AccumulatorMachine.Source

def Line.fields (line : Line) : List Field :=
  [line.first, line.second, line.third]

theorem exists_place_of_mem_words {offset : Nat} {tokens : List Token} {f : Field}
    (member : f ∈ words offset tokens) :
    ∃ before after, tokens.flatMap (·.text) = before ++ (f.text ++ after) ∧
      f.offset = offset + Text.byteLength before := by
  induction tokens generalizing offset with
  | nil => simp [words] at member
  | cons t rest ih =>
    have later : ∀ offset', f ∈ words (offset' + Text.byteLength t.text) rest →
        ∃ before after, (t :: rest).flatMap (·.text) = before ++ (f.text ++ after) ∧
          f.offset = offset' + Text.byteLength before := by
      intro offset' member
      obtain ⟨before, after, text, place⟩ := ih member
      refine ⟨t.text ++ before, after, ?_, ?_⟩
      · rw [List.flatMap_cons, text, List.append_assoc]
      · rw [place, Text.byteLength_append, Nat.add_assoc]
    rw [words] at member
    cases kind : t.kind with
    | word =>
      rw [kind] at member
      rcases List.mem_cons.mp member with rfl | more
      · exact ⟨[], rest.flatMap (·.text), by rw [List.flatMap_cons, List.nil_append], rfl⟩
      · exact later offset more
    | comment =>
      rw [kind] at member
      contradiction
    | blank =>
      rw [kind] at member
      exact later offset member

namespace Line

/-- The fields of a line that are not empty are words of its row. -/
theorem mem_of_ofWords? {number : Nat} {words : List Field} {line : Line} {f : Field}
    (read : ofWords? number words = some line) (field : f ∈ line.fields) (some : f.text ≠ []) :
    f ∈ words := by
  obtain ⟨last, _, rfl⟩ := Option.map_eq_some_iff.mp read
  have listed : ∀ i, (words.getD i ⟨[], last.stop⟩).text ≠ [] →
      words.getD i ⟨[], last.stop⟩ ∈ words := by
    intro i full
    rw [List.getD_eq_getElem?_getD] at full ⊢
    cases found : words[i]? with
    | none =>
      rw [found] at full
      exact absurd rfl full
    | some word => exact List.mem_of_getElem? found
  simp only [fields, List.mem_cons, List.not_mem_nil, or_false] at field
  rcases field with rfl | rfl | rfl
  · exact listed 0 some
  · exact listed 1 some
  · exact listed 2 some

theorem number_of_ofSegment? {number offset : Nat} {row : List Char} {line : Line}
    (read : ofSegment? number offset row = some line) : line.number = number := by
  obtain ⟨last, _, rfl⟩ := Option.map_eq_some_iff.mp read
  rfl

theorem exists_place_of_ofSegment? {number offset : Nat} {row : List Char} {line : Line}
    {f : Field} (read : ofSegment? number offset row = some line) (field : f ∈ line.fields)
    (some : f.text ≠ []) :
    ∃ before after, row = before ++ (f.text ++ after) ∧
      f.offset = offset + Text.byteLength before := by
  obtain ⟨before, after, text, place⟩ := exists_place_of_mem_words (mem_of_ofWords? read field some)
  rw [Token.flatMap_text_scan] at text
  exact ⟨before, after, text, place⟩

end Line

/-- A word of a line stands in the source at its place, and the newlines before it are those
of the rows before its own. -/
theorem exists_place {number offset : Nat} {source : List Char} {line : Line} {f : Field}
    (member : line ∈ linesFrom number offset source) (field : f ∈ line.fields)
    (some : f.text ≠ []) :
    ∃ before after, source = before ++ (f.text ++ after) ∧
      f.offset = offset + Text.byteLength before ∧
      line.number = number + before.count '\n' := by
  -- A row has no newline, so that those before a word of it are before the row.
  have inRow : ∀ {row number offset}, '\n' ∉ row →
      line ∈ (Line.ofSegment? number offset row).toList →
      ∃ before after, row = before ++ (f.text ++ after) ∧
        f.offset = offset + Text.byteLength before ∧
        line.number = number + before.count '\n' := by
    intro row number offset inside member
    have read := Option.mem_toList.mp member
    obtain ⟨before, after, text, place⟩ := Line.exists_place_of_ofSegment? read field some
    have none : before.count '\n' = 0 := by
      rw [List.count_eq_zero]
      intro early
      apply inside
      rw [text]
      exact List.mem_append_left _ early
    exact ⟨before, after, text, place, by rw [none, Line.number_of_ofSegment? read]; rfl⟩
  induction source using source_induction generalizing number offset with
  | last row inside =>
    rw [linesFrom_row number offset inside] at member
    exact inRow inside member
  | next row rest inside ih =>
    rw [linesFrom_append number offset inside, List.mem_append] at member
    rcases member with first | later
    · obtain ⟨before, after, text, place, counted⟩ := inRow inside first
      refine ⟨before, after ++ '\n' :: rest, ?_, place, counted⟩
      rw [text]
      simp only [List.append_assoc]
    · obtain ⟨before, after, text, place, counted⟩ := ih later
      have none : row.count '\n' = 0 := List.count_eq_zero.mpr inside
      have newline : Text.byteLength ('\n' :: before) = 1 + Text.byteLength before := rfl
      refine ⟨row ++ '\n' :: before, after, ?_, ?_, ?_⟩
      · rw [text]
        simp only [List.append_assoc, List.cons_append]
      · rw [place, Text.byteLength_append, newline]
        omega
      · rw [counted, List.count_append, none, List.count_cons_self]
        omega

/-- A line takes two bytes at least, with the newline after it; the last may lack that. -/
theorem two_mul_length_linesFrom_le (number offset : Nat) (source : List Char) :
    2 * (linesFrom number offset source).length ≤ Text.byteLength source + 1 := by
  have inRow : ∀ number offset row,
      2 * (Line.ofSegment? number offset row).toList.length ≤ Text.byteLength row + 1 := by
    intro number offset row
    cases row with
    | nil =>
      rw [Line.ofSegment?_nil]
      exact Nat.zero_le _
    | cons c rest =>
      have bytes := Text.byteLength_pos (List.cons_ne_nil c rest)
      have one := Option.length_toList_le (o := Line.ofSegment? number offset (c :: rest))
      omega
  induction source using source_induction generalizing number offset with
  | last row inside =>
    rw [linesFrom_row number offset inside]
    exact inRow number offset row
  | next row rest inside ih =>
    have first := inRow number offset row
    have others := ih (number + 1) (offset + Text.byteLength row + 1)
    have newline : Text.byteLength ('\n' :: rest) = 1 + Text.byteLength rest := rfl
    rw [linesFrom_append number offset inside, List.length_append, Text.byteLength_append,
      newline]
    omega

/-- A source that storage has room for has no more lines than there are instructions. -/
theorem two_mul_length_lines_le {source : List Char} (fits : Text.byteLength source < 2 ^ 64) :
    2 * (lines source).length ≤ 2 ^ 64 := by
  have bytes := two_mul_length_linesFrom_le 1 0 source
  rw [← lines_eq] at bytes
  omega

end AccumulatorMachine.Source
