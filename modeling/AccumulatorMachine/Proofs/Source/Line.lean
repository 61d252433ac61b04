import AccumulatorMachine.Source.Line

/-! The fields of a line of a source: the first is never empty, and there is no gap. -/
namespace AccumulatorMachine.Source

/-- A line as words fill it, from the first field on. -/
structure Line.Filled (line : Line) : Prop where
  first : line.first.text ≠ []
  third : line.second.text = [] → line.third.text = []

theorem text_ne_nil_of_mem_words {offset : Nat} {tokens : List Token} {field : Field}
    (tokensFull : ∀ t ∈ tokens, t.text ≠ []) (member : field ∈ words offset tokens) :
    field.text ≠ [] := by
  induction tokens generalizing offset with
  | nil => simp [words] at member
  | cons t rest ih =>
    have restFull : ∀ t ∈ rest, t.text ≠ [] := fun t later =>
      tokensFull t (List.mem_cons_of_mem _ later)
    simp only [words] at member
    split at member
    · rcases List.mem_cons.mp member with rfl | later
      · exact tokensFull t List.mem_cons_self
      · exact ih restFull later
    · simp at member
    · exact ih restFull member

namespace Line

theorem filled_of_ofWords? {number : Nat} {words : List Field} {line : Line}
    (full : ∀ field ∈ words, field.text ≠ []) (read : ofWords? number words = some line) :
    line.Filled := by
  obtain ⟨last, _, rfl⟩ := Option.map_eq_some_iff.mp read
  match words, full with
  | [], _ => contradiction
  | [a], full => exact ⟨full a (by simp), fun _ => rfl⟩
  | [a, b], full => exact ⟨full a (by simp), fun _ => rfl⟩
  | a :: b :: c :: _, full =>
    exact ⟨full a (by simp), fun empty => absurd empty (full b (by simp))⟩

theorem filled_of_mem_ofSegments {number offset : Nat} {segments : List (List Char)}
    {line : Line} (member : line ∈ ofSegments number offset segments) : line.Filled := by
  induction segments generalizing number offset with
  | nil => simp [ofSegments] at member
  | cons segment rest ih =>
    simp only [ofSegments] at member
    split at member
    · next read =>
      rcases List.mem_cons.mp member with rfl | later
      · exact filled_of_ofWords? (fun _ => text_ne_nil_of_mem_words fun _ =>
          Token.text_ne_nil_of_mem_scan) read
      · exact ih later
    · exact ih member

end Line

theorem filled_of_mem_lines {source : List Char} {line : Line} (member : line ∈ lines source) :
    line.Filled :=
  Line.filled_of_mem_ofSegments member

end AccumulatorMachine.Source
