import AccumulatorMachine.Source.LabelTable

/-! What a label table of lines finds: for a name, the first line that declares it. -/
namespace AccumulatorMachine.Source

/-- The line starts with a name of letters and a colon right after it. -/
structure Line.Declares (line : Line) (name : List Char) : Prop where
  named : name ≠ []
  letters : ∀ c ∈ name, c.isAlpha = true
  colon : line.first.text = name ++ [':']

/-- The line of a number declares a name, and none before it does. -/
structure FirstDeclaration (lines : List Line) (name : List Char) (i : Nat) : Prop where
  declared : ∃ line, lines[i]? = some line ∧ line.Declares name
  first : ∀ j < i, ∀ line, lines[j]? = some line → ¬line.Declares name

theorem declaredLabel?_first_iff {line : Line} {name : List Char} :
    declaredLabel? line.first.text = some name ↔ line.Declares name := by
  rw [declaredLabel?_eq_some_iff]
  constructor
  · rintro ⟨ne, letters, colon⟩
    exact ⟨ne, letters, colon⟩
  · rintro ⟨ne, letters, colon⟩
    exact ⟨ne, letters, colon⟩

theorem findIdx?_declares_iff {lines : List Line} {name : List Char} {i : Nat} :
    lines.findIdx? (fun line => declaredLabel? line.first.text = some name) = some i ↔
      FirstDeclaration lines name i := by
  simp only [List.findIdx?_eq_some_iff_getElem, decide_eq_true_eq, declaredLabel?_first_iff]
  constructor
  · rintro ⟨inside, declares, first⟩
    refine ⟨⟨_, List.getElem?_eq_getElem inside, declares⟩, fun j before line at_ => ?_⟩
    rw [List.getElem?_eq_getElem (Nat.lt_trans before inside), Option.some.injEq] at at_
    subst at_
    exact first j before
  · rintro ⟨⟨line, at_, declares⟩, first⟩
    obtain ⟨inside, rfl⟩ := List.getElem?_eq_some_iff.mp at_
    exact ⟨inside, declares, fun j before =>
      first j before _ (List.getElem?_eq_getElem (Nat.lt_trans before inside))⟩

namespace LabelTable

theorem get?_insert (t : LabelTable) (declared name : List Char) (index : Nat) :
    (t.insert declared index).get? name =
      (t.get? name).or (if name = declared then some index else none) := by
  simp only [insert]
  split
  · next bound =>
    by_cases same : name = declared
    · rw [same, bound, Option.some_or]
    · rw [if_neg same, Option.or_none]
  · rw [get?, List.lookup_append, get?]
    congr 1
    by_cases same : name = declared
    · rw [same, List.lookup_cons_self, if_pos rfl]
    · rw [if_neg same, List.lookup_cons, beq_eq_false_iff_ne.mpr same]
      rfl

/-- A name is looked up among the earlier bindings first, then among the lines. -/
theorem get?_addLines (index : Nat) (lines : List Line) (t : LabelTable) (name : List Char) :
    (addLines index lines t).get? name =
      (t.get? name).or ((lines.findIdx? fun line =>
        declaredLabel? line.first.text = some name).map (index + ·)) := by
  induction lines generalizing index t with
  | nil => simp [addLines]
  | cons line rest ih =>
    rw [addLines, ih, List.findIdx?_cons]
    have shifted : ∀ found : Option Nat,
        (found.map (· + 1)).map (index + ·) = found.map (index + 1 + ·) := by
      intro found
      rw [Option.map_map]
      congr 1
      funext i
      exact Nat.add_right_comm index i 1
    cases declared : declaredLabel? line.first.text with
    | none =>
      simp only [reduceCtorEq, decide_false, Bool.false_eq_true, if_false, shifted]
    | some other =>
      simp only [get?_insert, Option.or_assoc, Option.some.injEq, decide_eq_true_eq,
        eq_comm (a := other)]
      split
      · rfl
      · rw [Option.none_or, shifted]

theorem get?_ofLines {lines : List Line} {name : List Char} {i : Nat} :
    (ofLines lines).get? name = some i ↔ FirstDeclaration lines name i := by
  have none : empty.get? name = none := rfl
  simp only [ofLines, get?_addLines, none, Option.none_or, Nat.zero_add, Option.map_id_fun',
    id_eq, findIdx?_declares_iff]

theorem get?_ofLines_eq_none_iff {lines : List Line} {name : List Char} :
    (ofLines lines).get? name = none ↔ ∀ line ∈ lines, ¬line.Declares name := by
  have none : empty.get? name = none := rfl
  simp only [ofLines, get?_addLines, none, Option.none_or, Option.map_eq_none_iff,
    List.findIdx?_eq_none_iff, decide_eq_false_iff_not, declaredLabel?_first_iff]

end LabelTable

theorem FirstDeclaration.lt_length {lines : List Line} {name : List Char} {i : Nat}
    (first : FirstDeclaration lines name i) : i < lines.length := by
  obtain ⟨_, listed, _⟩ := first.declared
  exact (List.getElem?_eq_some_iff.mp listed).1

theorem FirstDeclaration.unique {lines : List Line} {name : List Char} {i i' : Nat}
    (first : FirstDeclaration lines name i) (first' : FirstDeclaration lines name i') : i = i' := by
  have found := LabelTable.get?_ofLines.mpr first
  rw [LabelTable.get?_ofLines.mpr first'] at found
  exact (Option.some.inj found).symm

end AccumulatorMachine.Source
