import AccumulatorMachine.Source.Line

/-! Labels and the instructions they mark. A declaration is letters with a colon after
them, in the first field of a line. A name keeps the first place it is bound to. -/
namespace AccumulatorMachine.Source

/-- Names of labels, each with the number of an instruction, in the order of declaration. -/
structure LabelTable where
  bindings : List (List Char × Nat) := []
  deriving DecidableEq, Repr

namespace LabelTable

def empty : LabelTable := {}

def get? (t : LabelTable) (name : List Char) : Option Nat :=
  t.bindings.lookup name

/-- Binds a name that has no binding yet. -/
def insert (t : LabelTable) (name : List Char) (index : Nat) : LabelTable :=
  match t.get? name with
  | some _ => t
  | none => ⟨t.bindings ++ [(name, index)]⟩

def size (t : LabelTable) : Nat :=
  t.bindings.length

def isEmpty (t : LabelTable) : Bool :=
  t.bindings.isEmpty

end LabelTable

/-- The name that a token declares. -/
def declaredLabel? (token : List Char) : Option (List Char) :=
  let name := token.takeWhile Char.isAlpha
  if !name.isEmpty && token.dropWhile Char.isAlpha == [':'] then some name else none

namespace LabelTable

/-- A table with the declarations of lines added, the first of which has a number. -/
def addLines (index : Nat) : List Line → LabelTable → LabelTable
  | [], t => t
  | line :: rest, t =>
    addLines (index + 1) rest <|
      match declaredLabel? line.first.text with
      | some name => t.insert name index
      | none => t

/-- The labels that lines declare. Every line is one instruction, so that the number of
a line among them is the number of the instruction. -/
def ofLines (lines : List Line) : LabelTable :=
  addLines 0 lines empty

end LabelTable

theorem declaredLabel?_eq_some_iff {token name : List Char} :
    declaredLabel? token = some name ↔
      name ≠ [] ∧ (∀ c ∈ name, c.isAlpha = true) ∧ token = name ++ [':'] := by
  simp only [declaredLabel?]
  constructor
  · intro h
    split at h
    · next hc =>
      simp only [Bool.and_eq_true, Bool.not_eq_true', List.isEmpty_eq_false_iff, beq_iff_eq] at hc
      obtain rfl := Option.some.inj h
      refine ⟨hc.1, List.all_eq_true.mp List.all_takeWhile, ?_⟩
      rw [← hc.2, List.takeWhile_append_dropWhile]
    · cases h
  · rintro ⟨ne, letters, rfl⟩
    have keep : (name ++ [':']).takeWhile Char.isAlpha = name := by
      rw [List.takeWhile_append_of_pos letters]
      simp
    have rest : (name ++ [':']).dropWhile Char.isAlpha = [':'] := by
      rw [List.dropWhile_append_of_pos letters]
      simp
    simp [keep, rest, ne]

end AccumulatorMachine.Source
