import AccumulatorMachine.Proofs.Source.LabelTable
import AccumulatorMachine.Proofs.Source.Operand
import AccumulatorMachine.Proofs.Source.Place
import AccumulatorMachine.Source.Statement

/-! The operand of a line: the field that it stands in, and when it refers to a label. -/
namespace AccumulatorMachine.Source

/-- The field of the operand of a line. It stands past the declaration of a label. -/
inductive Line.HasOperand (line : Line) : Field → Prop
  | labelled (declares : line.Declares name) : HasOperand line line.third
  | plain (none : ∀ name, ¬line.Declares name) : HasOperand line line.second

/-- A token that sets out as a literal and is none. -/
structure Malformed (token : List Char) : Prop where
  looks : LooksLiteral token
  broken : ∀ z, ¬Literal token z

/-- A token that can only be the name of a label. -/
structure NamesLabel (token : List Char) : Prop where
  named : token ≠ []
  plain : ¬LooksLiteral token
  free : ∀ r : Register, token ≠ r.name.toList

/-- The operand of the line is the name of a label, declared or not. -/
def Line.Refers (line : Line) : Prop :=
  ∃ field, line.HasOperand field ∧ NamesLabel field.text

theorem Literal.looksLiteral {token : List Char} {z : Int} (literal : Literal token z) :
    LooksLiteral token := by
  cases literal with
  | decimal | negative => exact ⟨_, .decimal⟩
  | hexadecimal => exact ⟨_, .hexadecimal⟩
  | binary digits =>
    obtain ⟨some, bits⟩ := Numeral.exists_denotes_two_iff.mp ⟨_, digits⟩
    exact ⟨_, .binary some bits⟩

theorem not_looksLiteral_name (r : Register) : ¬LooksLiteral r.name.toList := by
  rw [← isSome_of?_iff]
  cases r <;> decide

theorem ofToken_eq_malformed_iff {token text : List Char} :
    Operand.ofToken token = .malformed text ↔ text = token ∧ Malformed token := by
  have reads := operandReads_ofToken token
  generalize Operand.ofToken token = operand at reads
  constructor
  · rintro rfl
    cases reads with
    | malformed looks broken => exact ⟨rfl, looks, broken⟩
  · rintro ⟨rfl, looks, broken⟩
    cases reads with
    | absent =>
      obtain ⟨_, opens⟩ := looks
      cases opens
    | literal written => exact absurd written (broken _)
    | malformed => rfl
    | register r => exact absurd looks (not_looksLiteral_name r)
    | label _ plain => exact absurd looks plain

theorem ofToken_eq_label_iff {token name : List Char} :
    Operand.ofToken token = .label name ↔ name = token ∧ NamesLabel token := by
  have reads := operandReads_ofToken token
  generalize Operand.ofToken token = operand at reads
  constructor
  · rintro rfl
    cases reads with
    | label named plain free => exact ⟨rfl, named, plain, free⟩
  · rintro ⟨rfl, named, plain, free⟩
    cases reads with
    | absent => contradiction
    | literal written => exact absurd written.looksLiteral plain
    | malformed looks => exact absurd looks plain
    | register r => exact absurd rfl (free r)
    | label => rfl

namespace Line

theorem exists_hasOperand (line : Line) : ∃ field, line.HasOperand field := by
  by_cases labelled : ∃ name, line.Declares name
  · obtain ⟨name, declares⟩ := labelled
    exact ⟨_, .labelled declares⟩
  · exact ⟨_, .plain (not_exists.mp labelled)⟩

variable {line : Line} {field : Field}

theorem HasOperand.mem_fields (operand : line.HasOperand field) : field ∈ line.fields := by
  cases operand with
  | labelled => simp [fields]
  | plain => simp [fields]

theorem HasOperand.unique {other : Field} (operand : line.HasOperand field)
    (operand' : line.HasOperand other) : field = other := by
  cases operand with
  | labelled declares =>
    cases operand' with
    | labelled => rfl
    | plain none => exact absurd declares (none _)
  | plain none =>
    cases operand' with
    | labelled declares => exact absurd declares (none _)
    | plain => rfl

/-- The statement of a line has the operand of the line, at its place. -/
theorem HasOperand.exists_ofFields (operand : line.HasOperand field) :
    ∃ label mnemonic,
      Statement.ofLine line = .ofFields label mnemonic field line.number := by
  cases operand with
  | labelled declares =>
    exact ⟨_, _, by rw [Statement.ofLine, declaredLabel?_first_iff.mpr declares]⟩
  | plain none =>
    have undeclared : declaredLabel? line.first.text = .none := by
      rw [Option.eq_none_iff_forall_ne_some]
      intro name declared
      exact none name (declaredLabel?_first_iff.mp declared)
    exact ⟨_, _, by rw [Statement.ofLine, undeclared]⟩

end Line

end AccumulatorMachine.Source
