import AccumulatorMachine.Proofs.Numeral.Denotes
import AccumulatorMachine.Proofs.Word.Width
import AccumulatorMachine.Source.Operand

/-! The grammar of operands. What a token is read as is decided by its characters alone, and
of the ways to read it only one applies. -/
namespace AccumulatorMachine.Source

/-- The tokens that set out as literals of a kind, malformed or not. -/
inductive LiteralKind.Opens : LiteralKind → List Char → Prop
  | decimal : Opens .decimal ('#' :: text)
  | hexadecimal : Opens .hexadecimal ('&' :: text)
  | binary (some : digits ≠ []) (bits : ∀ c ∈ digits, c = '0' ∨ c = '1') :
      Opens .binary ('B' :: digits)

def LooksLiteral (token : List Char) : Prop :=
  ∃ kind : LiteralKind, kind.Opens token

/-- A literal and the integer that it writes. No sign stands but a minus after `#`. -/
inductive Literal : List Char → Int → Prop
  | decimal (digits : Numeral.Denotes 10 text n) (fits : n < 2 ^ 63) : Literal ('#' :: text) n
  | negative (digits : Numeral.Denotes 10 text n) (fits : n ≤ 2 ^ 63) :
      Literal ('#' :: '-' :: text) (-n)
  | hexadecimal (digits : Numeral.Denotes 16 text n) (fits : n < 2 ^ 64) :
      Literal ('&' :: text) n
  | binary (digits : Numeral.Denotes 2 text n) (fits : n < 2 ^ 64) : Literal ('B' :: text) n

/-- What an operand token is read as. -/
inductive OperandReads : List Char → Operand → Prop
  | absent : OperandReads [] (.value 0)
  | literal (written : Literal token z) : OperandReads token (.value (UInt64.ofInt z))
  | malformed (looks : LooksLiteral token) (broken : ∀ z, ¬Literal token z) :
      OperandReads token (.malformed token)
  | register (r : Register) : OperandReads r.name.toList (.value (UInt64.ofNat r.index))
  | label (some : token ≠ []) (plain : ¬LooksLiteral token)
      (free : ∀ r : Register, token ≠ r.name.toList) : OperandReads token (.label token)

/-- No literal is all letters: they have a mark, or a digit past a `B`. -/
theorem Literal.exists_not_letter {token : List Char} {z : Int} (literal : Literal token z) :
    ∃ c ∈ token, c.isAlpha = false := by
  cases literal with
  | decimal | negative | hexadecimal => exact ⟨_, List.mem_cons_self, rfl⟩
  | @binary text n digits fits =>
    cases text with
    | nil => exact absurd rfl digits.1
    | cons c rest =>
      obtain ⟨d, below, written⟩ := digits.exists_isDigit c List.mem_cons_self
      refine ⟨c, List.mem_cons_of_mem _ List.mem_cons_self, ?_⟩
      rcases written with rfl | rfl
      · interval_cases d <;> rfl
      · interval_cases d <;> rfl

namespace LiteralKind

theorem of?_eq_some_iff {token : List Char} {kind : LiteralKind} :
    of? token = some kind ↔ kind.Opens token := by
  constructor
  · intro known
    simp only [of?] at known
    split at known
    · cases known
      exact .decimal
    · cases known
      exact .hexadecimal
    · split at known
      · next bits =>
        cases known
        simp only [Bool.and_eq_true, Bool.not_eq_true', List.isEmpty_eq_false_iff, isBinaryDigit,
          List.all_eq_true, Bool.or_eq_true, beq_iff_eq] at bits
        exact .binary bits.1 bits.2
      · contradiction
    · contradiction
  · rintro (_ | _ | ⟨some, bits⟩)
    · rfl
    · rfl
    · simp only [of?]
      refine if_pos ?_
      simpa [isBinaryDigit, some] using bits

theorem signed?_eq_some_iff {text : List Char} {z : Int} :
    signed? text = some z ↔ Literal ('#' :: text) z := by
  have half : UInt64.size / 2 = 2 ^ 63 := rfl
  constructor
  · intro value
    simp only [signed?, half] at value
    split at value
    · obtain ⟨n, below, rfl⟩ := Option.map_eq_some_iff.mp value
      obtain ⟨digits, fits⟩ := (Numeral.readBelow?_eq_some_iff (by omega)).mp below
      exact .negative digits (by omega)
    · obtain ⟨n, below, rfl⟩ := Option.map_eq_some_iff.mp value
      obtain ⟨digits, fits⟩ := (Numeral.readBelow?_eq_some_iff (by omega)).mp below
      exact .decimal digits fits
  · intro literal
    generalize same : '#' :: text = token at literal
    cases literal with
    | @decimal text n digits fits =>
      obtain rfl := (List.cons.inj same).2
      simp only [signed?, half]
      split
      · next rest =>
        have minus := (Numeral.read?_eq_some_iff (by omega)).mpr digits
        contradiction
      · rw [(Numeral.readBelow?_eq_some_iff (by omega)).mpr ⟨digits, fits⟩]
        rfl
    | negative digits fits =>
      obtain rfl := (List.cons.inj same).2
      have below : Numeral.readBelow? (2 ^ 63 + 1) 10 _ = some _ :=
        (Numeral.readBelow?_eq_some_iff (by omega)).mpr ⟨digits, by omega⟩
      simp only [signed?, half, below, Option.map_some]
    | hexadecimal | binary => simp at same

theorem value?_eq_some_iff {kind : LiteralKind} {token : List Char} {word : UInt64}
    (opens : kind.Opens token) :
    kind.value? token.tail = some word ↔ ∃ z, Literal token z ∧ UInt64.ofInt z = word := by
  have unsigned : ∀ n : Nat, UInt64.ofInt n = UInt64.ofNat n := by
    intro n
    rw [← UInt64.toNat_inj, UInt64.toNat_ofNat']
    exact_mod_cast toNat_ofInt n
  cases opens with
  | decimal =>
    simp only [value?, List.tail_cons, Option.map_eq_some_iff, signed?_eq_some_iff]
  | hexadecimal =>
    simp only [value?, List.tail_cons, Option.map_eq_some_iff,
      Numeral.readBelow?_eq_some_iff (Nat.le_refl 16)]
    constructor
    · rintro ⟨n, ⟨digits, fits⟩, rfl⟩
      exact ⟨n, .hexadecimal digits fits, unsigned n⟩
    · rintro ⟨z, written, rfl⟩
      cases written with
      | hexadecimal digits fits => exact ⟨_, ⟨digits, fits⟩, (unsigned _).symm⟩
  | binary =>
    simp only [value?, List.tail_cons, Option.map_eq_some_iff,
      Numeral.readBelow?_eq_some_iff (show 2 ≤ 16 by omega)]
    constructor
    · rintro ⟨n, ⟨digits, fits⟩, rfl⟩
      exact ⟨n, .binary digits fits, unsigned n⟩
    · rintro ⟨z, written, rfl⟩
      cases written with
      | binary digits fits => exact ⟨_, ⟨digits, fits⟩, (unsigned _).symm⟩

end LiteralKind

theorem isSome_of?_iff {token : List Char} :
    (LiteralKind.of? token).isSome = true ↔ LooksLiteral token := by
  simp only [Option.isSome_iff_exists, LiteralKind.of?_eq_some_iff, LooksLiteral]

theorem operandReads_ofToken (token : List Char) : OperandReads token (.ofToken token) := by
  simp only [Operand.ofToken, List.isEmpty_iff]
  split
  · next absent =>
    subst absent
    exact .absent
  · next some =>
    split
    · next kind opens =>
      have opens := LiteralKind.of?_eq_some_iff.mp opens
      split
      · next word value =>
        obtain ⟨z, written, rfl⟩ := (LiteralKind.value?_eq_some_iff opens).mp value
        exact .literal written
      · next broken =>
        refine .malformed ⟨kind, opens⟩ fun z written => ?_
        have value := (LiteralKind.value?_eq_some_iff opens).mpr ⟨z, written, rfl⟩
        rw [broken] at value
        contradiction
    · next plain =>
      split
      · next r named =>
        rw [Register.eq_name_of_ofName? named]
        exact .register r
      · next free =>
        refine .label some (fun looks => ?_) fun r named => ?_
        · rw [← isSome_of?_iff, plain] at looks
          contradiction
        · rw [named, Register.ofName?_name] at free
          contradiction

end AccumulatorMachine.Source
