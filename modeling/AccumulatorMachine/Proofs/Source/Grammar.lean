import AccumulatorMachine.Proofs.Source.Reference
import AccumulatorMachine.Proofs.Text.Utf8

/-! The grammar of operand tokens, from the token's side: what a token is read as is decided by
what it opens with and by the number that its digits denote, however they are written. -/
namespace AccumulatorMachine.Source

open Numeral

/-- What literals open with, and the base of the digits that follow. -/
def Literal.openings : List (List Char × Nat) :=
  [(['#'], 10), (['#', '-'], 10), (['&'], 16), (['B'], 2)]

variable {token : List Char} {word : UInt64}

/-- A token that sets out as a literal is read as the integer that it writes, if it writes one. -/
theorem ofToken_eq_value_iff (looks : LooksLiteral token) :
    Operand.ofToken token = .value word ↔ ∃ z, Literal token z ∧ UInt64.ofInt z = word := by
  obtain ⟨kind, opens⟩ := looks
  have some : token.isEmpty = false := by
    cases opens with
    | decimal | hexadecimal | binary => rfl
  rw [← LiteralKind.value?_eq_some_iff opens]
  simp only [Operand.ofToken, some, LiteralKind.of?_eq_some_iff.mpr opens, Bool.false_eq_true,
    if_false]
  cases kind.value? token.tail with
  | none => simp
  | some number => simp

theorem ofToken_name (r : Register) :
    Operand.ofToken r.name.toList = .value (UInt64.ofNat r.index) := by
  cases r <;> rfl

/-- The ways to read a token exclude each other. -/
theorem ofToken_eq_iff {o : Operand} : Operand.ofToken token = o ↔ OperandReads token o := by
  constructor
  · rintro rfl
    exact operandReads_ofToken token
  · rintro reads
    cases reads with
    | absent => rfl
    | literal written => exact (ofToken_eq_value_iff written.looksLiteral).mpr ⟨_, written, rfl⟩
    | malformed looks broken => exact ofToken_eq_malformed_iff.mpr ⟨rfl, looks, broken⟩
    | register r => exact ofToken_name r
    | label some plain free => exact ofToken_eq_label_iff.mpr ⟨rfl, some, plain, free⟩

/-- A malformed token has a mark and no number after it, or more binary digits than a word has. -/
theorem malformed_iff : Malformed token ↔
    ((∃ rest, token = '#' :: rest) ∨ ∃ rest, token = '&' :: rest) ∧ (∀ z, ¬Literal token z) ∨
      ∃ digits n, token = 'B' :: digits ∧ Denotes 2 digits n ∧ 2 ^ 64 ≤ n := by
  constructor
  · rintro ⟨⟨kind, opens⟩, broken⟩
    cases opens with
    | decimal => exact .inl ⟨.inl ⟨_, rfl⟩, broken⟩
    | hexadecimal => exact .inl ⟨.inr ⟨_, rfl⟩, broken⟩
    | binary some bits =>
      obtain ⟨n, denotes⟩ := exists_denotes_two_iff.mpr ⟨some, bits⟩
      refine .inr ⟨_, n, rfl, denotes, ?_⟩
      by_contra fits
      exact broken n (.binary denotes (Nat.lt_of_not_le fits))
  · rintro (⟨marked, broken⟩ | ⟨digits, n, rfl, denotes, large⟩)
    · obtain ⟨rest, rfl⟩ | ⟨rest, rfl⟩ := marked
      · exact ⟨⟨_, .decimal⟩, broken⟩
      · exact ⟨⟨_, .hexadecimal⟩, broken⟩
    · obtain ⟨some, bits⟩ := exists_denotes_two_iff.mp ⟨n, denotes⟩
      refine ⟨⟨_, .binary some bits⟩, ?_⟩
      rintro z written
      cases written with
      | binary denotes' fits =>
        have same := denotes.unique (by decide) denotes'
        omega

section Openings

variable {text : List Char} {n : Nat} {z : Int}

theorem literal_decimal_iff (denotes : Denotes 10 text n) :
    Literal ('#' :: text) z ↔ n < 2 ^ 63 ∧ z = n := by
  constructor
  · intro written
    cases written with
    | decimal denotes' fits =>
      obtain rfl := denotes.unique (by decide) denotes'
      exact ⟨fits, rfl⟩
    | negative => exact absurd List.mem_cons_self (denotes.sign_notMem (by decide) (.inr rfl))
  · rintro ⟨fits, rfl⟩
    exact .decimal denotes fits

theorem literal_negative_iff (denotes : Denotes 10 text n) :
    Literal ('#' :: '-' :: text) z ↔ n ≤ 2 ^ 63 ∧ z = -n := by
  constructor
  · intro written
    cases written with
    | decimal signed => exact absurd List.mem_cons_self (signed.sign_notMem (by decide) (.inr rfl))
    | negative denotes' fits =>
      obtain rfl := denotes.unique (by decide) denotes'
      exact ⟨fits, rfl⟩
  · rintro ⟨fits, rfl⟩
    exact .negative denotes fits

theorem literal_hexadecimal_iff (denotes : Denotes 16 text n) :
    Literal ('&' :: text) z ↔ n < 2 ^ 64 ∧ z = n := by
  constructor
  · rintro (_ | _ | ⟨denotes', fits⟩)
    obtain rfl := denotes.unique (by decide) denotes'
    exact ⟨fits, rfl⟩
  · rintro ⟨fits, rfl⟩
    exact .hexadecimal denotes fits

theorem literal_binary_iff (denotes : Denotes 2 text n) :
    Literal ('B' :: text) z ↔ n < 2 ^ 64 ∧ z = n := by
  constructor
  · rintro (_ | _ | _ | ⟨denotes', fits⟩)
    obtain rfl := denotes.unique (by decide) denotes'
    exact ⟨fits, rfl⟩
  · rintro ⟨fits, rfl⟩
    exact .binary denotes fits

/-- A numeral that comes after an opening is read as its number, however it is written. -/
theorem ofToken_eq_value_iff_of_denotes {opening text' : List Char} {base : Nat}
    (listed : (opening, base) ∈ Literal.openings) (denotes : Denotes base text n)
    (denotes' : Denotes base text' n) :
    Operand.ofToken (opening ++ text) = .value word ↔
      Operand.ofToken (opening ++ text') = .value word := by
  simp only [Literal.openings, List.mem_cons, List.not_mem_nil, or_false, Prod.mk.injEq] at listed
  obtain ⟨rfl, rfl⟩ | ⟨rfl, rfl⟩ | ⟨rfl, rfl⟩ | ⟨rfl, rfl⟩ := listed
  · have looks : ∀ text, LooksLiteral ('#' :: text) := fun _ => ⟨_, .decimal⟩
    simp only [List.singleton_append, ofToken_eq_value_iff (looks _), literal_decimal_iff denotes,
      literal_decimal_iff denotes']
  · have looks : ∀ text, LooksLiteral ('#' :: '-' :: text) := fun _ => ⟨_, .decimal⟩
    simp only [List.cons_append, List.nil_append, ofToken_eq_value_iff (looks _),
      literal_negative_iff denotes, literal_negative_iff denotes']
  · have looks : ∀ text, LooksLiteral ('&' :: text) := fun _ => ⟨_, .hexadecimal⟩
    simp only [List.singleton_append, ofToken_eq_value_iff (looks _),
      literal_hexadecimal_iff denotes, literal_hexadecimal_iff denotes']
  · have looks : ∀ {text}, Denotes 2 text n → LooksLiteral ('B' :: text) := by
      intro text denotes
      obtain ⟨some, bits⟩ := exists_denotes_two_iff.mp ⟨n, denotes⟩
      exact ⟨_, .binary some bits⟩
    simp only [List.singleton_append, ofToken_eq_value_iff (looks denotes),
      ofToken_eq_value_iff (looks denotes'), literal_binary_iff denotes,
      literal_binary_iff denotes']

end Openings

theorem Literal.plus_notMem {z : Int} (written : Literal token z) : '+' ∉ token := by
  cases written with
  | decimal denotes | hexadecimal denotes | binary denotes =>
    simp only [List.mem_cons, not_or]
    exact ⟨by decide, denotes.sign_notMem (by decide) (.inl rfl)⟩
  | negative denotes =>
    simp only [List.mem_cons, not_or]
    exact ⟨by decide, by decide, denotes.sign_notMem (by decide) (.inl rfl)⟩

/-- The names of registers are without a plus sign as well. -/
theorem ofToken_ne_value_of_plus (plus : '+' ∈ token) : Operand.ofToken token ≠ .value word := by
  intro read
  rw [ofToken_eq_iff] at read
  cases read with
  | absent => cases plus
  | literal written => exact written.plus_notMem plus
  | register r => cases r <;> contradiction

/-- What a literal opens with takes one byte. -/
theorem drop_one_encode {kind : LiteralKind} (opens : kind.Opens token) :
    (Text.Utf8.encode token).drop 1 = Text.Utf8.encode token.tail := by
  cases opens with
  | decimal | hexadecimal | binary =>
    rw [Text.Utf8.encode_cons]
    rfl

theorem not_looksLiteral_of_letters (letters : ∀ c ∈ token, c.isAlpha = true) :
    ¬LooksLiteral token := by
  rintro ⟨kind, opens⟩
  cases opens with
  | decimal | hexadecimal => exact absurd (letters _ List.mem_cons_self) (by decide)
  | @binary digits some bits =>
    obtain ⟨c, member⟩ := List.exists_mem_of_ne_nil digits some
    have letter := letters c (List.mem_cons_of_mem _ member)
    obtain rfl | rfl := bits c member
    · contradiction
    · contradiction

/-- What a token is read as, and what is never read into one. -/
structure OperandGrammar (token : List Char) : Prop where
  reads : ∀ o, Operand.ofToken token = o ↔ OperandReads token o
  literal : ∀ z, Literal token z → ∃ word, Operand.ofToken token = .value word ∧
    (word.toNat : Int) = z % 2 ^ 64
  malformed : ∀ text, Operand.ofToken token = .malformed text ↔ text = token ∧
    (((∃ rest, token = '#' :: rest) ∨ ∃ rest, token = '&' :: rest) ∧ (∀ z, ¬Literal token z) ∨
      ∃ digits n, token = 'B' :: digits ∧ Denotes 2 digits n ∧ 2 ^ 64 ≤ n)
  zeros : ∀ opening base, (opening, base) ∈ Literal.openings → ∀ digits n, Denotes base digits n →
    token = opening ++ digits → ∀ k word,
      Operand.ofToken (opening ++ (List.replicate k '0' ++ digits)) = .value word ↔
        Operand.ofToken token = .value word
  plus : '+' ∈ token → ∀ word, Operand.ofToken token ≠ .value word
  /-- The first byte of a literal is its first character. -/
  slice : ∀ kind, LiteralKind.of? token = some kind →
    (Text.Utf8.encode token).drop 1 = Text.Utf8.encode token.tail
  declarable : ∀ declaration, declaredLabel? declaration = some token → ¬LooksLiteral token ∧
    (Operand.ofToken token = .label token ∨ ∃ r : Register, token = r.name.toList)

/-- The grammar holds of every token, whatever characters it has. -/
theorem operandGrammar (token : List Char) : OperandGrammar token where
  reads _ := ofToken_eq_iff
  literal z written :=
    ⟨_, (ofToken_eq_value_iff written.looksLiteral).mpr ⟨z, written, rfl⟩, toNat_ofInt z⟩
  malformed _ := by rw [ofToken_eq_malformed_iff, malformed_iff]
  zeros := by
    rintro opening base listed digits n denotes rfl k word
    have positive : 0 < base := by
      simp only [Literal.openings, List.mem_cons, List.not_mem_nil, or_false, Prod.mk.injEq]
        at listed
      omega
    exact ofToken_eq_value_iff_of_denotes listed (denotes.zeros positive k) denotes
  plus plus _ := ofToken_ne_value_of_plus plus
  slice _ opens := drop_one_encode (LiteralKind.of?_eq_some_iff.mp opens)
  declarable := by
    intro declaration declared
    obtain ⟨some, letters, _⟩ := declaredLabel?_eq_some_iff.mp declared
    have plain := not_looksLiteral_of_letters letters
    refine ⟨plain, ?_⟩
    by_cases named : ∃ r : Register, token = r.name.toList
    · exact .inr named
    · exact .inl (ofToken_eq_label_iff.mpr ⟨rfl, some, plain, not_exists.mp named⟩)

end AccumulatorMachine.Source
