import AccumulatorMachine.Numeral.Read
import Mathlib.Data.List.Forall2
import Mathlib.Data.Nat.Digits.Defs
import Mathlib.Tactic.IntervalCases

/-! What a numeral denotes, said without reading it: a text has one digit or more, and the
number is theirs. Reading finds that number, and finds none where there is none. -/
namespace AccumulatorMachine.Numeral

/-- A character that stands for a digit of a base, letters in either case. -/
def IsDigit (base : Nat) (c : Char) (d : Nat) : Prop :=
  d < base ∧ (c = Nat.digitChar d ∨ c = (Nat.digitChar d).toUpper)

/-- The most significant digit comes first. -/
def Denotes (base : Nat) (text : List Char) (n : Nat) : Prop :=
  text ≠ [] ∧ ∃ digits, List.Forall₂ (IsDigit base) text digits ∧
    n = Nat.ofDigits base digits.reverse

theorem digitValue?_eq_some_iff {c : Char} {d : Nat} (bound : d < 16) :
    digitValue? c = some d ↔ c = Nat.digitChar d ∨ c = (Nat.digitChar d).toUpper := by
  constructor
  · intro value
    have known : c = Char.ofNat c.toNat := c.ofNat_toNat.symm
    simp only [digitValue?, Char.le_def, UInt32.le_iff_toNat_le, Char.toNat_val] at value
    split_ifs at value with figure small capital
    · obtain ⟨_, _⟩ : 48 ≤ c.toNat ∧ c.toNat ≤ 57 := figure
      have code : c.toNat - 48 = d := Option.some.inj value
      obtain ⟨figures, code⟩ : d < 10 ∧ c.toNat = d + 48 := by omega
      rw [known, code]
      exact .inl (by interval_cases d <;> rfl)
    · obtain ⟨_, _⟩ : 97 ≤ c.toNat ∧ c.toNat ≤ 122 := small
      have code : c.toNat - 97 + 10 = d := Option.some.inj value
      obtain ⟨letters, code⟩ : 10 ≤ d ∧ c.toNat = d + 87 := by omega
      rw [known, code]
      exact .inl (by interval_cases d <;> rfl)
    · obtain ⟨_, _⟩ : 65 ≤ c.toNat ∧ c.toNat ≤ 90 := capital
      have code : c.toNat - 65 + 10 = d := Option.some.inj value
      obtain ⟨letters, code⟩ : 10 ≤ d ∧ c.toNat = d + 55 := by omega
      rw [known, code]
      exact .inr (by interval_cases d <;> rfl)
  · rintro (rfl | rfl)
    · interval_cases d <;> rfl
    · interval_cases d <;> rfl

theorem digit?_eq_some_iff {base : Nat} (small : base ≤ 16) {c : Char} {d : Nat} :
    digit? base c = some d ↔ IsDigit base c d := by
  rw [digit?, Option.filter_eq_some_iff, decide_eq_true_eq, IsDigit, and_comm]
  exact and_congr_right fun below => digitValue?_eq_some_iff (below.trans_le small)

theorem continue?_eq_some_iff {base : Nat} (small : base ≤ 16) {high n : Nat}
    {text : List Char} :
    continue? base high text = some n ↔
      ∃ digits, List.Forall₂ (IsDigit base) text digits ∧
        n = Nat.ofDigits base digits.reverse + high * base ^ digits.length := by
  induction text generalizing high with
  | nil => simp [continue?, eq_comm (a := high)]
  | cons c rest ih =>
    simp only [continue?, Option.bind_eq_some_iff, digit?_eq_some_iff small, ih,
      List.forall₂_cons_left_iff]
    constructor
    · rintro ⟨d, first, digits, others, rfl⟩
      refine ⟨d :: digits, ⟨d, digits, first, others, rfl⟩, ?_⟩
      rw [List.reverse_cons, Nat.ofDigits_append, Nat.ofDigits_singleton, List.length_reverse,
        List.length_cons, pow_succ]
      ring
    · rintro ⟨_, ⟨d, digits, first, others, rfl⟩, rfl⟩
      refine ⟨d, first, digits, others, ?_⟩
      rw [List.reverse_cons, Nat.ofDigits_append, Nat.ofDigits_singleton, List.length_reverse,
        List.length_cons, pow_succ]
      ring

/-- Reading is sound and complete, also on the texts that are no numerals. -/
theorem read?_eq_some_iff {base : Nat} (small : base ≤ 16) {text : List Char} {n : Nat} :
    read? base text = some n ↔ Denotes base text n := by
  simp only [read?, Denotes, List.isEmpty_iff]
  split
  · next empty => simp [empty]
  · next full => simp [continue?_eq_some_iff small, full]

theorem Denotes.exists_isDigit {base : Nat} {text : List Char} {n : Nat}
    (denotes : Denotes base text n) : ∀ c ∈ text, ∃ d, IsDigit base c d := by
  obtain ⟨_, digits, written, _⟩ := denotes
  clear * - written
  induction written with
  | nil => simp
  | cons first _ ih => exact List.forall_mem_cons.mpr ⟨⟨_, first⟩, ih⟩

theorem readBelow?_eq_some_iff {bound base : Nat} (small : base ≤ 16) {text : List Char}
    {n : Nat} : readBelow? bound base text = some n ↔ Denotes base text n ∧ n < bound := by
  rw [readBelow?, Option.filter_eq_some_iff, read?_eq_some_iff small, decide_eq_true_eq]

variable {base n : Nat} {text : List Char}

theorem Denotes.unique (small : base ≤ 16) {n' : Nat} (denotes : Denotes base text n)
    (denotes' : Denotes base text n') : n = n' := by
  have first := (read?_eq_some_iff small).mpr denotes
  have second := (read?_eq_some_iff small).mpr denotes'
  exact Option.some.inj (first.symm.trans second)

theorem Denotes.zero_cons (positive : 0 < base) (denotes : Denotes base text n) :
    Denotes base ('0' :: text) n := by
  obtain ⟨_, digits, written, rfl⟩ := denotes
  refine ⟨List.cons_ne_nil _ _, 0 :: digits, .cons ⟨positive, .inl rfl⟩ written, ?_⟩
  rw [List.reverse_cons, Nat.ofDigits_append, Nat.ofDigits_singleton, Nat.mul_zero, Nat.add_zero]

/-- Zeros in front do not count. -/
theorem Denotes.zeros (positive : 0 < base) (denotes : Denotes base text n) (k : Nat) :
    Denotes base (List.replicate k '0' ++ text) n := by
  induction k with
  | zero => exact denotes
  | succ k ih =>
    rw [List.replicate_succ, List.cons_append]
    exact ih.zero_cons positive

theorem Denotes.notMem (small : base ≤ 16) (denotes : Denotes base text n) {c : Char}
    (none : digitValue? c = none) : c ∉ text := by
  intro member
  obtain ⟨d, below, written⟩ := denotes.exists_isDigit c member
  rw [← digitValue?_eq_some_iff (by omega), none] at written
  contradiction

/-- A sign is not a digit. -/
theorem Denotes.sign_notMem (small : base ≤ 16) (denotes : Denotes base text n) {c : Char}
    (sign : c = '+' ∨ c = '-') : c ∉ text := by
  obtain rfl | rfl := sign
  · exact denotes.notMem small rfl
  · exact denotes.notMem small rfl

/-- Any row of binary digits is a numeral. -/
theorem exists_denotes_two_iff :
    (∃ n, Denotes 2 text n) ↔ text ≠ [] ∧ ∀ c ∈ text, c = '0' ∨ c = '1' := by
  constructor
  · rintro ⟨n, denotes⟩
    refine ⟨denotes.1, fun c member => ?_⟩
    obtain ⟨d, below, written⟩ := denotes.exists_isDigit c member
    interval_cases d
    · exact .inl (written.elim id id)
    · exact .inr (written.elim id id)
  · rintro ⟨some, bits⟩
    have digits : ∃ digits, List.Forall₂ (IsDigit 2) text digits := by
      clear some
      induction text with
      | nil => exact ⟨[], .nil⟩
      | cons c rest ih =>
        obtain ⟨first, others⟩ := List.forall_mem_cons.mp bits
        obtain ⟨digits, written⟩ := ih others
        obtain rfl | rfl := first
        · exact ⟨0 :: digits, .cons ⟨by decide, .inl rfl⟩ written⟩
        · exact ⟨1 :: digits, .cons ⟨by decide, .inl rfl⟩ written⟩
    obtain ⟨digits, written⟩ := digits
    exact ⟨_, some, digits, written, rfl⟩

end AccumulatorMachine.Numeral
