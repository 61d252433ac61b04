import AccumulatorMachine.Numeral.Written
import AccumulatorMachine.Proofs.Numeral.Denotes
import Mathlib.Algebra.Group.Nat.Defs

/-! Written numerals: how many characters they take, and that they denote what was written. -/
namespace AccumulatorMachine.Numeral

/-- A number below `base ^ count` fills its column exactly. -/
theorem length_padded {base count n : Nat} (hb : 1 < base) (hc : 0 < count)
    (h : n < base ^ count) : (padded base count n).toList.length = count := by
  have := (Nat.length_toDigits_le_iff hb hc).mpr h
  rw [toList_padded]
  simp
  omega

theorem Denotes.append_digit {base n d : Nat} {text : List Char} (denotes : Denotes base text n)
    (below : d < base) : Denotes base (text ++ [Nat.digitChar d]) (n * base + d) := by
  obtain ⟨some, digits, written, rfl⟩ := denotes
  have last : List.Forall₂ (IsDigit base) [Nat.digitChar d] [d] := .cons ⟨below, .inl rfl⟩ .nil
  refine ⟨by simp, digits ++ [d], List.rel_append written last, ?_⟩
  rw [List.reverse_append, List.reverse_singleton, List.singleton_append, Nat.ofDigits_cons]
  ring

theorem denotes_toDigits {base : Nat} (some : 1 < base) (n : Nat) :
    Denotes base (Nat.toDigits base n) n := by
  induction n using Nat.strong_induction_on with
  | _ n ih =>
    rw [Nat.toDigits_eq_if some]
    split
    · next small =>
      refine ⟨by simp, [n], .cons ⟨small, .inl rfl⟩ .nil, ?_⟩
      rw [List.reverse_singleton, Nat.ofDigits_singleton]
    · next large =>
      have smaller : n / base < n := Nat.div_lt_self (by omega) some
      have all := (ih (n / base) smaller).append_digit (Nat.mod_lt n (by omega))
      rwa [Nat.div_add_mod'] at all

theorem denotes_padded {base : Nat} (some : 1 < base) (count n : Nat) :
    Denotes base (padded base count n).toList n := by
  rw [toList_padded]
  exact (denotes_toDigits some n).zeros (by omega) _

end AccumulatorMachine.Numeral
