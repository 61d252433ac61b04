import AccumulatorMachine.Word.Width
import Mathlib.Algebra.Group.Int.Defs
import Mathlib.Algebra.Group.Nat.Defs

/-! Words as numbers. Masking the bits that storage keeps is reduction modulo 2 ^ N, since
storage has room for every width. -/
namespace AccumulatorMachine

/-- Storage keeps the low 64 bits of an integer. -/
theorem toNat_ofInt (value : Int) : ((UInt64.ofInt value).toNat : Int) = value % 2 ^ 64 := by
  simp only [UInt64.ofInt, UInt64.toNat_ofNat']
  omega

theorem ofInt_toNat (word : UInt64) : UInt64.ofInt word.toNat = word := by
  have kept := toNat_ofInt word.toNat
  have small := word.toNat_lt
  rw [← UInt64.toNat_inj]
  omega

theorem toNat_ofNat_byte (byte : UInt8) : (UInt64.ofNat byte.toNat).toNat = byte.toNat := by
  have bound := byte.toNat_lt
  rw [UInt64.toNat_ofNat']
  omega

namespace Width

theorem modulus_eq (w : Width) : w.modulus = 2 ^ w.bits := rfl

theorem modulus_pos (w : Width) : 0 < w.modulus :=
  Nat.two_pow_pos _

theorem modulus_le (w : Width) : w.modulus ≤ 2 ^ 64 :=
  Nat.pow_le_pow_right (by omega) w.bits_le_max

theorem toNat_mask (w : Width) : w.mask.toNat = w.modulus - 1 := by
  have bound := w.bits_le_max
  simp only [mask, modulus_eq]
  split
  · next full => rw [full]; rfl
  · have small : 2 ^ w.bits < 2 ^ 64 := Nat.pow_lt_pow_right (by omega) (by omega)
    have amount : (UInt64.ofNat w.bits).toNat % 64 = w.bits := by
      rw [UInt64.toNat_ofNat']
      omega
    have shifted : (1 <<< UInt64.ofNat w.bits : UInt64).toNat = 2 ^ w.bits := by
      rw [UInt64.toNat_shiftLeft, amount, UInt64.toNat_one, Nat.one_shiftLeft,
        Nat.mod_eq_of_lt small]
    rw [UInt64.toNat_sub_of_le, shifted, UInt64.toNat_one]
    rw [UInt64.le_iff_toNat_le, shifted, UInt64.toNat_one]
    exact Nat.two_pow_pos _

/-- Truncation is reduction modulo 2 ^ N: the bits that storage drops before the mask
does are above the width. -/
theorem toNat_truncate (w : Width) (value : Int) :
    ((w.truncate value).toNat : Int) = value % w.modulus := by
  have divides : (w.modulus : Int) ∣ 2 ^ 64 := by
    exact_mod_cast Nat.pow_dvd_pow 2 w.bits_le_max
  have masked : (w.truncate value).toNat = (UInt64.ofInt value).toNat % w.modulus := by
    rw [truncate, UInt64.toNat_and, toNat_mask, modulus_eq, Nat.and_two_pow_sub_one_eq_mod]
  rw [masked, Int.natCast_emod, toNat_ofInt, Int.emod_emod_of_dvd value divides]

theorem toNat_truncate_natCast (w : Width) (n : Nat) :
    (w.truncate n).toNat = n % w.modulus := by
  exact_mod_cast w.toNat_truncate n

theorem truncate_lt (w : Width) (value : Int) : (w.truncate value).toNat < w.modulus := by
  have pos : (0 : Int) < w.modulus := by exact_mod_cast w.modulus_pos
  have high := Int.emod_lt_of_pos value pos
  rw [← w.toNat_truncate] at high
  exact_mod_cast high

theorem byte_lt_modulus (w : Width) (byte : UInt8) : byte.toNat < w.modulus := by
  have wide : 2 ^ 8 ≤ w.modulus := Nat.pow_le_pow_right (by omega) w.min_le_bits
  have bound := byte.toNat_lt
  omega

theorem truncate_of_lt (w : Width) {n : Nat} (inside : n < w.modulus) :
    w.truncate n = UInt64.ofNat n := by
  have bound := w.modulus_le
  rw [← UInt64.toNat_inj, w.toNat_truncate_natCast, UInt64.toNat_ofNat',
    Nat.mod_eq_of_lt inside, Nat.mod_eq_of_lt (by omega)]

@[simp] theorem truncate_zero (w : Width) : w.truncate 0 = 0 :=
  w.truncate_of_lt w.modulus_pos

end Width

end AccumulatorMachine
