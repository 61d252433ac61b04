import AccumulatorMachine.Numeral.Written

/-! The width of a machine word. A machine of width N computes with the integers
modulo 2 ^ N, kept as their representatives in 64 bits of storage. -/
namespace AccumulatorMachine

/-- Bits of every register and memory cell; storage has room for 64 at most. -/
structure Width where
  bits : Nat
  min_le_bits : 8 ≤ bits := by omega
  bits_le_max : bits ≤ 64 := by omega
  deriving DecidableEq, Repr

namespace Width

/-- The width of a machine that nothing else is known about. -/
def standard : Width where
  bits := 16

def ofBits? (bits : Nat) : Option Width :=
  if h : 8 ≤ bits ∧ bits ≤ 64 then some ⟨bits, h.1, h.2⟩ else none

/-- How many different words there are. -/
def modulus (w : Width) : Nat :=
  Nat.pow 2 w.bits

/-- The greatest word: all bits set. -/
def mask (w : Width) : UInt64 :=
  if w.bits = 64 then 0xFFFFFFFFFFFFFFFF else (1 <<< UInt64.ofNat w.bits) - 1

/-- The word that keeps the low bits of an integer; a negative integer is taken in two's
complement. -/
def truncate (w : Width) (value : Int) : UInt64 :=
  UInt64.ofInt value &&& w.mask

def bytes (w : Width) : Nat :=
  (w.bits + 7) / 8

/-- A word in binary, with a digit for every bit of the width. -/
def binary (w : Width) (word : UInt64) : String :=
  Numeral.padded 2 w.bits word.toNat

theorem ofBits?_eq_some_iff {bits : Nat} {w : Width} :
    ofBits? bits = some w ↔ w.bits = bits := by
  obtain ⟨n, h₁, h₂⟩ := w
  simp only [ofBits?]
  split <;> simp <;> omega

theorem ofBits?_eq_none_iff {bits : Nat} :
    ofBits? bits = none ↔ ¬(8 ≤ bits ∧ bits ≤ 64) := by
  simp [ofBits?]

@[simp] theorem ofBits?_bits (w : Width) : ofBits? w.bits = some w :=
  ofBits?_eq_some_iff.mpr rfl

end Width

end AccumulatorMachine
