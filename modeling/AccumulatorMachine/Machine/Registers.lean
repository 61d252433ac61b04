import AccumulatorMachine.Instruction.Register

/-! The register bank: a word for each of the six registers, all zero at first. -/
namespace AccumulatorMachine

structure Registers where
  acc : UInt64 := 0
  ix : UInt64 := 0
  cir : UInt64 := 0
  mar : UInt64 := 0
  mdr : UInt64 := 0
  pc : UInt64 := 0
  deriving DecidableEq, Repr

namespace Registers

def get (b : Registers) : Register → UInt64
  | .acc => b.acc
  | .ix => b.ix
  | .cir => b.cir
  | .mar => b.mar
  | .mdr => b.mdr
  | .pc => b.pc

def set (b : Registers) (r : Register) (word : UInt64) : Registers :=
  match r with
  | .acc => { b with acc := word }
  | .ix => { b with ix := word }
  | .cir => { b with cir := word }
  | .mar => { b with mar := word }
  | .mdr => { b with mdr := word }
  | .pc => { b with pc := word }

@[simp] theorem get_set_self (b : Registers) (r : Register) (word : UInt64) :
    (b.set r word).get r = word := by
  cases r <;> rfl

theorem get_set_of_ne (b : Registers) {r s : Register} (word : UInt64) (h : s ≠ r) :
    (b.set r word).get s = b.get s := by
  cases r <;> cases s <;> first | rfl | exact absurd rfl h

theorem get_set (b : Registers) (r s : Register) (word : UInt64) :
    (b.set r word).get s = if s = r then word else b.get s := by
  split
  · next h => rw [h, get_set_self]
  · next h => exact b.get_set_of_ne word h

end Registers

end AccumulatorMachine
