import AccumulatorMachine.Program.Image
import AccumulatorMachine.Proofs.Program.Congruent

/-! Reading an image back. Every record has the length that its width asks for, and its
operand has the bits that were inside the width. -/
namespace AccumulatorMachine

namespace BigEndian

theorem decode_append_singleton (bytes : List UInt8) (byte : UInt8) :
    decode (bytes ++ [byte]) = decode bytes * 256 + byte.toNat := by
  simp [decode]

/-- Reading back gives the number modulo what the bytes can hold. -/
theorem decode_encode (count n : Nat) : decode (encode count n) = n % 256 ^ count := by
  induction count generalizing n with
  | zero => simp [encode, decode, Nat.mod_one]
  | succ count ih =>
    rw [encode, decode_append_singleton, ih, Nat.pow_succ', Nat.mod_mul]
    simp
    omega

end BigEndian

namespace Image

theorem length_encodeInstruction (w : Width) (i : Instruction) :
    (encodeInstruction w i).length = 1 + w.bytes := by
  rw [encodeInstruction, List.length_cons, BigEndian.length_encode, Nat.add_comm]

theorem length_records (w : Width) (p : Program) :
    (p.flatMap (encodeInstruction w)).length = p.length * (1 + w.bytes) := by
  induction p with
  | nil => rw [List.flatMap_nil, List.length_nil, List.length_nil, Nat.zero_mul]
  | cons i rest ih =>
    rw [List.flatMap_cons, List.length_append, length_encodeInstruction, ih, List.length_cons,
      Nat.add_mul, Nat.one_mul, Nat.add_comm]

/-- The bytes of a width have room for its words. -/
theorem decode_operand (w : Width) (word : UInt64) :
    UInt64.ofNat (BigEndian.decode (BigEndian.encode w.bytes (w.truncate word.toNat).toNat)) =
      w.truncate word.toNat := by
  have room : w.modulus ≤ 256 ^ w.bytes := by
    have power : (256 : Nat) = 2 ^ 8 := rfl
    rw [Width.modulus_eq, power, ← Nat.pow_mul]
    refine Nat.pow_le_pow_right (by omega) ?_
    rw [Width.bytes]
    omega
  have bound := w.truncate_lt word.toNat
  rw [BigEndian.decode_encode, Nat.mod_eq_of_lt (Nat.lt_of_lt_of_le bound room), UInt64.ofNat_toNat]

theorem decodeRecords_records (w : Width) (p : Program) :
    decodeRecords w.bytes (p.flatMap (encodeInstruction w)) = p.narrow w := by
  induction p with
  | nil => rw [List.flatMap_nil, decodeRecords]; rfl
  | cons i rest ih =>
    have length := BigEndian.length_encode w.bytes (w.truncate i.operand.toNat).toNat
    rw [List.flatMap_cons, encodeInstruction, List.cons_append, decodeRecords,
      List.take_left' length, List.drop_left' length, ih, decode_operand]
    rfl

/-- An image is read back with its width, and with a program that no machine of that width
can tell from the one it was made of. -/
theorem decode_encode (image : Image) :
    decode (encode image) = .ok ⟨image.width, image.program.narrow image.width⟩ := by
  obtain ⟨w, p⟩ := image
  have bits : (UInt8.ofNat w.bits).toNat = w.bits := by
    have bound := w.bits_le_max
    rw [UInt8.toNat_ofNat']
    omega
  have whole : (p.flatMap (encodeInstruction w)).length % (1 + w.bytes) = 0 := by
    rw [length_records, Nat.mul_mod_left]
  simp only [encode, decode, bits, Width.ofBits?_bits, whole, if_true, decodeRecords_records]

end Image

end AccumulatorMachine
