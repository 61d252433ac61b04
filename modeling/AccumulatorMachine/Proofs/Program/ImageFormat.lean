import AccumulatorMachine.Proofs.Program.Image
import Mathlib.Algebra.Order.Floor.Div
import Mathlib.Data.Nat.Digits.Defs
import Mathlib.GroupTheory.GroupAction.Ring

/-! The format of images: which strings of bytes are images, what they hold, and which of
them are written by the encoder. The padding bits above the width are all that an image can
have and the encoder would not write. -/
namespace AccumulatorMachine

namespace BigEndian

/-- The first byte is the most significant digit in base 256. -/
def value (bytes : List UInt8) : Nat :=
  Nat.ofDigits 256 (bytes.reverse.map UInt8.toNat)

theorem decode_eq_value (bytes : List UInt8) : decode bytes = value bytes := by
  induction bytes using List.reverseRecOn with
  | nil => rfl
  | append_singleton bytes byte ih =>
    rw [decode_append_singleton, ih, value, value, List.reverse_append, List.reverse_singleton,
      List.singleton_append, List.map_cons, Nat.ofDigits_cons]
    ring

theorem value_lt (bytes : List UInt8) : value bytes < 256 ^ bytes.length := by
  have digits : ∀ d ∈ bytes.reverse.map UInt8.toNat, d < 256 := by
    intro d member
    obtain ⟨byte, _, rfl⟩ := List.mem_map.mp member
    exact byte.toNat_lt
  have bound := Nat.ofDigits_lt_base_pow_length (by decide) digits
  rwa [List.length_map, List.length_reverse] at bound

/-- Bytes are told by their number and their value. -/
theorem encode_value (bytes : List UInt8) : encode bytes.length (value bytes) = bytes := by
  rw [← decode_eq_value]
  induction bytes using List.reverseRecOn with
  | nil => rfl
  | append_singleton bytes byte ih =>
    have bound := byte.toNat_lt
    have high : (decode bytes * 256 + byte.toNat) / 256 = decode bytes := by omega
    have low : UInt8.ofNat (decode bytes * 256 + byte.toNat) = byte := by
      rw [← UInt8.toNat_inj, UInt8.toNat_ofNat']
      omega
    rw [List.length_append, List.length_singleton, decode_append_singleton, encode, high, low, ih]

end BigEndian

theorem Width.bytes_eq_ceilDiv (w : Width) : w.bytes = w.bits ⌈/⌉ 8 := by
  rw [bytes, Nat.ceilDiv_eq_add_pred_div, Nat.add_sub_assoc (by decide)]

theorem Width.bytes_le (w : Width) : w.bytes ≤ 8 := by
  have bound := w.bits_le_max
  rw [bytes]
  omega

theorem Instruction.narrow_eq_self_iff {w : Width} {i : Instruction} :
    i.narrow w = i ↔ i.operand.toNat < 2 ^ w.bits := by
  rw [← w.modulus_eq]
  constructor
  · intro same
    have bound := w.truncate_lt i.operand.toNat
    rw [← same]
    exact bound
  · intro small
    have kept : w.truncate i.operand.toNat = i.operand := by
      rw [← UInt64.toNat_inj, w.toNat_truncate_natCast, Nat.mod_eq_of_lt small]
    rw [narrow, kept]

theorem Program.narrow_eq_self_iff {w : Width} {p : Program} :
    p.narrow w = p ↔ ∀ i ∈ p, i.operand.toNat < 2 ^ w.bits := by
  calc p.narrow w = p
    _ ↔ p.map (Instruction.narrow w) = p.map id := by rw [narrow, List.map_id]
    _ ↔ ∀ i ∈ p, i.narrow w = i := List.map_inj_left
    _ ↔ ∀ i ∈ p, i.operand.toNat < 2 ^ w.bits :=
      forall₂_congr fun _ _ => Instruction.narrow_eq_self_iff

namespace Image

/-- Records with so many bytes for the operand, one after the other, and what they hold. -/
inductive Records (size : Nat) : List UInt8 → Program → Prop
  | nil : Records size [] []
  | cons {i : Instruction} {bytes : List UInt8} (length : bytes.length = size)
      (operand : i.operand.toNat = BigEndian.value bytes) (rest : Records size records p) :
      Records size (i.opcode :: (bytes ++ records)) (i :: p)

/-- What a string of bytes is read as. Of two faults the one that is named first counts. -/
inductive Reads : List UInt8 → Except ImageError Image → Prop
  | empty : Reads [] (.error .empty)
  | unsupportedWidth {bits : UInt8} (outside : bits.toNat < 8 ∨ 64 < bits.toNat) :
      Reads (bits :: body) (.error (.unsupportedWidth bits.toNat))
  | truncated {w : Width} (width : w.bits = bits.toNat)
      (rest : body.length % (1 + w.bits ⌈/⌉ 8) = trailing) (some : trailing ≠ 0) :
      Reads (bits :: body) (.error (.truncated trailing))
  | image {w : Width} (width : w.bits = bits.toNat) (records : Records (w.bits ⌈/⌉ 8) body p) :
      Reads (bits :: body) (.ok ⟨w, p⟩)

/-- A byte for a width, and whole records behind it. -/
def Accepted (bytes : List UInt8) : Prop :=
  ∃ bits body, bytes = bits :: body ∧ 8 ≤ bits.toNat ∧ bits.toNat ≤ 64 ∧
    1 + bits.toNat ⌈/⌉ 8 ∣ body.length

theorem records_decodeRecords {size : Nat} (small : size ≤ 8) {body : List UInt8}
    (whole : 1 + size ∣ body.length) : Records size body (decodeRecords size body) := by
  fun_induction decodeRecords size body with
  | case1 => exact .nil
  | case2 code rest ih =>
    rw [List.length_cons] at whole
    have enough : size ≤ rest.length := by
      have := Nat.le_of_dvd (by omega) whole
      omega
    have length : (rest.take size).length = size := List.length_take_of_le enough
    have others : 1 + size ∣ (rest.drop size).length := by
      have shorter := Nat.dvd_sub whole (Nat.dvd_refl (1 + size))
      have less : rest.length + 1 - (1 + size) = rest.length - size := by omega
      rwa [List.length_drop, ← less]
    have fits : BigEndian.value (rest.take size) < 2 ^ 64 := by
      have bound := BigEndian.value_lt (rest.take size)
      rw [length] at bound
      exact bound.trans_le (Nat.pow_le_pow_right (by decide) small)
    have operand : (UInt64.ofNat (BigEndian.decode (rest.take size))).toNat =
        BigEndian.value (rest.take size) := by
      rw [BigEndian.decode_eq_value, UInt64.toNat_ofNat', Nat.mod_eq_of_lt fits]
    have record := Records.cons (i := ⟨code, _⟩) length operand (ih others)
    rwa [List.take_append_drop] at record

theorem Records.dvd_length {size : Nat} {body : List UInt8} {p : Program}
    (records : Records size body p) : 1 + size ∣ body.length := by
  induction records with
  | nil => exact Nat.dvd_zero _
  | cons length _ _ ih =>
    rw [List.length_cons, List.length_append, length, Nat.add_right_comm, Nat.add_comm size 1]
    exact Nat.dvd_add (Nat.dvd_refl (1 + size)) ih

theorem reads_decode (bytes : List UInt8) : Reads bytes (decode bytes) := by
  cases bytes with
  | nil => exact .empty
  | cons bits body =>
    simp only [decode]
    split
    · next unsupported =>
      apply Reads.unsupportedWidth
      have outside := Width.ofBits?_eq_none_iff.mp unsupported
      omega
    · next w supported =>
      have width := Width.ofBits?_eq_some_iff.mp supported
      split
      · next whole =>
        have records := records_decodeRecords w.bytes_le (Nat.dvd_of_mod_eq_zero whole)
        rw [w.bytes_eq_ceilDiv] at records ⊢
        exact .image width records
      · next some =>
        rw [w.bytes_eq_ceilDiv] at some ⊢
        exact .truncated width rfl some

theorem accepted_iff {bytes : List UInt8} :
    (∃ image, decode bytes = .ok image) ↔ Accepted bytes := by
  have reads := reads_decode bytes
  constructor
  · rintro ⟨image, read⟩
    rw [read] at reads
    cases reads with
    | @image _ _ _ w width records =>
      have low := w.min_le_bits
      have high := w.bits_le_max
      refine ⟨_, _, rfl, by omega, by omega, ?_⟩
      rw [← width]
      exact records.dvd_length
  · rintro ⟨bits, body, rfl, low, high, whole⟩
    generalize decode (bits :: body) = outcome at reads ⊢
    cases reads with
    | unsupportedWidth outside => omega
    | truncated width rest some =>
      rw [width, Nat.mod_eq_zero_of_dvd whole] at rest
      exact absurd rest.symm some
    | image width records => exact ⟨_, rfl⟩

/-- Records whose operands have no bits above the width are written as they were read. -/
theorem Records.encode {w : Width} {body : List UInt8} {p : Program}
    (records : Records w.bytes body p) (small : ∀ i ∈ p, i.operand.toNat < 2 ^ w.bits) :
    p.flatMap (encodeInstruction w) = body := by
  induction records with
  | nil => rfl
  | @cons _ _ i bytes length operand rest ih =>
    have kept : w.truncate i.operand.toNat = i.operand :=
      congrArg Instruction.operand
        (Instruction.narrow_eq_self_iff.mpr (small i List.mem_cons_self))
    have others := ih fun j member => small j (List.mem_cons_of_mem i member)
    rw [List.flatMap_cons, others, encodeInstruction, kept, operand, ← length,
      BigEndian.encode_value, List.cons_append]

theorem encode_eq_iff_of_decode {bytes : List UInt8} {image : Image}
    (read : decode bytes = .ok image) :
    encode image = bytes ↔ ∀ i ∈ image.program, i.operand.toNat < 2 ^ image.width.bits := by
  constructor
  · intro same
    have again := decode_encode image
    rw [same, read] at again
    apply Program.narrow_eq_self_iff.mp
    exact (congrArg Image.program (Except.ok.inj again)).symm
  · intro small
    have reads := reads_decode bytes
    rw [read] at reads
    cases reads with
    | @image _ _ bits w width records =>
      rw [← w.bytes_eq_ceilDiv] at records
      have first : UInt8.ofNat w.bits = bits := by rw [width, UInt8.ofNat_toNat]
      rw [encode, records.encode small, first]

theorem narrow_reduces (w : Width) (p : Program) :
    List.Forall₂ (fun i j : Instruction => j.opcode = i.opcode ∧
      j.operand.toNat = i.operand.toNat % 2 ^ w.bits) p (p.narrow w) := by
  rw [Program.narrow, List.forall₂_map_right_iff, List.forall₂_same]
  intro i _
  exact ⟨rfl, w.toNat_truncate_natCast _⟩

/-- Encoding is undone by decoding but for the bits above the width; what is decoded, and
which of the faults is reported, is a matter of the bytes alone; and decoding is undone by
encoding for just those images that have nothing in their padding bits. -/
theorem codec_exact :
    (∀ (w : Width) (p : Program), ∃ q, decode (encode ⟨w, p⟩) = .ok ⟨w, q⟩ ∧
      List.Forall₂ (fun i j : Instruction => j.opcode = i.opcode ∧
        j.operand.toNat = i.operand.toNat % 2 ^ w.bits) p q ∧
      (q = p ↔ ∀ i ∈ p, i.operand.toNat < 2 ^ w.bits)) ∧
    (∀ bytes, Reads bytes (decode bytes) ∧
      ((∃ image, decode bytes = .ok image) ↔ Accepted bytes)) ∧
    (∀ bytes image, decode bytes = .ok image →
      (encode image = bytes ↔ ∀ i ∈ image.program, i.operand.toNat < 2 ^ image.width.bits)) := by
  refine ⟨fun w p => ?_, fun bytes => ⟨reads_decode bytes, accepted_iff⟩, fun bytes image => ?_⟩
  · exact ⟨p.narrow w, decode_encode ⟨w, p⟩, narrow_reduces w p, Program.narrow_eq_self_iff⟩
  · intro read
    exact encode_eq_iff_of_decode read

/-- Twelve bits take two bytes, and four bits of padding are set: the image is read with them
and written without. -/
theorem codec_exact_of_padding_bits :
    let bytes : List UInt8 := [12, 0x21, 0xF1, 0x23, 0x33, 0x00, 0x00]
    let image : Image := ⟨⟨12, by decide, by decide⟩, [⟨0x21, 0xF123⟩, ⟨0x33, 0⟩]⟩
    decode bytes = .ok image ∧ Accepted bytes ∧ encode image ≠ bytes ∧
      (encode image = bytes ↔ ∀ i ∈ image.program, i.operand.toNat < 2 ^ image.width.bits) := by
  intro bytes image
  have read : decode bytes = .ok image := by decide +kernel
  obtain ⟨_, accepts, rewrites⟩ := codec_exact
  exact ⟨read, (accepts bytes).2.mp ⟨image, read⟩, by decide, rewrites bytes image read⟩

end Image

end AccumulatorMachine
