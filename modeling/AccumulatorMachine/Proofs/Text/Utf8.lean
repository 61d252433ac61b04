import AccumulatorMachine.Text.Extent
import AccumulatorMachine.Text.Utf8

/-! The bytes of a text, character by character. A newline is one byte, and no other character
has that byte in it, so that rows are counted in bytes as they are in characters. Decoding takes the
bytes of a text back to it, and finds no text in any others. -/
namespace AccumulatorMachine.Text.Utf8

theorem toList_loop (bytes : ByteArray) (i : Nat) (before : List UInt8) :
    ByteArray.toList.loop bytes i before = before.reverse ++ bytes.data.toList.drop i := by
  fun_induction ByteArray.toList.loop bytes i before with
  | case1 i before inside ih =>
    have listed : i < bytes.data.toList.length := by simpa using inside
    have byte : bytes.get! i = bytes.data.toList[i] := by simp [ByteArray.get!, inside]
    rw [ih, List.drop_eq_getElem_cons listed, List.reverse_cons, List.append_assoc, byte]
    rfl
  | case2 i before outside =>
    have none : bytes.data.toList.length ≤ i := by simpa using Nat.le_of_not_lt outside
    rw [List.drop_eq_nil_of_le none, List.append_nil]

theorem encode_eq (text : List Char) : encode text = text.flatMap String.utf8EncodeChar := by
  rw [encode, ByteArray.toList, toList_loop, List.drop_zero, List.reverse_nil, List.nil_append,
    String.toUTF8_eq_toByteArray, String.toByteArray_ofList, List.utf8Encode,
    List.toList_data_toByteArray]

theorem encode_append (a b : List Char) : encode (a ++ b) = encode a ++ encode b := by
  simp only [encode_eq, List.flatMap_append]

theorem encode_cons (c : Char) (text : List Char) :
    encode (c :: text) = String.utf8EncodeChar c ++ encode text := by
  simp only [encode_eq, List.flatMap_cons]

theorem length_encode (text : List Char) : (encode text).length = byteLength text := by
  induction text with
  | nil => rw [encode_eq]; rfl
  | cons c rest ih =>
    rw [encode_cons, List.length_append, String.length_utf8EncodeChar, ih, byteLength_cons]

/-- Of a character that takes several bytes, each has its highest bit set. -/
theorem le_of_mem_utf8EncodeChar {c : Char} (several : 127 < c.toNat) :
    ∀ byte ∈ String.utf8EncodeChar c, 128 ≤ byte.toNat := by
  have notOne : ¬c.val.toNat ≤ 127 := Nat.not_le.mpr several
  simp only [String.utf8EncodeChar, if_neg notOne]
  split
  · simp only [List.forall_mem_cons, UInt8.toNat_ofNat']
    refine ⟨by omega, by omega, List.forall_mem_nil _⟩
  · split
    · simp only [List.forall_mem_cons, UInt8.toNat_ofNat']
      refine ⟨by omega, by omega, by omega, List.forall_mem_nil _⟩
    · simp only [List.forall_mem_cons, UInt8.toNat_ofNat']
      refine ⟨by omega, by omega, by omega, by omega, List.forall_mem_nil _⟩

theorem eq_newline_of_mem_utf8EncodeChar {c : Char} (member : 0x0A ∈ String.utf8EncodeChar c) :
    c = '\n' := by
  by_cases several : 127 < c.toNat
  · have high := le_of_mem_utf8EncodeChar several _ member
    contradiction
  · have one : String.utf8EncodeChar c = [UInt8.ofNat c.val.toNat] :=
      if_pos (Nat.not_lt.mp several)
    rw [one] at member
    have code := congrArg UInt8.toNat (List.mem_singleton.mp member)
    have small : c.toNat < 2 ^ 8 := by omega
    rw [UInt8.toNat_ofNat', Char.toNat_val, Nat.mod_eq_of_lt small] at code
    exact Char.toNat_inj.mp code.symm

theorem count_utf8EncodeChar (c : Char) :
    (String.utf8EncodeChar c).count 0x0A = if c = '\n' then 1 else 0 := by
  split
  · next newline => rw [newline]; rfl
  · next other => exact List.count_eq_zero.mpr (mt eq_newline_of_mem_utf8EncodeChar other)

/-- Newlines are counted in the bytes of a text as in the text. -/
theorem count_newline_encode (text : List Char) :
    (encode text).count 0x0A = text.count '\n' := by
  induction text with
  | nil => rw [encode_eq]; rfl
  | cons c rest ih =>
    rw [encode_cons, List.count_append, count_utf8EncodeChar, ih, List.count_cons, Nat.add_comm]
    simp only [beq_iff_eq]

theorem encode_newline : encode ['\n'] = [0x0A] := by
  rw [encode_eq]
  rfl

theorem newline_notMem_encode {text : List Char} (inside : '\n' ∉ text) : 0x0A ∉ encode text := by
  rw [← List.count_eq_zero, count_newline_encode]
  exact List.count_eq_zero.mpr inside

/-- Bytes stand for the one text that is written in them, if there is one. -/
theorem decode?_eq_some_iff {bytes : List UInt8} {text : List Char} :
    decode? bytes = some text ↔ encode text = bytes := by
  have written : encode text = bytes ↔ ⟨bytes.toArray⟩ = (String.ofList text).toByteArray := by
    rw [encode, ByteArray.toList, toList_loop, List.drop_zero, List.reverse_nil, List.nil_append,
      String.toUTF8_eq_toByteArray, ByteArray.ext_iff, ← Array.toList_inj, eq_comm]
  rw [written, decode?, String.fromUTF8?]
  split
  · next valid =>
    rw [Option.map_some, Option.some.injEq]
    constructor
    · rintro rfl
      rw [String.ofList_toList]
      rfl
    · intro same
      have decoded : String.fromUTF8 _ valid = String.ofList text := String.toByteArray_inj.mp same
      rw [decoded, String.toList_ofList]
  · next invalid =>
    rw [Option.map_none]
    constructor
    · intro none
      contradiction
    · intro same
      rw [same] at invalid
      exact absurd (String.ofList text).isValidUTF8 invalid

end AccumulatorMachine.Text.Utf8
