/-! The blank characters of Unicode (property White_Space), and text with the blanks
around it removed. -/
namespace AccumulatorMachine.Text

/-- Single blanks, then the two runs of neighbouring ones. -/
def isBlank (c : Char) : Bool :=
  c.val ∈ [0x20, 0x85, 0xA0, 0x1680, 0x2028, 0x2029, 0x202F, 0x205F, 0x3000] ||
    (0x09 ≤ c.val && c.val ≤ 0x0D) || (0x2000 ≤ c.val && c.val ≤ 0x200A)

/-- A text without the blanks before its first and after its last other character. -/
def trim (text : List Char) : List Char :=
  ((text.dropWhile isBlank).reverse.dropWhile isBlank).reverse

/-- From the exclamation mark to the tilde no character is blank. -/
theorem isBlank_of_visible {c : Char} (low : 0x21 ≤ c.toNat) (high : c.toNat ≤ 0x7E) :
    isBlank c = false := by
  simp only [isBlank, List.mem_cons, List.not_mem_nil, or_false, Bool.or_eq_false_iff,
    decide_eq_false_iff_not, Bool.and_eq_false_iff, UInt32.le_iff_toNat_le, ← UInt32.toNat_inj,
    Char.toNat_val, UInt32.reduceToNat]
  omega

theorem isBlank_newline : isBlank '\n' = true := by decide

end AccumulatorMachine.Text
