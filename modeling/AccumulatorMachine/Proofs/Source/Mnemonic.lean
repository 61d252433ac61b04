import AccumulatorMachine.Proofs.Source.Operand
import AccumulatorMachine.Assembly

/-! The codes that mnemonics stand for. A short mnemonic stands for two of them, and the
operand beside it decides. -/
namespace AccumulatorMachine.Source

/-- The same letters, capitals or not. -/
def SameLetters (a b : List Char) : Prop :=
  a.map Char.toUpper = b.map Char.toUpper

/-- The operations of a short mnemonic, on an address and on a literal. -/
inductive Short : String → Opcode → Opcode → Prop
  | add : Short "ADD" .addDirect .addImmediate
  | sub : Short "SUB" .subDirect .subImmediate
  | cmp : Short "CMP" .compareDirect .compareImmediate

/-- The code of a mnemonic beside an operand token. -/
inductive MnemonicMeans (operand : List Char) : List Char → UInt8 → Prop
  | absent : MnemonicMeans operand [] 0x07
  | immediate (short : Short name direct immediate) (same : SameLetters mnemonic name.toList)
      (literal : LooksLiteral operand) : MnemonicMeans operand mnemonic immediate.code
  | direct (short : Short name direct immediate) (same : SameLetters mnemonic name.toList)
      (address : ¬LooksLiteral operand) : MnemonicMeans operand mnemonic direct.code
  | halt (same : SameLetters mnemonic "END".toList) : MnemonicMeans operand mnemonic 0x33
  | full (op : Opcode) (same : SameLetters mnemonic op.mnemonic.toList)
      (other : op.mnemonic ≠ "END") : MnemonicMeans operand mnemonic op.code
  | unknown (some : mnemonic ≠ [])
      (notShort : ∀ name direct immediate, Short name direct immediate →
        ¬SameLetters mnemonic name.toList)
      (notFull : ∀ op : Opcode, ¬SameLetters mnemonic op.mnemonic.toList) :
      MnemonicMeans operand mnemonic 0xFF

theorem sameLetters_mnemonic_iff {text : List Char} {op : Opcode} :
    SameLetters text op.mnemonic.toList ↔ op.mnemonic.toList = text.map Char.toUpper := by
  have capitals : op.mnemonic.toList.map Char.toUpper = op.mnemonic.toList := by
    cases op <;> decide
  rw [SameLetters, capitals, eq_comm]

theorem Short.capitals (short : Short name direct immediate) {text : List Char} :
    SameLetters text name.toList ↔ name.toList = text.map Char.toUpper := by
  have capitals : name.toList.map Char.toUpper = name.toList := by
    cases short <;> decide
  rw [SameLetters, capitals, eq_comm]

theorem exists_short_iff {capitals : List Char} :
    shortMnemonics.any (·.toList == capitals) = true ↔
      ∃ name direct immediate, Short name direct immediate ∧ name.toList = capitals := by
  simp only [shortMnemonics, List.any_cons, List.any_nil, Bool.or_false, Bool.or_eq_true,
    beq_iff_eq]
  constructor
  · rintro (add | sub | cmp)
    · exact ⟨_, _, _, .add, add⟩
    · exact ⟨_, _, _, .sub, sub⟩
    · exact ⟨_, _, _, .cmp, cmp⟩
  · rintro ⟨name, direct, immediate, short, same⟩
    cases short with
    | add => exact .inl same
    | sub => exact .inr (.inl same)
    | cmp => exact .inr (.inr same)

theorem fullMnemonic_eq_of_short (short : Short name direct immediate)
    {mnemonic : List Char} (same : name.toList = mnemonic.map Char.toUpper)
    (operand : List Char) :
    fullMnemonic mnemonic operand =
      (if (LiteralKind.of? operand).isSome then immediate else direct).mnemonic.toList := by
  have found := exists_short_iff.mpr ⟨name, direct, immediate, short, same⟩
  simp only [fullMnemonic]
  rw [if_pos found, ← same]
  generalize (LiteralKind.of? operand).isSome = literal
  cases short <;> cases literal <;> decide

/-- A mnemonic that is not short is encoded as the operation of the table that it names. -/
theorem mnemonicMeans_encode {mnemonic : List Char} (operand : List Char)
    (named : mnemonic ≠ []) (long : ∀ name direct immediate, Short name direct immediate →
      ¬SameLetters mnemonic name.toList) :
    MnemonicMeans operand mnemonic (Opcode.encode mnemonic) := by
  rw [Opcode.encode]
  cases found : Opcode.ofMnemonic? mnemonic with
  | some op =>
    have spelled := List.find?_some
      (p := fun op : Opcode => op.mnemonic.toList == mnemonic.map Char.toUpper) found
    have same := sameLetters_mnemonic_iff.mpr (beq_iff_eq.mp spelled)
    have listed := List.mem_of_find?_eq_some found
    have notPass : op ≠ .pass := by simpa using (List.mem_filter.mp listed).2
    by_cases halts : op = .halt
    · subst halts
      exact .halt same
    · refine .full op same ?_
      cases op <;> first | contradiction | decide
  | none =>
    have noneNamed : ∀ op : Opcode, op ≠ .pass → ¬SameLetters mnemonic op.mnemonic.toList := by
      intro op notPass same
      have listed : op ∈ Opcode.all.filter (· ≠ .pass) :=
        List.mem_filter.mpr ⟨op.mem_all, decide_eq_true notPass⟩
      have differs := List.find?_eq_none.mp found op listed
      exact differs (beq_iff_eq.mpr (sameLetters_mnemonic_iff.mp same))
    refine .unknown named long fun op => ?_
    by_cases isPass : op = .pass
    · -- Its mnemonic is that of the operation that halts.
      rw [isPass]
      exact noneNamed .halt (by decide)
    · exact noneNamed op isPass

/-- Spelling a mnemonic out and encoding it gives the code that it means. -/
theorem mnemonicMeans_linkedOpcode {s : Statement} {mnemonic operand : List Char}
    (spelled : s.mnemonic = fullMnemonic mnemonic operand) :
    MnemonicMeans operand mnemonic s.linkedOpcode := by
  rw [Statement.linkedOpcode, spelled]
  by_cases found : shortMnemonics.any (·.toList == mnemonic.map Char.toUpper) = true
  · obtain ⟨name, direct, immediate, short, same⟩ := exists_short_iff.mp found
    have letters := short.capitals.mpr same
    rw [fullMnemonic_eq_of_short short same]
    by_cases literal : LooksLiteral operand
    · rw [if_pos (isSome_of?_iff.mpr literal)]
      have encoded : (if immediate.mnemonic.toList.isEmpty then Opcode.pass.code
          else Opcode.encode immediate.mnemonic.toList) = immediate.code := by
        cases short <;> decide
      rw [encoded]
      exact .immediate short letters literal
    · rw [if_neg (mt isSome_of?_iff.mp literal)]
      have encoded : (if direct.mnemonic.toList.isEmpty then Opcode.pass.code
          else Opcode.encode direct.mnemonic.toList) = direct.code := by
        cases short <;> decide
      rw [encoded]
      exact .direct short letters literal
  · have same : fullMnemonic mnemonic operand = mnemonic := if_neg found
    rw [same]
    split
    · next empty =>
      rw [List.isEmpty_iff.mp empty]
      exact .absent
    · next named =>
      refine mnemonicMeans_encode operand (mt List.isEmpty_iff.mpr named) ?_
      intro name direct immediate short letters
      exact found (exists_short_iff.mpr
        ⟨name, direct, immediate, short, short.capitals.mp letters⟩)

/-- Only the lack of a mnemonic means the operation without effect. -/
theorem MnemonicMeans.eq_pass_iff {operand mnemonic : List Char} {code : UInt8}
    (means : MnemonicMeans operand mnemonic code) : code = 0x07 ↔ mnemonic = [] := by
  have spelled : ∀ name : List Char, name ≠ [] → ¬SameLetters [] name := by
    intro name letters same
    exact letters (List.map_eq_nil_iff.mp same.symm)
  constructor
  · intro pass
    cases means with
    | absent => rfl
    | immediate short | direct short => cases short <;> contradiction
    | full op same other =>
      obtain rfl : op = .pass := Opcode.code_injective pass
      contradiction
    | halt | unknown => contradiction
  · rintro rfl
    cases means with
    | absent => rfl
    | immediate short same | direct short same =>
      exact absurd same (spelled _ (by cases short <;> decide))
    | halt same => exact absurd same (spelled _ (by decide))
    | full op same => exact absurd same (spelled _ (by cases op <;> decide))
    | unknown => contradiction

end AccumulatorMachine.Source
