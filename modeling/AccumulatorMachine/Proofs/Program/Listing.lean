import AccumulatorMachine.Program.Basic
import AccumulatorMachine.Proofs.Numeral.Written
import AccumulatorMachine.Proofs.Text.Lines
import AccumulatorMachine.Text.Blank

/-! Listings tell programs apart. Columns are padded and never cut, so that numbers may outgrow
them. The name of a code is one word, and two codes have one name only if it is the mnemonic that
ends a stretch of code. -/
namespace AccumulatorMachine

open Numeral (Denotes denotes_toDigits denotes_padded)

namespace Opcode

/-- A mnemonic is read as its operation, the one that two operations share as that which halts. -/
theorem ofMnemonic?_toList (op : Opcode) :
    ofMnemonic? op.mnemonic.toList = some (if op = pass then halt else op) := by
  split
  · next pass =>
    rw [pass]
    decide
  · next other => exact ofMnemonic?_mnemonic other

theorem eq_or_ends_of_mnemonic {a b : Opcode} (same : a.mnemonic = b.mnemonic) :
    a = b ∨ a ∈ [pass, halt] ∧ b ∈ [pass, halt] := by
  have found := ofMnemonic?_toList a
  rw [same, ofMnemonic?_toList, Option.some.injEq] at found
  by_cases left : a = pass
  · by_cases right : b = pass
    · exact .inl (left.trans right.symm)
    · rw [if_neg right, if_pos left] at found
      exact .inr ⟨by simp [left], by simp [found]⟩
  · by_cases right : b = pass
    · rw [if_pos right, if_neg left] at found
      exact .inr ⟨by simp [← found], by simp [right]⟩
    · rw [if_neg right, if_neg left] at found
      exact .inl found.symm

end Opcode

namespace Instruction

/-- Instructions with one operand, and with one code or the two codes of one mnemonic. -/
structure SameListed (i j : Instruction) : Prop where
  operand : i.operand = j.operand
  code : i.opcode = j.opcode ∨ i.opcode ∈ [0x07, 0x33] ∧ j.opcode ∈ [0x07, 0x33]

theorem codeName_of_known {code : UInt8} {op : Opcode} (known : Opcode.ofCode? code = some op) :
    codeName code = op.mnemonic := by
  rw [codeName, known]

theorem toList_codeName_of_unknown {code : UInt8} (unknown : Opcode.ofCode? code = none) :
    (codeName code).toList =
      '?' :: '?' :: '(' :: '0' :: 'x' :: ((Numeral.padded 16 2 code.toNat).toList ++ [')']) := by
  rw [codeName, unknown]
  simp

/-- The name of a code is one word. -/
theorem notMem_codeName {c : Char} (blank : Text.isBlank c = true)
    (noDigit : Numeral.digitValue? c = none) (code : UInt8) : c ∉ (codeName code).toList := by
  cases found : Opcode.ofCode? code with
  | some op =>
    have word : op.mnemonic.toList.all (fun d => !Text.isBlank d) = true := by
      cases op <;> decide
    rw [codeName_of_known found]
    intro member
    have visible := List.all_eq_true.mp word c member
    rw [blank] at visible
    contradiction
  | none =>
    have digits :=
      (denotes_padded (by decide : 1 < 16) 2 code.toNat).notMem (Nat.le_refl 16) noDigit
    rw [toList_codeName_of_unknown found]
    simp only [List.mem_cons, List.mem_append, List.not_mem_nil, or_false]
    rintro (rfl | rfl | rfl | rfl | rfl | member | rfl) <;> contradiction

/-- No mnemonic starts as the name of an unknown code does. -/
theorem codeName_ne_mnemonic {code : UInt8} (unknown : Opcode.ofCode? code = none) (op : Opcode) :
    codeName code ≠ op.mnemonic := by
  intro same
  have first := congrArg (fun name : String => name.toList.head?) same
  simp only [toList_codeName_of_unknown unknown] at first
  have letter : op.mnemonic.toList.head? ≠ some '?' := by
    cases op <;> decide
  exact letter first.symm

theorem eq_or_ends_of_codeName {a b : UInt8} (same : codeName a = codeName b) :
    a = b ∨ a ∈ [0x07, 0x33] ∧ b ∈ [0x07, 0x33] := by
  have ends : ∀ {code : UInt8} {op : Opcode}, Opcode.ofCode? code = some op →
      op ∈ [Opcode.pass, Opcode.halt] → code ∈ [0x07, 0x33] := by
    intro code op known member
    obtain rfl := Opcode.ofCode?_eq_some_iff.mp known
    obtain rfl | rfl := by simpa using member
    · decide
    · decide
  cases left : Opcode.ofCode? a with
  | some op =>
    cases right : Opcode.ofCode? b with
    | some op' =>
      rw [codeName_of_known left, codeName_of_known right] at same
      obtain rfl | ⟨first, second⟩ := Opcode.eq_or_ends_of_mnemonic same
      · exact .inl ((Opcode.ofCode?_eq_some_iff.mp left).symm.trans
          (Opcode.ofCode?_eq_some_iff.mp right))
      · exact .inr ⟨ends left first, ends right second⟩
    | none =>
      rw [codeName_of_known left] at same
      exact absurd same.symm (codeName_ne_mnemonic right op)
  | none =>
    cases right : Opcode.ofCode? b with
    | some op' =>
      rw [codeName_of_known right] at same
      exact absurd same (codeName_ne_mnemonic left op')
    | none =>
      have texts := congrArg String.toList same
      rw [toList_codeName_of_unknown left, toList_codeName_of_unknown right] at texts
      simp only [List.cons.injEq, true_and, List.append_cancel_right_eq] at texts
      have first := denotes_padded (by decide : 1 < 16) 2 a.toNat
      have second := denotes_padded (by decide : 1 < 16) 2 b.toNat
      rw [texts] at first
      exact .inl (UInt8.toNat_inj.mp (first.unique (Nat.le_refl 16) second))

theorem text_eq_iff {i j : Instruction} : i.text = j.text ↔ i.SameListed j := by
  have word : ∀ code, ' ' ∉ (codeName code).toList := notMem_codeName (by decide) rfl
  rw [text, text, Text.alignLeft_append_inj 13 (word _) (word _)]
  constructor
  · rintro ⟨names, operands⟩
    have texts : Nat.toDigits 10 i.operand.toNat = Nat.toDigits 10 j.operand.toNat :=
      String.ofList_inj.mp operands
    have first := denotes_toDigits (by decide : 1 < 10) i.operand.toNat
    have second := denotes_toDigits (by decide : 1 < 10) j.operand.toNat
    rw [texts] at first
    exact ⟨UInt64.toNat_inj.mp (first.unique (by decide) second), eq_or_ends_of_codeName names⟩
  · rintro ⟨operand, same | ⟨first, second⟩⟩
    · rw [same, operand]
      exact ⟨rfl, rfl⟩
    · refine ⟨?_, by rw [operand]⟩
      have name : ∀ code ∈ [0x07, 0x33], codeName code = "END" := by
        rintro code member
        obtain rfl | rfl := by simpa using member
        · rfl
        · rfl
      rw [name _ first, name _ second]

end Instruction

namespace Program

theorem oneLine_listingLine (number : Nat) (i : Instruction) :
    Text.OneLine (listingLine number i) := by
  have digits : ∀ n, '\n' ∉ Nat.toDigits 10 n := fun n =>
    (denotes_toDigits (by decide) n).notMem (by decide) rfl
  have name := Instruction.notMem_codeName (c := '\n') (by decide) rfl i.opcode
  simp [Text.OneLine, listingLine, Instruction.text, Text.toList_alignRight, Text.toList_alignLeft,
    digits, name]

/-- A row that starts with the number of its instruction and with twice that number, the address of
its code; spaces stand before them and keep them apart. -/
def Numbered (number : Nat) (row : List Char) : Prop :=
  ∃ indent gap rest, row = List.replicate indent ' ' ++ (Nat.toDigits 10 number ++
    (List.replicate (gap + 2) ' ' ++ (Nat.toDigits 10 (2 * number) ++ ' ' :: ' ' :: rest)))

theorem numbered_listingLine (number : Nat) (i : Instruction) :
    Numbered number (listingLine number i).toList := by
  refine ⟨4 - (Nat.toDigits 10 number).length, 5 - (Nat.toDigits 10 (2 * number)).length,
    i.text.toList, ?_⟩
  have gap : ∀ n, List.replicate (n + 2) ' ' = ' ' :: ' ' :: List.replicate n ' ' := fun _ => rfl
  simp [listingLine, Text.toList_alignRight, gap, cellsPerInstruction, Nat.mul_comm number]

theorem listingLine_inj (number : Nat) {i j : Instruction} :
    listingLine number i = listingLine number j ↔ i.SameListed j := by
  rw [listingLine, listingLine, String.append_right_inj, Instruction.text_eq_iff]

/-- Programs with equally many instructions, of which those of each number are listed alike. -/
structure SameListed (p q : Program) : Prop where
  count : p.length = q.length
  alike : ∀ (number : Nat) (i j : Instruction),
    p[number]? = some i → q[number]? = some j → i.SameListed j

theorem mapIdx_listingLine_eq_iff {p q : Program} :
    p.mapIdx listingLine = q.mapIdx listingLine ↔ p.SameListed q := by
  constructor
  · intro same
    refine ⟨by simpa using congrArg List.length same, ?_⟩
    intro number i j left right
    have row := congrArg (·[number]?) same
    simp only [List.getElem?_mapIdx, left, right, Option.map_some, Option.some.injEq] at row
    exact (listingLine_inj number).mp row
  · rintro ⟨count, alike⟩
    apply List.ext_getElem (by simpa using count)
    intro number inside inside'
    rw [List.getElem_mapIdx, List.getElem_mapIdx]
    exact (listingLine_inj number).mpr
      (alike number _ _ (List.getElem?_eq_getElem _) (List.getElem?_eq_getElem _))

/-- A listing tells a program from all others but those that differ from it in the two codes of
one mnemonic. It has one row for each instruction, and each row starts with the number of its
instruction and the address of its code. -/
theorem listing_identifies (p q : Program) :
    (p.listing = q.listing ↔ p.SameListed q) ∧
    ∃ rows : List (List Char),
      Text.segments (· == '\n') p.listing.toList = rows.map (· ++ ['\n']) ∧
      rows.length = p.length ∧
      ∀ number row, rows[number]? = some row → '\n' ∉ row ∧ Numbered number row := by
  have single : ∀ (p : Program), ∀ line ∈ p.mapIdx listingLine, Text.OneLine line := by
    intro p line member
    obtain ⟨number, _, rfl⟩ := List.mem_mapIdx.mp member
    exact oneLine_listingLine number _
  constructor
  · rw [listing, listing, Text.ofLines_inj (single p) (single q)]
    exact mapIdx_listingLine_eq_iff
  · refine ⟨(p.mapIdx listingLine).map String.toList, ?_, by simp, ?_⟩
    · rw [listing, Text.segments_ofLines (single p), List.map_map]
      rfl
    · intro number row listed
      simp only [List.getElem?_map, List.getElem?_mapIdx, Option.map_map,
        Option.map_eq_some_iff] at listed
      obtain ⟨i, _, rfl⟩ := listed
      exact ⟨oneLine_listingLine number i, numbered_listingLine number i⟩

/-- Three codes, the last two of which are listed alike. -/
example : listing [⟨0xFE, 3⟩, ⟨0x07, 0⟩, ⟨0x33, 0⟩] =
    "   0      0  ??(0xfe)      3\n   1      2  END           0\n   2      4  END           0\n" := by
  rfl

end Program

end AccumulatorMachine
