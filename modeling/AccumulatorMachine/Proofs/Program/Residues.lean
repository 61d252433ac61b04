import AccumulatorMachine.Proofs.Machine.CallHistory
import AccumulatorMachine.Proofs.Program.Image
import Mathlib.Data.Nat.ModEq

/-! Operands count modulo 2 ^ N. No part of a run looks at an operand before it is narrowed, so
that a program and what its image keeps of it are one program to a machine of the image's width. -/
namespace AccumulatorMachine

theorem Width.truncate_eq_iff_modEq (w : Width) {a b : Nat} :
    w.truncate a = w.truncate b ↔ a ≡ b [MOD w.modulus] := by
  rw [← UInt64.toNat_inj, w.toNat_truncate_natCast, w.toNat_truncate_natCast, Nat.ModEq]

theorem Program.congruent_iff_modEq {w : Width} {p q : Program} :
    p.Congruent w q ↔ List.Forall₂ (fun i j => i.opcode = j.opcode ∧
      i.operand.toNat ≡ j.operand.toNat [MOD w.modulus]) p q := by
  have instruction : ∀ i j : Instruction, i.Congruent w j ↔ i.opcode = j.opcode ∧
      i.operand.toNat ≡ j.operand.toNat [MOD w.modulus] := by
    intro i j
    rw [← w.truncate_eq_iff_modEq]
    exact ⟨fun same => ⟨same.opcode, same.operand⟩, fun same => ⟨same.1, same.2⟩⟩
  simp only [Program.Congruent, funext₂ fun i j => propext (instruction i j)]

namespace Machine

theorem runCalls_congr {m : Machine} {p q : Program} (same : p.Congruent m.width q)
    (limit : Nat) : m.runCalls limit p = m.runCalls limit q := by
  rw [runCalls, runCalls, cellCount_congr same, start_congr same]

/-- Two programs with the same codes and with operands that are congruent modulo 2 ^ N are one
program to every machine of N bits, at every stage and so also where a run fails: result, state,
devices, trace and journal are the same, and the same calls are made. A program and the program
that its image is read back as are two such programs. -/
theorem execute_modulo {m : Machine} {p q : Program}
    (congruent : List.Forall₂ (fun i j => i.opcode = j.opcode ∧
      i.operand.toNat ≡ j.operand.toNat [MOD m.width.modulus]) p q) (limit : Nat) :
    (m.execute limit q = m.execute limit p ∧ m.runCalls limit q = m.runCalls limit p) ∧
      ∃ image, Image.decode (Image.encode ⟨m.width, p⟩) = .ok image ∧ image.width = m.width ∧
        m.execute limit image.program = m.execute limit p ∧
        m.runCalls limit image.program = m.runCalls limit p := by
  have same : p.Congruent m.width q := Program.congruent_iff_modEq.mpr congruent
  have narrow := p.congruent_narrow m.width
  refine ⟨⟨(execute_congr same limit).symm, (runCalls_congr same limit).symm⟩, ?_⟩
  refine ⟨_, Image.decode_encode ⟨m.width, p⟩, rfl, ?_, ?_⟩
  · exact (execute_congr narrow limit).symm
  · exact (runCalls_congr narrow limit).symm

/-- On 8 bits a jump to 260 goes to 4, and an increment of register 518 fails as one of register 6
does: the operand in the error is the narrowed one. -/
theorem execute_modulo_of_wide_operands :
    let m : Machine := { width := ⟨8, by decide, by decide⟩ }
    let p : Program := [⟨0x30, 260⟩, ⟨0x33, 1⟩, ⟨0x24, 518⟩]
    let q : Program := [⟨0x30, 4⟩, ⟨0x33, 257⟩, ⟨0x24, 6⟩]
    List.Forall₂ (fun i j => i.opcode = j.opcode ∧
        i.operand.toNat ≡ j.operand.toNat [MOD m.width.modulus]) p q ∧
      (m.execute 2 p).result? = some (.error (.invalidRegister 6)) ∧
      m.execute 2 q = m.execute 2 p ∧
      ∃ image, Image.decode (Image.encode ⟨m.width, p⟩) = .ok image ∧ image.program ≠ p ∧
        m.execute 2 image.program = m.execute 2 p := by
  intro m p q
  have congruent : List.Forall₂ (fun i j => i.opcode = j.opcode ∧
      i.operand.toNat ≡ j.operand.toNat [MOD m.width.modulus]) p q :=
    .cons (by decide) (.cons (by decide) (.cons (by decide) .nil))
  obtain ⟨⟨same, _⟩, image, decoded, _, again, _⟩ := execute_modulo congruent 2
  refine ⟨congruent, by decide +kernel, same, image, decoded, ?_, again⟩
  obtain rfl := Except.ok.inj ((Image.decode_encode ⟨m.width, p⟩).symm.trans decoded)
  have narrowed : p.narrow m.width ≠ p := by decide
  exact narrowed

end Machine

end AccumulatorMachine
