import AccumulatorMachine.Machine.Execution
import AccumulatorMachine.Proofs.Word.Width
import Mathlib.Data.List.Forall2

/-! Programs that a machine of one width cannot tell apart. They differ only in bits of their
operands that are above the width, and loading drops those. -/
namespace AccumulatorMachine

/-- The same code, and operands with the same bits inside the width. -/
structure Instruction.Congruent (w : Width) (i j : Instruction) : Prop where
  opcode : i.opcode = j.opcode
  operand : w.truncate i.operand.toNat = w.truncate j.operand.toNat

def Program.Congruent (w : Width) (p q : Program) : Prop :=
  List.Forall₂ (Instruction.Congruent w) p q

/-- An instruction as a word of the width can hold it. -/
def Instruction.narrow (w : Width) (i : Instruction) : Instruction :=
  { i with operand := w.truncate i.operand.toNat }

def Program.narrow (w : Width) (p : Program) : Program :=
  p.map (Instruction.narrow w)

theorem Instruction.congruent_narrow (w : Width) (i : Instruction) :
    i.Congruent w (i.narrow w) where
  opcode := rfl
  operand := by
    rw [← UInt64.toNat_inj, narrow, w.toNat_truncate_natCast, w.toNat_truncate_natCast,
      Nat.mod_mod]

theorem Program.congruent_narrow (w : Width) (p : Program) : p.Congruent w (p.narrow w) := by
  induction p with
  | nil => exact .nil
  | cons i rest ih => exact .cons (i.congruent_narrow w) ih

namespace Machine

theorem write_congr {m : Machine} {word word' : UInt64}
    (same : m.width.truncate word.toNat = m.width.truncate word'.toNat) (address : UInt64) :
    m.write address word = m.write address word' := by
  rw [write, write, same]

theorem loadInstruction_congr {m : Machine} {i j : Instruction} (same : i.Congruent m.width j)
    (address : UInt64) : m.loadInstruction address i = m.loadInstruction address j := by
  simp only [loadInstruction, ← same.opcode]
  generalize coded : m.write address (UInt64.ofNat i.opcode.toNat) = m'
  have width : m'.width = m.width := by rw [← coded, width_write]
  cases cellAfter? address with
  | none => rfl
  | some after =>
    have operand := write_congr (m := m') (width ▸ same.operand) after
    simp only [operand]

theorem loadFrom_congr {m : Machine} {p q : Program} (same : p.Congruent m.width q)
    (first : Nat) : m.loadFrom first p = m.loadFrom first q := by
  generalize width : m.width = w at same
  induction same generalizing m first with
  | nil => rfl
  | cons head _ ih =>
    rw [loadFrom, loadFrom, loadInstruction_congr (width ▸ head)]
    exact ih _ ((m.width_loadInstruction _ _).trans width)

theorem cellCount_congr {w : Width} {p q : Program} (same : p.Congruent w q) :
    p.cellCount = q.cellCount := by
  rw [Program.cellCount, Program.cellCount, List.Forall₂.length_eq same]

theorem start_congr {m : Machine} {p q : Program} (same : p.Congruent m.width q) :
    m.start p = m.start q := by
  rw [Machine.start, Machine.start, cellCount_congr same, loadFrom_congr same,
    List.Forall₂.length_eq same]

/-- Whatever state the machine starts from, every stage of a run is the same for both. -/
theorem execute_congr {m : Machine} {p q : Program} (same : p.Congruent m.width q)
    (limit : Nat) : m.execute limit p = m.execute limit q := by
  rw [execute, execute, cellCount_congr same, start_congr same]

end Machine

end AccumulatorMachine
