import AccumulatorMachine.Proofs.Machine.Stage
import Mathlib.Algebra.BigOperators.Group.List.Basic
import Mathlib.Tactic.Ring

/-! Programs that do nothing but add to the accumulator: operands that are added or subtracted, and
ones. Narrowing after each instruction, and narrowing the operands before, comes to narrowing the
sum once, so that the order of the instructions does not matter. -/
namespace AccumulatorMachine

/-- An instruction that only adds an amount to the accumulator. -/
inductive Instruction.Adds : Instruction → Int → Prop
  | add (word : UInt64) : Adds (.ofOpcode .addImmediate word) word.toNat
  | subtract (word : UInt64) : Adds (.ofOpcode .subImmediate word) (-word.toNat)
  | increment : Adds (.ofOpcode .increment 0) 1
  | decrement : Adds (.ofOpcode .decrement 0) (-1)

namespace Program

/-- No instruction does anything but add to the accumulator. -/
def Additive (p : Program) : Prop :=
  ∀ i ∈ p, ∃ amount, i.Adds amount

/-- The sum of the operands that come with an operation. -/
def operandSum (op : Opcode) (p : Program) : Int :=
  ((p.filter fun i => i.opcode = op.code).map fun i => (i.operand.toNat : Int)).sum

/-- What is added less what is subtracted, with one more for each increment of the accumulator and
one less for each decrement. -/
def netAmount (p : Program) : Int :=
  p.operandSum .addImmediate - p.operandSum .subImmediate +
    p.count (.ofOpcode .increment 0) - p.count (.ofOpcode .decrement 0)

variable {p q : Program}

theorem netAmount_append (p q : Program) : netAmount (p ++ q) = p.netAmount + q.netAmount := by
  have sums : ∀ op, operandSum op (p ++ q) = p.operandSum op + q.operandSum op := by
    intro op
    rw [operandSum, List.filter_append, List.map_append, List.sum_append, operandSum, operandSum]
  simp only [netAmount, sums, List.count_append, Nat.cast_add]
  ring

theorem netAmount_singleton {i : Instruction} {amount : Int} (adds : i.Adds amount) :
    netAmount [i] = amount := by
  cases adds with
  | add | subtract | increment | decrement =>
    simp [netAmount, operandSum, Instruction.ofOpcode, Opcode.code]

theorem netAmount_perm (same : p.Perm q) : p.netAmount = q.netAmount := by
  have sums : ∀ op, p.operandSum op = q.operandSum op := fun op =>
    ((same.filter _).map _).sum_eq
  rw [netAmount, netAmount, sums, sums, same.count_eq, same.count_eq]

theorem Additive.perm (additive : p.Additive) (same : p.Perm q) : q.Additive :=
  fun i member => additive i (same.mem_iff.mpr member)

end Program

namespace Machine

open Execution

/-- An amount has been added to the accumulator, and of the other registers and the flags nothing
but the program counter has changed. -/
structure Gains (m : Machine) (amount : Int) (m' : Machine) : Prop where
  acc : ((m'.register .acc).toNat : Int) = ((m.register .acc).toNat + amount) % m.width.modulus
  registers : ∀ r, r ≠ .acc → r ≠ .pc → m'.register r = m.register r
  flags : m'.flags = m.flags
  width : m'.width = m.width

variable {m m' m'' : Machine} {p : Program} {i : Instruction} {amount amount' : Int}

theorem Gains.trans (first : m.Gains amount m') (second : m'.Gains amount' m'') :
    m.Gains (amount + amount') m'' where
  acc := by rw [second.acc, first.width, first.acc, Int.emod_add_emod, add_assoc]
  registers r other counter :=
    (second.registers r other counter).trans (first.registers r other counter)
  flags := second.flags.trans first.flags
  width := second.width.trans first.width

theorem Gains.of_movesTo {address : Nat} (gains : m.Gains amount m')
    (moves : m'.MovesTo address m'') : m.Gains amount m'' where
  acc := by rw [moves.registers .acc (by decide), gains.acc]
  registers r other counter :=
    (moves.registers r counter).trans (gains.registers r other counter)
  flags := moves.flags.trans gains.flags
  width := moves.width.trans gains.width

/-- Loading adds nothing to an accumulator that holds a word of the width. -/
theorem gains_loaded (word : (m.register .acc).toNat < m.width.modulus) (p : Program) :
    m.Gains 0 (m.loaded p) := by
  have kept : ∀ r, r ≠ .pc → (m.loaded p).register r = m.register r := by
    intro r counter
    rw [loaded, register_put, if_neg counter, loadFrom_frame]
    rfl
  refine ⟨?_, fun r _ counter => kept r counter, by rw [loaded_frame], m.width_loaded p⟩
  rw [kept .acc (by decide), add_zero]
  exact_mod_cast (Nat.mod_eq_of_lt word).symm

/-- Storing the sum, or what comes to the same when it is narrowed. -/
theorem gains_put_about {value : Int} (reduces : value % m.width.modulus =
    ((m.register .acc).toNat + amount) % m.width.modulus) (i : Instruction) (op : Opcode) :
    m.Gains amount ((m.about i op).put .acc value) where
  acc := by
    rw [register_put, if_pos rfl, ← reduces]
    exact m.width.toNat_truncate value
  registers r other _ := by
    rw [register_put, if_neg other]
    rfl
  flags := rfl
  width := rfl

/-- The operand is narrowed before it is added or subtracted, which makes no difference to the
narrowed result. -/
theorem exists_carryOut_of_adds (adds : i.Adds amount) (m : Machine) :
    ∃ op after, i.opcode = op.code ∧ m.carryOut i op = (after, .ok .next) ∧ op ≠ .store ∧
      op.stored? (m.width.truncate i.operand.toNat) = some .acc ∧ m.Gains amount after := by
  have zero : m.width.truncate ((0 : UInt64).toNat : Int) = 0 := m.width.truncate_zero
  cases adds with
  | add word =>
    refine ⟨.addImmediate, _, rfl, rfl, by decide, rfl, gains_put_about ?_ _ _⟩
    rw [m.width.toNat_truncate, Int.add_emod_emod]
    rfl
  | subtract word =>
    refine ⟨.subImmediate, _, rfl, rfl, by decide, rfl, gains_put_about ?_ _ _⟩
    rw [m.width.toNat_truncate, ← sub_eq_add_neg, ← sub_eq_add_neg, Int.sub_emod_emod]
    rfl
  | increment =>
    refine ⟨.increment, (m.about (.ofOpcode .increment 0) .increment).put .acc
      ((m.register .acc).toNat + 1), rfl, ?_, by decide, ?_, gains_put_about rfl _ _⟩
    · rw [carryOut, Instruction.ofOpcode, zero]
      rfl
    · rw [Instruction.ofOpcode, zero]
      rfl
  | decrement =>
    refine ⟨.decrement, (m.about (.ofOpcode .decrement 0) .decrement).put .acc
      ((m.register .acc).toNat + -1), rfl, ?_, by decide, ?_, gains_put_about rfl _ _⟩
    · rw [carryOut, Instruction.ofOpcode, zero]
      rfl
    · rw [Instruction.ofOpcode, zero]
      rfl

/-- The instruction at a stage adds to what those before it have added, and the run goes on. -/
theorem exists_onwards_of_additive (additive : p.Additive) (fits : p.cellCount ≤ m.width.modulus)
    {before : Machine} {k : Nat} (stage : m.execute k p = .running before k)
    (reaches : before.Reaches m.width p k) (gains : m.Gains (Program.netAmount (p.take k)) before) :
    ∃ after, (m.execute (k + 1) p).Onwards m.width p k k after ∧
      m.Gains (Program.netAmount (p.take (k + 1))) after := by
  have inside := reaches.inside
  have listed : p[k]? = some p[k] := List.getElem?_eq_getElem inside
  obtain ⟨amount, adds⟩ := additive _ (List.mem_of_getElem? listed)
  obtain ⟨op, after, code, done, noStore, stored, gains'⟩ := exists_carryOut_of_adds adds before
  have noBump : op.stored? (before.width.truncate p[k].operand.toNat) ≠ some .pc := by
    rw [stored]
    decide
  refine ⟨after, ?_, ?_⟩
  · rw [execute_succ, stage]
    exact reaches.onwards fits listed code done noStore noBump k
  · rw [List.take_succ_eq_append_getElem inside, Program.netAmount_append,
      Program.netAmount_singleton adds]
    exact gains.trans gains'

/-- Each stage has added what the instructions before it add. -/
theorem exists_stage_of_additive (additive : p.Additive) (fits : p.cellCount ≤ m.width.modulus)
    (word : (m.register .acc).toNat < m.width.modulus) {k : Nat} (inside : k < p.length) :
    ∃ before, m.execute k p = .running before k ∧ before.Reaches m.width p k ∧
      m.Gains (Program.netAmount (p.take k)) before := by
  induction k with
  | zero => exact ⟨_, start_eq_running fits, reaches_loaded fits inside, gains_loaded word p⟩
  | succ k ih =>
    obtain ⟨before, stage, reaches, gains⟩ := ih (by omega)
    obtain ⟨_, onwards, gains'⟩ := exists_onwards_of_additive additive fits stage reaches gains
    obtain ⟨after, goesOn, reaches', moves⟩ := onwards.exists_running inside
    exact ⟨after, goesOn, reaches', gains'.of_movesTo moves⟩

theorem exists_end_of_additive (additive : p.Additive) (fits : p.cellCount ≤ m.width.modulus)
    (word : (m.register .acc).toNat < m.width.modulus) :
    ∃ last, (∀ limit, 0 < limit → p.length ≤ limit →
        m.execute limit p = .finished last (.ok ⟨p.length, false⟩)) ∧
      m.Gains p.netAmount last := by
  obtain empty | inside := p.length.eq_zero_or_pos
  · obtain rfl := List.length_eq_zero_iff.mp empty
    obtain ⟨acc, registers, flags, width⟩ := gains_loaded word []
    exact ⟨_, fun limit some _ => execute_of_le (execute_nil m) some, acc, registers, flags, width⟩
  · have whole : p.length - 1 + 1 = p.length := Nat.sub_add_cancel inside
    obtain ⟨before, stage, reaches, gains⟩ :=
      exists_stage_of_additive additive fits word (k := p.length - 1) (by omega)
    obtain ⟨_, onwards, gains'⟩ := exists_onwards_of_additive additive fits stage reaches gains
    obtain ⟨last, ended, moves⟩ := onwards.exists_finished whole
    rw [whole] at ended
    rw [whole, List.take_length] at gains'
    exact ⟨last, fun limit _ long => execute_of_le ended long, gains'.of_movesTo moves⟩

/-- A program that only adds is carried out to its end, an instruction at each step, and leaves the
sum of what it adds, narrowed; so do its instructions in any other order. -/
theorem execute_additive (additive : p.Additive) (fits : 2 * p.length ≤ 2 ^ m.width.bits)
    (word : (m.register .acc).toNat < 2 ^ m.width.bits) :
    ∃ last, (∀ limit, 0 < limit → p.length ≤ limit →
        m.execute limit p = .finished last (.ok ⟨p.length, false⟩)) ∧
      ((last.register .acc).toNat : Int) =
        ((m.register .acc).toNat + p.operandSum .addImmediate - p.operandSum .subImmediate +
          p.count (.ofOpcode .increment 0) - p.count (.ofOpcode .decrement 0)) % 2 ^ m.width.bits ∧
      (∀ r, r ≠ .acc → r ≠ .pc → last.register r = m.register r) ∧ last.flags = m.flags ∧
      ∀ q : Program, p.Perm q → ∃ other,
        (∀ limit, 0 < limit → q.length ≤ limit →
          m.execute limit q = .finished other (.ok ⟨q.length, false⟩)) ∧
        other.register .acc = last.register .acc := by
  have room : ∀ q : Program, p.Perm q → q.cellCount ≤ m.width.modulus := by
    intro q same
    rw [Program.cellCount, cellsPerInstruction, ← same.length_eq, Nat.mul_comm]
    exact fits
  obtain ⟨last, ended, gains⟩ := exists_end_of_additive additive (room p (.refl p)) word
  refine ⟨last, ended, ?_, gains.registers, gains.flags, ?_⟩
  · rw [gains.acc, Program.netAmount, m.width.modulus_eq, Nat.cast_pow]
    congr 1
    ring
  · intro q same
    obtain ⟨other, ended', gains'⟩ :=
      exists_end_of_additive (additive.perm same) (room q same) word
    refine ⟨other, ended', UInt64.toNat_inj.mp (Nat.cast_injective (R := Int) ?_)⟩
    rw [gains'.acc, gains.acc, Program.netAmount_perm same]

/-- On a machine of 8 bits: an operand that needs more of them, a sum that leaves the range above,
and the same instructions backwards, which leave it below. -/
theorem execute_additive_of_both_ends :
    let m : Machine := { width := ⟨8, by decide, by decide⟩, registers := { acc := 3, ix := 9 } }
    let p : Program := [⟨0x21, 300⟩, ⟨0x24, 0⟩, ⟨0x21, 250⟩, ⟨0x25, 0⟩, ⟨0x23, 7⟩]
    p.Additive ∧ 2 * p.length ≤ 2 ^ m.width.bits ∧ (m.register .acc).toNat < 2 ^ m.width.bits ∧
      ∃ last other,
        (∀ limit, 5 ≤ limit → m.execute limit p = .finished last (.ok ⟨5, false⟩)) ∧
        (last.register .acc).toNat = 34 ∧ last.register .ix = 9 ∧ last.flags = m.flags ∧
        (∀ limit, 5 ≤ limit → m.execute limit p.reverse = .finished other (.ok ⟨5, false⟩)) ∧
        other.register .acc = last.register .acc := by
  intro m p
  have additive : p.Additive := by
    intro i member
    simp only [p, List.mem_cons, List.not_mem_nil, or_false] at member
    obtain rfl | rfl | rfl | rfl | rfl := member
    · exact ⟨_, .add 300⟩
    · exact ⟨_, .increment⟩
    · exact ⟨_, .add 250⟩
    · exact ⟨_, .decrement⟩
    · exact ⟨_, .subtract 7⟩
  have fits : 2 * p.length ≤ 2 ^ m.width.bits := by decide
  have word : (m.register .acc).toNat < 2 ^ m.width.bits := by decide
  obtain ⟨last, ended, acc, registers, flags, orders⟩ := execute_additive additive fits word
  obtain ⟨other, ended', same⟩ := orders p.reverse p.reverse_perm.symm
  have sum : ((m.register .acc).toNat + p.operandSum .addImmediate - p.operandSum .subImmediate +
      p.count (.ofOpcode .increment 0) - p.count (.ofOpcode .decrement 0)) %
        2 ^ m.width.bits = (34 : Int) := by decide
  refine ⟨additive, fits, word, last, other, ?_, by omega, registers .ix (by decide) (by decide),
    flags, ?_, same⟩
  · intro limit long
    exact ended limit (by omega) long
  · intro limit long
    exact ended' limit (by omega) long

end Machine

end AccumulatorMachine
