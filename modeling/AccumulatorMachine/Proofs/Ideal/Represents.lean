import AccumulatorMachine.Proofs.Ideal.Basic
import AccumulatorMachine.Proofs.Machine.Transition

/-! The machine stands for the ideal machine: words of storage for residues, a sparse memory
for a total one. Whatever one of them does in a step, the other does. -/
namespace AccumulatorMachine

variable {w : Width} {s t : Ideal w} {m m' : Machine}

/-- Words of the machine are the least representatives of the residues. Past the last
64-bit address the ideal machine is free. -/
structure Represents (s : Ideal w) (m : Machine) : Prop where
  width : m.width = w
  registers : ∀ r, (s.registers r).val = (m.register r).toNat
  memory : ∀ address : UInt64, (s.memory address.toNat).val = (m.read address).toNat
  flags : s.flags = m.flags
  input : s.input = m.input
  output : s.output = m.output

theorem val_intCast_residue (w : Width) (value : Int) :
    (value : Residue w).val = (w.truncate value).toNat := by
  have residue : ((value : Residue w).val : Int) = value % ((2 ^ w.bits : Nat) : Int) :=
    ZMod.val_intCast value
  have word := w.toNat_truncate value
  rw [Width.modulus_eq] at word
  exact_mod_cast residue.trans word.symm

theorem residue_eq_natCast {v : Residue w} {n : Nat} (val : v.val = n) : v = (n : Residue w) := by
  rw [← val, ZMod.natCast_zmod_val]

namespace Represents

theorem around (h : Represents s m) (trace : Option Trace) (journal : Array LogRecord) :
    Represents s { m with trace, journal } :=
  ⟨h.width, h.registers, h.memory, h.flags, h.input, h.output⟩

theorem put (h : Represents s m) (r : Register) {value : Int} {v : Residue w}
    (same : v = (value : Residue w)) : Represents (s.set r v) (m.put r value) where
  width := h.width
  registers r' := by
    rw [Machine.register_put, Ideal.registers_set]
    split
    · rw [same, val_intCast_residue, h.width]
    · exact h.registers r'
  memory := h.memory
  flags := h.flags
  input := h.input
  output := h.output

theorem write (h : Represents s m) {address word : UInt64} {v : Residue w}
    (same : v.val = word.toNat) :
    Represents { s with memory := Function.update s.memory address.toNat v }
      (m.write address word) where
  width := h.width
  registers := h.registers
  memory other := by
    rw [Machine.read_write]
    simp only [Function.update_apply, UInt64.toNat_inj]
    split
    · have bound := ZMod.val_lt v
      rw [h.width, Width.toNat_truncate_natCast, ← same, Width.modulus_eq,
        Nat.mod_eq_of_lt bound]
    · exact h.memory other
  flags := h.flags
  input := h.input
  output := h.output

theorem acc_word (h : Represents s m) :
    UInt64.ofNat (s.registers .acc).val = m.register .acc := by
  rw [h.registers, UInt64.ofNat_toNat]

end Represents

namespace Machine

def value (m : Machine) (operand : UInt64) : Addressing → UInt64
  | .immediate => operand
  | .direct => m.read operand
  | .indirect => m.read (m.read operand)
  | .indexed => m.read (m.register .acc + m.register .ix)
  | .accumulator => m.register .acc

end Machine

namespace Represents

theorem value (h : Represents s m) {operand : UInt64} {v : Residue w}
    (same : v.val = operand.toNat) (a : Addressing) :
    (s.value v a).val = (m.value operand a).toNat := by
  cases a with
  | immediate => exact same
  | direct => rw [Ideal.value, same, h.memory]; rfl
  | indirect => rw [Ideal.value, same, h.memory, h.memory]; rfl
  | indexed =>
    rw [Ideal.value, h.registers, h.registers, ← UInt64.toNat_add, h.memory]
    rfl
  | accumulator => exact h.registers .acc

theorem compared (h : Represents s m) {word : UInt64} {v : Residue w}
    (same : v.val = word.toNat) :
    s.compared v = m.flags.compare (m.register .acc) word := by
  have zero : s.registers .acc = v ↔ m.register .acc = word := by
    rw [← UInt64.toNat_inj, ← h.registers, ← same]
    exact (ZMod.val_injective _).eq_iff.symm
  simp only [Ideal.compared, Flags.compare, h.flags, h.registers, same, zero,
    UInt64.lt_iff_toNat_lt]
  rfl

end Represents

inductive Leads : Control w → Flow → Prop
  | next : Leads .next .next
  | jump {target : Residue w} {address : UInt64} (same : target.val = address.toNat) :
      Leads (.goTo target) (.jump address)
  | halt : Leads .halt .halt

/-- The same outcome of an instruction, an error included. -/
inductive Agrees : Ideal w × Except MachineError (Control w) →
    Machine × Except MachineError Flow → Prop
  | ok {s : Ideal w} {m : Machine} (state : Represents s m) (leads : Leads c f) :
      Agrees (s, .ok c) (m, .ok f)
  | error {s : Ideal w} {m : Machine} (state : Represents s m) (e : MachineError) :
      Agrees (s, .error e) (m, .error e)

/-- The same outcome of a step. The number that control goes to is the program counter
before it is reduced. -/
inductive StepAgrees : Ideal w × Except MachineError (Control w × Nat) →
    Machine × Except MachineError (Flow × Nat) → Prop
  | ok {s : Ideal w} {m : Machine} (state : Represents s m) (leads : Leads c f)
      (pc : (m.register .pc).toNat = n % 2 ^ w.bits) : StepAgrees (s, .ok (c, n)) (m, .ok (f, n))
  | error {s : Ideal w} {m : Machine} (state : Represents s m) (e : MachineError) :
      StepAgrees (s, .error e) (m, .error e)

namespace Represents

theorem load (h : Represents s m) (r : Register) {word : UInt64} {v : Residue w}
    (same : v.val = word.toNat) : Agrees (s.set r v, .ok .next) (m.load r word) :=
  .ok (h.put r (by exact_mod_cast residue_eq_natCast same)) .next

theorem accumulate (h : Represents s m) {amount : Int} {v : Residue w}
    (same : v = (amount : Residue w)) :
    Agrees (s.set .acc (s.registers .acc + v), .ok .next) (m.accumulate amount) := by
  refine .ok (h.put .acc ?_) .next
  rw [residue_eq_natCast (h.registers .acc), same]
  push_cast
  rfl

theorem adjust (h : Represents s m) (amount : Int) {operand : UInt64} {v : Residue w}
    (same : v.val = operand.toNat) :
    Agrees (s.act v (.adjust amount)) (m.bump operand amount) := by
  simp only [Ideal.act, Machine.bump, same, Register.find?_index]
  cases Register.ofIndex? operand.toNat with
  | none =>
    rw [UInt64.ofNat_toNat]
    exact .error h _
  | some r =>
    refine .ok (h.put r ?_) .next
    rw [residue_eq_natCast (h.registers r)]
    push_cast
    rfl

theorem readInput (h : Represents s m) (v : Residue w) : Agrees (s.act v .input) m.readInput := by
  simp only [Ideal.act, Machine.readInput, h.input]
  cases m.input with
  | none => exact .error h _
  | some device =>
    have called : Represents { s with input := some device.read }
        { m with input := some device.read } :=
      ⟨h.width, h.registers, h.memory, h.flags, rfl, h.output⟩
    cases answer : device.next with
    | ok word =>
      simp only [answer]
      exact .ok (called.put .acc (by push_cast; rfl)) .next
    | error fault =>
      simp only [answer]
      exact .error called _

theorem writeOutput (h : Represents s m) (v : Residue w) :
    Agrees (s.act v .output) m.writeOutput := by
  simp only [Ideal.act, Machine.writeOutput, h.output, h.acc_word]
  cases m.output with
  | none => exact .ok (h.around _ _) .next
  | some device =>
    have called : Represents { s with output := some (device.write (m.register .acc)) }
        { m with output := some (device.write (m.register .acc)) } :=
      ⟨h.width, h.registers, h.memory, h.flags, h.input, rfl⟩
    cases answer : device.next (m.register .acc) with
    | ok =>
      simp only [answer]
      exact .ok called .next
    | error fault =>
      simp only [answer]
      exact .error called _

theorem compareWith (h : Represents s m) {word : UInt64} {v : Residue w}
    (same : v.val = word.toNat) :
    Agrees ({ s with flags := s.compared v }, .ok .next) (m.compareWith word) :=
  .ok ⟨h.width, h.registers, h.memory, h.compared same, h.input, h.output⟩ .next

theorem jumpIf (h : Represents s m) {zero condition : Bool}
    (test : condition = ((m.register .acc == 0) == zero)) {operand : UInt64} {v : Residue w}
    (same : v.val = operand.toNat) :
    Agrees (s.act v (.jumpIf zero)) (m, .ok (.jumpIf condition operand)) := by
  have isZero : decide (s.registers .acc = 0) = (m.register .acc == 0) := by
    rw [Bool.eq_iff_iff, decide_eq_true_eq, beq_iff_eq, ← ZMod.val_eq_zero, h.registers,
      ← UInt64.toNat_inj, UInt64.toNat_zero]
  simp only [Ideal.act, Flow.jumpIf, test, isZero, beq_iff_eq]
  split
  · exact .ok h (.jump same)
  · exact .ok h .next

/-- Every operation does on words what its effect does on residues. -/
theorem perform (h : Represents s m) (op : Opcode) {operand : UInt64} {v : Residue w}
    (same : v.val = operand.toNat) : Agrees (s.act v op.effect) (m.perform op operand) := by
  have amount : ∀ a, s.value v a = (((m.value operand a).toNat : Int) : Residue w) := by
    intro a
    exact_mod_cast residue_eq_natCast (h.value same a)
  have subtracted : ∀ a,
      s.registers .acc - s.value v a =
        s.registers .acc + ((-((m.value operand a).toNat : Int) : Int) : Residue w) := by
    intro a
    rw [amount a, Int.cast_neg, sub_eq_add_neg]
  cases op with
  | loadImmediate => exact h.load .acc (h.value same .immediate)
  | loadDirect => exact h.load .acc (h.value same .direct)
  | loadIndirect => exact h.load .acc (h.value same .indirect)
  | loadIndexed => exact h.load .acc (h.value same .indexed)
  | loadIndex => exact h.load .ix (h.value same .immediate)
  | copyToIndex => exact h.load .ix (h.value same .accumulator)
  | store =>
    simp only [Opcode.effect, Ideal.act, Machine.perform, h.registers .mar]
    exact .ok (h.write (h.registers .acc)) .next
  | pass => exact .ok h .next
  | input => exact h.readInput v
  | output => exact h.writeOutput v
  | addDirect => exact h.accumulate (amount .direct)
  | addImmediate => exact h.accumulate (amount .immediate)
  | subDirect =>
    simp only [Opcode.effect, Ideal.act, subtracted]
    exact h.accumulate rfl
  | subImmediate =>
    simp only [Opcode.effect, Ideal.act, subtracted]
    exact h.accumulate rfl
  | increment => exact h.adjust 1 same
  | decrement => exact h.adjust (-1) same
  | jump => exact .ok h (.jump same)
  | jumpIfZero => exact h.jumpIf (by simp) same
  | jumpIfNonzero => exact h.jumpIf (by simp [bne]) same
  | halt => exact .ok h .halt
  | compareDirect => exact h.compareWith (h.value same .direct)
  | compareImmediate => exact h.compareWith (h.value same .immediate)
  | compareIndirect => exact h.compareWith (h.value same .indirect)

theorem decode? (cell : UInt64) {v : Residue w} (same : v.val = cell.toNat) :
    Ideal.decode? v = Machine.decode? cell := by
  rw [Ideal.decode?, Machine.decode?, Opcode.ofCode?, same]
  split
  · next byte =>
    congr 1
    funext op
    rw [Bool.eq_iff_iff, decide_eq_true_eq, beq_iff_eq, ← UInt8.toNat_inj, UInt8.toNat_ofNat',
      Nat.mod_eq_of_lt byte]
  · next large =>
    refine List.find?_eq_none.mpr fun op _ => ?_
    have bound := op.code.toNat_lt
    rw [decide_eq_true_eq]
    omega

theorem fetch? (h : Represents s m) :
    (s.fetch? = none ∧ m.fetch? (m.register .pc) = none) ∨
      ∃ v v' cell operand, s.fetch? = some (v, v') ∧
        m.fetch? (m.register .pc) = some (cell, operand) ∧
        v.val = cell.toNat ∧ v'.val = operand.toNat := by
  cases after : Machine.cellAfter? (m.register .pc) with
  | none =>
    have last : (m.register .pc).toNat + 1 = 2 ^ 64 := Machine.cellAfter?_eq_none_iff.mp after
    refine .inl ⟨?_, by rw [Machine.fetch?, after]; rfl⟩
    simp only [Ideal.fetch?, h.registers]
    exact if_neg (by omega)
  | some following =>
    have next := Machine.cellAfter?_eq_some_iff.mp after
    have bound := following.toNat_lt
    refine .inr ⟨_, _, _, _, ?_, by rw [Machine.fetch?, after]; rfl,
      h.memory (m.register .pc), h.memory following⟩
    simp only [Ideal.fetch?, h.registers, next]
    exact if_pos (by omega)

theorem destination (h : Represents s m) {c : Control w} {f : Flow} (leads : Leads c f) :
    s.destination c = m.successor f := by
  cases leads with
  | jump same => exact same
  | next | halt => simp only [Ideal.destination, Machine.successor, h.registers]; rfl

theorem step (h : Represents s m) : StepAgrees s.step m.step := by
  obtain ⟨noCell, noCell'⟩ | ⟨v, v', cell, operand, fetched, fetched', code, argument⟩ := h.fetch?
  · simp only [Ideal.step, Machine.step, noCell, noCell']
    exact .error h _
  · have decoded := decode? cell code
    have announced : ∀ cell operand op, Represents s (m.announced cell operand op) :=
      fun _ _ _ => h.around _ _
    have steps := m.steps_step
    generalize m.step = outcome at steps ⊢
    cases steps with
    | outOfStorage none => rw [fetched'] at none; contradiction
    | unknown again unknown =>
      cases Option.some.inj (fetched'.symm.trans again)
      simp only [Ideal.step, fetched, decoded, unknown, code, UInt64.ofNat_toNat]
      exact .error (h.around _ _) _
    | @failed _ _ op _ _ again known failed =>
      cases Option.some.inj (fetched'.symm.trans again)
      have agrees := (announced cell operand op).perform op argument
      rw [failed] at agrees
      simp only [Ideal.step, fetched, decoded, known]
      generalize s.act v' op.effect = acted at agrees ⊢
      cases agrees with
      | error state => exact .error state _
    | @done _ _ op m' flow again known done =>
      cases Option.some.inj (fetched'.symm.trans again)
      have agrees := (announced cell operand op).perform op argument
      rw [done] at agrees
      simp only [Ideal.step, fetched, decoded, known]
      generalize s.act v' op.effect = acted at agrees ⊢
      cases agrees with
      | ok state leads =>
        simp only [state.destination leads]
        refine .ok (state.put .pc (by push_cast; rfl)) leads ?_
        rw [Machine.register_put, if_pos rfl, Width.toNat_truncate_natCast, state.width,
          Width.modulus_eq]

end Represents

end AccumulatorMachine
