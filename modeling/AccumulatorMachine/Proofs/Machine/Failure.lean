import AccumulatorMachine.Proofs.Machine.Run
import Mathlib.Control.Monad.Basic

/-! What a failure leaves behind. A program that is refused leaves the machine as it was. A
run that fails leaves the registers, memory and flags that it had when the failing
instruction was fetched: an operation finds out that it cannot be carried out before it
changes any of them. -/
namespace AccumulatorMachine

namespace Machine

/-- Why an operation cannot be carried out, and the machine that is left. -/
inductive Obstacle (m : Machine) (operand : UInt64) :
    Opcode → MachineError → Machine → Prop
  | noRegister (bumps : op = .increment ∨ op = .decrement)
      (none : ∀ r : Register, r.index ≠ operand.toNat) :
      Obstacle m operand op (.invalidRegister operand) m
  | noInput (none : m.input = none) : Obstacle m operand .input .missingDevice m
  | inputFault (device : m.input = some d) (fault : d.next = .error f) :
      Obstacle m operand .input (.device f) { m with input := some d.read }
  | outputFault (device : m.output = some d) (fault : d.next (m.register .acc) = .error f) :
      Obstacle m operand .output (.device f)
        { m with output := some (d.write (m.register .acc)) }

/-- Why the instruction at the program counter fails, and the machine that is left. -/
inductive Failure (m : Machine) : MachineError → Machine → Prop
  | outOfStorage (none : m.fetch? (m.register .pc) = none) : Failure m .addressOverflow m
  | invalidOpcode (fetched : m.fetch? (m.register .pc) = some (cell, operand))
      (unknown : ∀ op : Opcode, op.code.toNat ≠ cell.toNat) :
      Failure m (.invalidOpcode cell)
        (m.offerTrace (fetchText m.width (m.register .pc) cell operand))
  | obstacle (fetched : m.fetch? (m.register .pc) = some (cell, operand))
      (known : op.code.toNat = cell.toNat)
      (obstacle : (m.announced cell operand op).Obstacle operand op e m') : Failure m e m'

theorem obstacle_bump {m m' : Machine} {op : Opcode} {operand : UInt64} {amount : Int}
    {e : MachineError} (bumps : op = .increment ∨ op = .decrement)
    (failed : m.bump operand amount = (m', .error e)) : m.Obstacle operand op e m' := by
  simp only [bump] at failed
  split at failed
  · cases failed
  · next none =>
    cases failed
    apply Obstacle.noRegister bumps
    intro r index
    rw [Register.ofIndex?_eq_some_iff.mpr index] at none
    contradiction

theorem obstacle_of_perform_error {m m' : Machine} {op : Opcode} {operand : UInt64}
    {e : MachineError} (failed : m.perform op operand = (m', .error e)) :
    m.Obstacle operand op e m' := by
  cases op with
  | input =>
    simp only [perform, readInput] at failed
    split at failed
    · next none =>
      cases failed
      exact .noInput none
    · next device =>
      split at failed
      · cases failed
      · next fault =>
        cases failed
        exact .inputFault device fault
  | output =>
    simp only [perform, writeOutput] at failed
    split at failed
    · cases failed
    · next device =>
      split at failed
      · cases failed
      · next fault =>
        cases failed
        exact .outputFault device fault
  | increment => exact obstacle_bump (.inl rfl) failed
  | decrement => exact obstacle_bump (.inr rfl) failed
  | _ => cases failed

theorem failure_of_step_error {m m' : Machine} {e : MachineError}
    (failed : m.step = (m', .error e)) : m.Failure e m' := by
  have steps := m.steps_step
  rw [failed] at steps
  cases steps with
  | outOfStorage none => exact .outOfStorage none
  | unknown fetched unknown =>
    apply Failure.invalidOpcode fetched
    intro op code
    rw [decode?_eq_some_iff.mpr code] at unknown
    contradiction
  | failed fetched known failed =>
    exact .obstacle fetched (decode?_eq_some_iff.mp known) (obstacle_of_perform_error failed)

/-- Registers, memory and flags are the same; devices, trace and journal need not be. -/
structure SameState (m m' : Machine) : Prop where
  registers : ∀ r, m'.register r = m.register r
  memory : m'.memory = m.memory
  flags : m'.flags = m.flags

variable {m m' : Machine} {e : MachineError}

namespace Obstacle

variable {operand : UInt64} {op : Opcode}

theorem sameState (obstacle : m.Obstacle operand op e m') : m.SameState m' := by
  cases obstacle with
  | noRegister | noInput | inputFault | outputFault => exact ⟨fun _ => rfl, rfl, rfl⟩

/-- The word of a call that failed is not taken. -/
theorem taken (obstacle : m.Obstacle operand op e m') : m'.taken = m.taken := by
  cases obstacle with
  | noRegister | noInput | inputFault => rfl
  | @outputFault d f device fault =>
    have kept := d.taken_write (m.register .acc)
    rw [fault] at kept
    rw [Machine.taken, Machine.taken, device]
    simpa [Except.isOk, Except.toBool] using kept

theorem ne_programTooLarge (obstacle : m.Obstacle operand op e m') (instructions bits : Nat) :
    e ≠ .programTooLarge instructions bits := by
  cases obstacle with
  | noRegister | noInput | inputFault | outputFault =>
    intro same
    contradiction

end Obstacle

namespace Failure

theorem sameState (failure : m.Failure e m') : m.SameState m' := by
  cases failure with
  | outOfStorage | invalidOpcode => exact ⟨fun _ => rfl, rfl, rfl⟩
  | obstacle fetched known obstacle =>
    obtain ⟨registers, memory, flags⟩ := obstacle.sameState
    exact ⟨registers, memory, flags⟩

theorem taken (failure : m.Failure e m') : m'.taken = m.taken := by
  cases failure with
  | outOfStorage | invalidOpcode => rfl
  | obstacle fetched known obstacle => exact obstacle.taken

theorem ne_programTooLarge (failure : m.Failure e m') (instructions bits : Nat) :
    e ≠ .programTooLarge instructions bits := by
  cases failure with
  | outOfStorage | invalidOpcode =>
    intro same
    contradiction
  | obstacle fetched known obstacle => exact obstacle.ne_programTooLarge instructions bits

end Failure

/-- Programs are refused for their size exactly if not all their cells have addresses, and
no run of the others fails for it. -/
theorem never_programTooLarge_iff {p : Program} :
    (∀ limit instructions bits,
      (m.execute limit p).result? ≠ some (.error (.programTooLarge instructions bits))) ↔
      p.cellCount ≤ m.width.modulus := by
  constructor
  · intro accepted
    apply Nat.not_lt.mp
    intro large
    apply accepted 0 p.length m.width.bits
    rw [execute, start_eq_refused large]
    rfl
  · intro fits limit instructions bits refused
    have failed := Execution.eq_finished_of_result? refused
    rw [execute, start_eq_running fits] at failed
    obtain ⟨_, before, _, step⟩ := Execution.exists_step_of_after_error failed
    exact (failure_of_step_error step).ne_programTooLarge instructions bits rfl

/-- A run that fails for its size does nothing at all. One that fails otherwise does so at an
instruction that some number of successful steps lead to from the loaded program: the program
counter is still there, registers, memory and flags are what those steps left, what they put
out stays put out, and the failing instruction has called one device at most. -/
theorem execute_failed {p : Program} {limit : Nat}
    (failed : m.execute limit p = .finished m' (.error e)) :
    ((∃ instructions bits, e = .programTooLarge instructions bits) → m' = m) ∧
      ((∀ instructions bits, e ≠ .programTooLarge instructions bits) →
        ∃ k words before, m.execute k p = .running before k ∧
          (m.loaded p).Advances k words before ∧ before.step = (m', .error e) ∧
          before.Failure e m' ∧ before.SameState m' ∧ before.Calls m' ∧
          m'.taken = m.taken ++ words) := by
  by_cases large : m.width.modulus < p.cellCount
  · rw [execute, start_eq_refused large, Execution.after_finished] at failed
    cases failed
    constructor
    · intro _
      rfl
    · intro other
      exact absurd rfl (other _ _)
  · have started := start_eq_running (Nat.not_lt.mp large)
    rw [execute, started] at failed
    obtain ⟨k, before, stage, step⟩ := Execution.exists_step_of_after_error failed
    obtain ⟨_, words, run⟩ := Execution.advances_of_after stage
    have failure := failure_of_step_error step
    constructor
    · rintro ⟨instructions, bits, rfl⟩
      exact absurd rfl (failure.ne_programTooLarge instructions bits)
    · intro _
      have running : m.execute k p = .running before k := by
        rw [execute, started]
        exact stage
      have taken : m'.taken = m.taken ++ words := by
        rw [failure.taken, run.taken, loaded_frame]
        rfl
      have calls := before.calls_step
      rw [step] at calls
      exact ⟨k, words, before, running, run, step, failure, failure.sameState, calls, taken⟩

/-- A device that takes one word: the second output fails at address 6, after the increment
before it. A program of more instructions than addresses is refused. -/
theorem execute_failed_of_full_device :
    let m := ({ width := ⟨8, by decide, by decide⟩ } : Machine).attachOutput (.recorder (some 1))
    let p : Program := [⟨0x00, 65⟩, ⟨0x11, 0⟩, ⟨0x24, 0⟩, ⟨0x11, 0⟩, ⟨0x33, 0⟩]
    let large : Program := List.replicate 129 ⟨0x33, 0⟩
    (∃ m', m.execute 9 p = .finished m' (.error (.device .recorderFull)) ∧
      (m'.register .pc, m'.register .acc) = (6, 66) ∧ m'.taken = [65] ∧
      ∃ k words before, m.execute k p = .running before k ∧
        (m.loaded p).Advances k words before ∧
        before.step = (m', .error (.device .recorderFull)) ∧
        before.Failure (.device .recorderFull) m' ∧ before.SameState m' ∧ before.Calls m' ∧
        m'.taken = m.taken ++ words) ∧
      ∃ m', m.execute 9 large = .finished m' (.error (.programTooLarge 129 8)) ∧ m' = m := by
  intro m p large
  constructor
  · have failed : (m.execute 9 p).result? = some (.error (.device .recorderFull)) := by
      decide +kernel
    have finished := Execution.eq_finished_of_result? failed
    refine ⟨_, finished, by decide +kernel, by decide +kernel, (execute_failed finished).2 ?_⟩
    intro instructions bits same
    contradiction
  · have count : large.length = 129 := List.length_replicate
    have tooMany : m.width.modulus < large.cellCount := by
      rw [Program.cellCount, count]
      decide
    have refused : m.execute 9 large = .finished m (.error (.programTooLarge 129 8)) := by
      rw [execute, start_eq_refused tooMany, Execution.after_finished, count]
      rfl
    exact ⟨_, refused, (execute_failed refused).1 ⟨_, _, rfl⟩⟩

end Machine

end AccumulatorMachine
