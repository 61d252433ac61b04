import AccumulatorMachine.Machine.Execution
import AccumulatorMachine.Proofs.Word.Width

/-! The cases of one step of a machine and of one stage of a run. What is proved about runs
is proved from these cases, so that the definitions are taken apart only here. -/
namespace AccumulatorMachine

namespace Machine

theorem decode?_eq_some_iff {cell : UInt64} {op : Opcode} :
    decode? cell = some op ↔ op.code.toNat = cell.toNat := by
  have bound := op.code.toNat_lt
  rw [decode?]
  split
  · next byte =>
    rw [Opcode.ofCode?_eq_some_iff, ← UInt8.toNat_inj, UInt8.toNat_ofNat',
      Nat.mod_eq_of_lt byte]
  · next large =>
    constructor
    · intro decoded
      contradiction
    · intro same
      omega

theorem decode?_code (op : Opcode) : decode? (UInt64.ofNat op.code.toNat) = some op := by
  rw [decode?_eq_some_iff, toNat_ofNat_byte]

/-- The machine that has traced and recorded the instruction at its program counter and
has still to carry it out. -/
def announced (m : Machine) (cell operand : UInt64) (op : Opcode) : Machine :=
  (m.offerTrace (fetchText m.width (m.register .pc) cell operand)).record
    (.decoded (m.register .pc) op operand)

inductive Steps (m : Machine) : Machine × Except MachineError (Flow × Nat) → Prop
  /-- The operand would lie past the end of storage. -/
  | outOfStorage (none : m.fetch? (m.register .pc) = none) :
      Steps m (m, .error .addressOverflow)
  | unknown (fetched : m.fetch? (m.register .pc) = some (cell, operand))
      (unknown : decode? cell = none) :
      Steps m (m.offerTrace (fetchText m.width (m.register .pc) cell operand),
        .error (.invalidOpcode cell))
  | failed (fetched : m.fetch? (m.register .pc) = some (cell, operand))
      (known : decode? cell = some op)
      (failed : (m.announced cell operand op).perform op operand = (m', .error e)) :
      Steps m (m', .error e)
  | done (fetched : m.fetch? (m.register .pc) = some (cell, operand))
      (known : decode? cell = some op)
      (done : (m.announced cell operand op).perform op operand = (m', .ok flow)) :
      Steps m (m'.put .pc (m'.successor flow), .ok (flow, m'.successor flow))

theorem steps_step (m : Machine) : Steps m m.step := by
  cases fetched : m.fetch? (m.register .pc) with
  | none => simpa only [step, fetched] using Steps.outOfStorage fetched
  | some pair =>
    obtain ⟨cell, operand⟩ := pair
    cases known : decode? cell with
    | none => simpa only [step, fetched, known] using Steps.unknown fetched known
    | some op =>
      have advanced : m.step = (m.announced cell operand op).advance op operand := by
        simp only [step, fetched, known, announced]
      rw [advanced]
      cases carried : (m.announced cell operand op).perform op operand with
      | mk m' outcome =>
        cases outcome with
        | error e => simpa only [advance, carried] using Steps.failed fetched known carried
        | ok flow => simpa only [advance, carried] using Steps.done fetched known carried

/-- No step has two cases. -/
theorem Steps.step_eq {m : Machine} {outcome : Machine × Except MachineError (Flow × Nat)}
    (steps : Steps m outcome) : m.step = outcome := by
  cases steps with
  | outOfStorage none => simp only [step, none]
  | unknown fetched unknown => simp only [step, fetched, unknown]
  | failed fetched known failed | done fetched known failed =>
    rw [announced] at failed
    simp only [step, fetched, known, advance, failed]

/-- The machine after a successful step, with its state in the trace. -/
def dumped (m : Machine) : Machine :=
  m.offerTrace m.tracedDump

end Machine

namespace Execution

/-- How a stage of a run can follow on a machine that has made so many steps. -/
inductive Follows (stop : Nat) (m : Machine) (steps : Nat) : Execution → Prop
  /-- The program counter is outside the program before any step is made. -/
  | outside (outside : stop ≤ (m.register .pc).toNat) :
      Follows stop m steps (conclude m steps false)
  | failed (inside : (m.register .pc).toNat < stop) (step : m.step = (m', .error e)) :
      Follows stop m steps (.finished m' (.error e))
  | halted (inside : (m.register .pc).toNat < stop)
      (step : m.step = (m', .ok (.halt, successor))) :
      Follows stop m steps (conclude m'.dumped (steps + 1) true)
  | left (inside : (m.register .pc).toNat < stop)
      (step : m.step = (m', .ok (flow, successor)))
      (goes : flow ≠ .halt) (past : stop ≤ successor) :
      Follows stop m steps (conclude m'.dumped (steps + 1) false)
  | goesOn (inside : (m.register .pc).toNat < stop)
      (step : m.step = (m', .ok (flow, successor)))
      (goes : flow ≠ .halt) (within : successor < stop) :
      Follows stop m steps (.running m'.dumped (steps + 1))

theorem follows_next (stop : Nat) (m : Machine) (steps : Nat) :
    Follows stop m steps (next stop (.running m steps)) := by
  by_cases inside : (m.register .pc).toNat < stop
  · cases step : m.step with
    | mk m' outcome =>
      cases outcome with
      | error e => simpa only [next, inside, if_true, step] using Follows.failed inside step
      | ok pair =>
        obtain ⟨flow, successor⟩ := pair
        by_cases halts : flow = .halt
        · subst flow
          simpa only [next, inside, if_true, step, Machine.dumped] using Follows.halted inside step
        · by_cases past : stop ≤ successor
          · simpa only [next, inside, if_true, step, halts, if_false, past, Machine.dumped] using
              Follows.left inside step halts past
          · simpa only [next, inside, if_true, step, halts, if_false, past, Machine.dumped] using
              Follows.goesOn inside step halts (by omega)
  · simpa only [next, inside, if_false] using Follows.outside (by omega)

theorem Follows.next_eq {stop : Nat} {m : Machine} {steps : Nat} {e : Execution}
    (follows : Follows stop m steps e) : next stop (.running m steps) = e := by
  cases follows with
  | outside outside => simp only [next, Nat.not_lt.mpr outside, if_false]
  | failed inside step => simp only [next, inside, if_true, step]
  | halted inside step => simp only [next, inside, if_true, step, Machine.dumped]
  | left inside step goes past =>
    simp only [next, inside, if_true, step, goes, if_false, past, Machine.dumped]
  | goesOn inside step goes within =>
    simp only [next, inside, if_true, step, goes, if_false, Nat.not_le.mpr within, Machine.dumped]

@[simp] theorem after_finished (stop n : Nat) (m : Machine)
    (result : Except MachineError RunSummary) :
    after stop n (.finished m result) = .finished m result := by
  cases n <;> rfl

theorem after_running (stop n : Nat) (m : Machine) (steps : Nat) :
    after stop (n + 1) (.running m steps) = after stop n (next stop (.running m steps)) :=
  rfl

/-- What every stage leaves true holds at every stage. -/
theorem after_invariant {P : Execution → Prop} {stop : Nat}
    (preserves : ∀ m steps, P (.running m steps) → P (next stop (.running m steps)))
    (n : Nat) {e : Execution} (first : P e) : P (after stop n e) := by
  induction n generalizing e with
  | zero => exact first
  | succ n ih =>
    cases e with
    | running m steps => exact ih (preserves m steps first)
    | finished m result => exact first

end Execution

end AccumulatorMachine
