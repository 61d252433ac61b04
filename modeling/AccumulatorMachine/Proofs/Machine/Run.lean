import AccumulatorMachine.Proofs.Machine.DeviceCalls
import AccumulatorMachine.Proofs.Machine.Loading

/-! A run as a row of steps that succeed. Each stage at which it still goes on is as many
steps away from the loaded machine as it counts, and a run that fails is one failing step
further than such a stage. -/
namespace AccumulatorMachine

namespace Machine

/-- The machine that has a program at its first cells and is about to carry it out. -/
def loaded (p : Program) (m : Machine) : Machine :=
  (m.loadFrom 0 p).put .pc 0

theorem start_eq_running {m : Machine} {p : Program} (fits : p.cellCount ≤ m.width.modulus) :
    m.start p = .running (m.loaded p) 0 :=
  if_neg (Nat.not_lt.mpr fits)

theorem start_eq_refused {m : Machine} {p : Program} (large : m.width.modulus < p.cellCount) :
    m.start p = .finished m (.error (.programTooLarge p.length m.width.bits)) :=
  if_pos large

/-- Loading changes memory and the program counter. -/
theorem loaded_frame (m : Machine) (p : Program) :
    m.loaded p =
      { m with memory := (m.loadFrom 0 p).memory, registers := (m.loaded p).registers } := by
  rw [loaded, loadFrom_frame]
  rfl

theorem width_loaded (m : Machine) (p : Program) : (m.loaded p).width = m.width := by
  rw [loaded_frame]

/-- A number of steps that succeed, and the words that were put out to a device on the way.
After each step the state is offered to the trace. -/
inductive Advances (first : Machine) : Nat → List UInt64 → Machine → Prop
  | start : Advances first 0 [] first
  | step (earlier : Advances first k words m) (step : m.step = (m', .ok (flow, destination))) :
      Advances first (k + 1) (words ++ m.pendingWords) m'.dumped

/-- The words of earlier steps stay taken, and nothing else is taken. -/
theorem Advances.taken {first m : Machine} {k : Nat} {words : List UInt64}
    (run : first.Advances k words m) : m.taken = first.taken ++ words := by
  induction run with
  | start => rw [List.append_nil]
  | @step _ words m m' _ _ _ step ih =>
    have grown := taken_step_ok step
    rw [ih, List.append_assoc] at grown
    exact grown

end Machine

namespace Execution

theorem after_succ (stop n : Nat) (e : Execution) :
    after stop (n + 1) e = next stop (after stop n e) := by
  induction n generalizing e with
  | zero =>
    cases e with
    | running m steps => rfl
    | finished m result => rfl
  | succ n ih =>
    cases e with
    | running m steps => exact ih (next stop (.running m steps))
    | finished m result => simp only [after_finished, next]

theorem eq_finished_of_result? {e : Execution} {result : Except MachineError RunSummary}
    (known : e.result? = some result) : e = .finished e.machine result := by
  cases e with
  | running m steps => contradiction
  | finished m found =>
    cases known
    rfl

/-- A run that goes on after so many stages has made as many steps. -/
theorem advances_of_after {stop n : Nat} {first m : Machine} {steps : Nat}
    (goesOn : after stop n (.running first 0) = .running m steps) :
    steps = n ∧ ∃ words, first.Advances n words m := by
  induction n generalizing m steps with
  | zero =>
    cases goesOn
    exact ⟨rfl, [], .start⟩
  | succ n ih =>
    rw [after_succ] at goesOn
    cases stage : after stop n (.running first 0) with
    | finished m result =>
      rw [stage] at goesOn
      contradiction
    | running before k =>
      obtain ⟨rfl, words, run⟩ := ih stage
      rw [stage] at goesOn
      have follows := follows_next stop before k
      rw [goesOn] at follows
      cases follows with
      | goesOn inside step => exact ⟨rfl, _, .step run step⟩

/-- A run that has ended went on until the stage before its last. -/
theorem exists_last_stage {stop n : Nat} {first m : Machine}
    {result : Except MachineError RunSummary}
    (ended : after stop n (.running first 0) = .finished m result) :
    ∃ k before, after stop k (.running first 0) = .running before k ∧
      next stop (.running before k) = .finished m result := by
  induction n with
  | zero => contradiction
  | succ n ih =>
    rw [after_succ] at ended
    cases stage : after stop n (.running first 0) with
    | finished m' result' =>
      rw [stage] at ended
      apply ih
      rw [stage]
      exact ended
    | running before k =>
      obtain ⟨rfl, _⟩ := advances_of_after stage
      rw [stage] at ended
      exact ⟨k, before, stage, ended⟩

/-- A run fails one step after a stage at which it still went on. -/
theorem exists_step_of_after_error {stop n : Nat} {first m : Machine} {e : MachineError}
    (failed : after stop n (.running first 0) = .finished m (.error e)) :
    ∃ k before, after stop k (.running first 0) = .running before k ∧
      before.step = (m, .error e) := by
  obtain ⟨k, before, stage, last⟩ := exists_last_stage failed
  have follows := follows_next stop before k
  rw [last] at follows
  cases follows with
  | failed inside step => exact ⟨k, before, stage, step⟩

end Execution

/-- A run that has no result yet has made a step for each stage that it was followed through. -/
theorem Machine.execute_eq_running {m : Machine} {p : Program} {k : Nat}
    (unfinished : (m.execute k p).result? = none) :
    m.execute k p = .running (m.execute k p).machine k := by
  by_cases large : m.width.modulus < p.cellCount
  · rw [execute, start_eq_refused large, Execution.after_finished] at unfinished
    contradiction
  · have started := start_eq_running (Nat.not_lt.mp large)
    cases stage : m.execute k p with
    | finished m' result =>
      rw [stage] at unfinished
      contradiction
    | running before steps =>
      rw [execute, started] at stage
      obtain ⟨rfl, _⟩ := Execution.advances_of_after stage
      rfl

end AccumulatorMachine
