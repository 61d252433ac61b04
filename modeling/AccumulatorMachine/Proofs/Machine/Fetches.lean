import AccumulatorMachine.Proofs.Machine.Run
import AccumulatorMachine.Proofs.Machine.Stable

/-! The machines of a run at which an instruction is fetched. There is one for each step that
succeeds, and one more if the run fails. -/
namespace AccumulatorMachine

namespace Execution

/-- The machines of further stages that fetch an instruction, the first of them first. -/
def fetches (stop : Nat) : Nat → Execution → List Machine
  | 0, _ => []
  | _ + 1, .finished .. => []
  | n + 1, .running m steps =>
    (if (m.register .pc).toNat < stop then [m] else []) ++
      fetches stop n (next stop (.running m steps))

@[simp] theorem fetches_finished (stop n : Nat) (m : Machine)
    (result : Except MachineError RunSummary) : fetches stop n (.finished m result) = [] := by
  cases n <;> rfl

/-- The steps that a run has made, unless it failed. -/
def steps? : Execution → Option Nat
  | running _ steps => some steps
  | finished _ result => result.toOption.map RunSummary.steps

theorem steps?_after {stop n steps made : Nat} {m : Machine}
    (counted : (after stop n (.running m steps)).steps? = some made) :
    made = steps + (fetches stop n (.running m steps)).length := by
  induction n generalizing m steps with
  | zero =>
    cases counted
    rfl
  | succ n ih =>
    rw [after_running] at counted
    rw [fetches, List.length_append]
    have follows := follows_next stop m steps
    generalize next stop (.running m steps) = e at follows counted ⊢
    cases follows with
    | outside outside =>
      rw [conclude, after_finished] at counted
      cases counted
      rw [if_neg (by omega), conclude, fetches_finished]
      rfl
    | failed inside step =>
      rw [after_finished] at counted
      contradiction
    | halted inside step | left inside step =>
      rw [conclude, after_finished] at counted
      cases counted
      rw [if_pos inside, conclude, fetches_finished]
      rfl
    | goesOn inside step =>
      rw [if_pos inside, List.length_singleton, ih counted]
      omega

/-- What holds at a stage and survives every step holds wherever the run fetches. -/
theorem mem_fetches_of_stable {P : Machine → Prop} (stable : Machine.Stable P) {stop n : Nat}
    {e : Execution} (holds : P e.machine) {before : Machine} (fetched : before ∈ e.fetches stop n) :
    P before := by
  induction n generalizing e with
  | zero => cases fetched
  | succ n ih =>
    cases e with
    | finished m result => cases fetched
    | running m steps =>
      obtain now | later := List.mem_append.mp fetched
      · split at now
        · obtain rfl := List.mem_singleton.mp now
          exact holds
        · cases now
      · exact ih (stable.next stop steps holds) later

end Execution

namespace Machine

/-- The machines that fetch an instruction in a run that is followed through at most so many
stages. -/
def fetches (limit : Nat) (m : Machine) (p : Program) : List Machine :=
  (m.start p).fetches p.cellCount limit

theorem width_of_mem_fetches {limit : Nat} {m before : Machine} {p : Program}
    (fetched : before ∈ m.fetches limit p) : before.width = m.width :=
  Execution.mem_fetches_of_stable (stable_width m.width)
    ((stable_width m.width).start p rfl) fetched

end Machine

end AccumulatorMachine
