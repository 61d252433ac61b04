import AccumulatorMachine.Proofs.Machine.Failure
import AccumulatorMachine.Proofs.Machine.Lockstep
import AccumulatorMachine.Proofs.Machine.Stores

/-! A run does not depend on its trace. Whatever sink a machine has, and whatever the sink
refuses, the run is that of the same machine without a trace, stage by stage. -/
namespace AccumulatorMachine.Machine

/-- The same machines but for the trace of the second. -/
def SameButTrace (m m' : Machine) : Prop :=
  ∃ trace, m' = { m with trace }

theorem lockstep_sameButTrace : Lockstep SameButTrace where
  pc := by
    rintro m _ ⟨trace, rfl⟩
    rfl
  fetch? := by
    rintro m _ ⟨trace, rfl⟩ address
    rfl
  callsOf := by
    rintro m _ ⟨trace, rfl⟩ op
    cases op <;> rfl
  trace := by
    rintro m _ ⟨other, rfl⟩ trace trace'
    exact ⟨trace', rfl⟩
  record := by
    rintro m _ ⟨trace, rfl⟩ r
    exact ⟨trace, rfl⟩
  putPc := by
    rintro m _ ⟨trace, rfl⟩ value
    exact ⟨trace, rfl⟩
  perform := by
    rintro m _ ⟨trace, rfl⟩ op operand
    cases op with
    | input =>
      simp only [perform, readInput]
      split
      · exact ⟨⟨trace, rfl⟩, rfl⟩
      · split
        · exact ⟨⟨trace, rfl⟩, rfl⟩
        · exact ⟨⟨trace, rfl⟩, rfl⟩
    | output =>
      have word : ({ m with trace } : Machine).register .acc = m.register .acc := rfl
      simp only [perform, writeOutput, word]
      split
      · exact ⟨⟨trace, rfl⟩, rfl⟩
      · split
        · exact ⟨⟨trace, rfl⟩, rfl⟩
        · exact ⟨⟨trace, rfl⟩, rfl⟩
    | increment | decrement =>
      simp only [perform, bump]
      split
      · exact ⟨⟨trace, rfl⟩, rfl⟩
      · exact ⟨⟨trace, rfl⟩, rfl⟩
    | _ => exact ⟨⟨trace, rfl⟩, rfl⟩

/-- Loading a program does not look at the trace. -/
theorem loaded_with_trace (m : Machine) (p : Program) (trace : Option Trace) :
    ({ m with trace } : Machine).loaded p = { m.loaded p with trace } := by
  have memory : (({ m with trace } : Machine).loadFrom 0 p).memory = (m.loadFrom 0 p).memory := by
    rw [memory_loadFrom, memory_loadFrom]
  have loaded := loadFrom_frame m 0 p
  have traced := loadFrom_frame { m with trace } 0 p
  rw [memory] at traced
  rw [Machine.loaded, Machine.loaded, traced, loaded]
  rfl

theorem alike_start (m : Machine) (p : Program) (trace : Option Trace) :
    (m.start p).Alike SameButTrace (({ m with trace } : Machine).start p) := by
  by_cases large : m.width.modulus < p.cellCount
  · rw [start_eq_refused large, start_eq_refused (m := { m with trace }) large]
    exact .finished ⟨trace, rfl⟩ _
  · have fits := Nat.not_lt.mp large
    rw [start_eq_running fits, start_eq_running (m := { m with trace }) fits]
    exact .running ⟨trace, loaded_with_trace m p trace⟩ 0

/-- At every stage, and so also where a run fails, the traced machine has the result, the
registers, memory, flags, devices and journal of the one without a trace. Its devices got the
calls of the run without a trace, in the same order and with the same answers, and no others. -/
theorem execute_traced (m : Machine) (p : Program) (trace : Option Trace) (limit : Nat) :
    let plain : Machine := { m with trace := none }
    let traced : Machine := { m with trace }
    (traced.execute limit p).result? = (plain.execute limit p).result? ∧
      (plain.execute limit p).machine.SameState (traced.execute limit p).machine ∧
      (traced.execute limit p).machine.input = (plain.execute limit p).machine.input ∧
      (traced.execute limit p).machine.output = (plain.execute limit p).machine.output ∧
      (traced.execute limit p).machine.journal = (plain.execute limit p).machine.journal ∧
      traced.runCalls limit p = plain.runCalls limit p ∧
      traced.Receives (plain.runCalls limit p) (traced.execute limit p).machine := by
  intro plain traced
  have start : (plain.start p).Alike SameButTrace (traced.start p) := alike_start plain p trace
  have alike := lockstep_sameButTrace.after start p.cellCount limit
  have calls : traced.runCalls limit p = plain.runCalls limit p :=
    lockstep_sameButTrace.calls start p.cellCount limit
  have receives := receives_execute limit traced p
  rw [calls] at receives
  obtain ⟨other, same⟩ := alike.machine
  have final : (traced.execute limit p).machine =
      { (plain.execute limit p).machine with trace := other } := same
  rw [final] at receives ⊢
  exact ⟨alike.result?, ⟨fun _ => rfl, rfl, rfl⟩, rfl, rfl, rfl, calls, receives⟩

end AccumulatorMachine.Machine
