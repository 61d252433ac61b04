import AccumulatorMachine.Proofs.Machine.CallHistory

/-! Two runs of one program side by side. A relation between machines that fetches the same, and
that no operation tells apart or leads out of, relates the two runs at every stage: they make
the same steps and the same calls, and end alike. -/
namespace AccumulatorMachine

namespace Machine

/-- A relation that operations keep, with one outcome for both machines. The traces have no
part in it. -/
structure Lockstep (R : Machine → Machine → Prop) : Prop where
  pc : ∀ {m m'}, R m m' → m'.register .pc = m.register .pc
  fetch? : ∀ {m m'}, R m m' → ∀ address, m'.fetch? address = m.fetch? address
  callsOf : ∀ {m m'}, R m m' → ∀ op, m'.callsOf op = m.callsOf op
  trace : ∀ {m m'}, R m m' → ∀ trace trace',
    R { m with trace } { m' with trace := trace' }
  record : ∀ {m m'}, R m m' → ∀ r, R (m.record r) (m'.record r)
  putPc : ∀ {m m'}, R m m' → ∀ value, R (m.put .pc value) (m'.put .pc value)
  perform : ∀ {m m'}, R m m' → ∀ op operand,
    R (m.perform op operand).1 (m'.perform op operand).1 ∧
      (m'.perform op operand).2 = (m.perform op operand).2

end Machine

/-- Two stages at which as many steps are made, or the same result is reached, by machines in
a relation. -/
inductive Execution.Alike (R : Machine → Machine → Prop) : Execution → Execution → Prop
  | running (related : R m m') (steps : Nat) : Alike R (.running m steps) (.running m' steps)
  | finished (related : R m m') (result : Except MachineError RunSummary) :
      Alike R (.finished m result) (.finished m' result)

variable {R : Machine → Machine → Prop} {m m' : Machine} {e e' : Execution}

namespace Execution.Alike

theorem machine (alike : Alike R e e') : R e.machine e'.machine := by
  cases alike with
  | running related | finished related => exact related

theorem result? (alike : Alike R e e') : e'.result? = e.result? := by
  cases alike with
  | running | finished => rfl

end Execution.Alike

namespace Machine.Lockstep

theorem announced (lockstep : Lockstep R) (related : R m m') (cell operand : UInt64)
    (op : Opcode) : R (m.announced cell operand op) (m'.announced cell operand op) := by
  have traced := lockstep.trace related
    (m.offerTrace (fetchText m.width (m.register .pc) cell operand)).trace
    (m'.offerTrace (fetchText m'.width (m'.register .pc) cell operand)).trace
  have recorded := lockstep.record traced (.decoded (m.register .pc) op operand)
  rw [Machine.announced, Machine.announced]
  rw [lockstep.pc related] at recorded ⊢
  exact recorded

theorem successor (lockstep : Lockstep R) (related : R m m') (flow : Flow) :
    m'.successor flow = m.successor flow := by
  cases flow with
  | jump target => rfl
  | next | halt => rw [Machine.successor, Machine.successor, lockstep.pc related]

theorem pendingCalls (lockstep : Lockstep R) (related : R m m') :
    m'.pendingCalls = m.pendingCalls := by
  have same : m'.callsOf = m.callsOf := funext (lockstep.callsOf related)
  rw [Machine.pendingCalls, Machine.pendingCalls, lockstep.pc related, lockstep.fetch? related,
    same]

theorem step (lockstep : Lockstep R) (related : R m m') :
    R m.step.1 m'.step.1 ∧ m'.step.2 = m.step.2 := by
  have fetches : m'.fetch? (m'.register .pc) = m.fetch? (m.register .pc) := by
    rw [lockstep.pc related, lockstep.fetch? related]
  have steps := m.steps_step
  generalize m.step = outcome at steps ⊢
  cases steps with
  | outOfStorage none =>
    rw [(Steps.outOfStorage (fetches.trans none)).step_eq]
    exact ⟨related, rfl⟩
  | unknown fetched unknown =>
    rw [(Steps.unknown (fetches.trans fetched) unknown).step_eq]
    exact ⟨lockstep.trace related _ _, rfl⟩
  | @failed cell operand op _ _ fetched known failed =>
    have announced := lockstep.announced related cell operand op
    obtain ⟨kept, same⟩ := lockstep.perform announced op operand
    rw [failed] at kept same
    rw [(Steps.failed (fetches.trans fetched) known (Prod.ext rfl same)).step_eq]
    exact ⟨kept, rfl⟩
  | @done cell operand op _ flow fetched known done =>
    have announced := lockstep.announced related cell operand op
    obtain ⟨kept, same⟩ := lockstep.perform announced op operand
    rw [done] at kept same
    rw [(Steps.done (fetches.trans fetched) known (Prod.ext rfl same)).step_eq]
    rw [lockstep.successor kept]
    exact ⟨lockstep.putPc kept _, rfl⟩

/-- The steps of related machines, as far as a run makes use of them. -/
theorem exists_step (lockstep : Lockstep R) (related : R m m') {after : Machine}
    {outcome : Except MachineError (Flow × Nat)} (step : m.step = (after, outcome)) :
    ∃ after', m'.step = (after', outcome) ∧ R after after' := by
  obtain ⟨kept, same⟩ := lockstep.step related
  rw [step] at kept same
  exact ⟨_, Prod.ext rfl same, kept⟩

theorem dumped (lockstep : Lockstep R) (related : R m m') : R m.dumped m'.dumped :=
  lockstep.trace related _ _

theorem next (lockstep : Lockstep R) (related : R m m') (stop steps : Nat) :
    (Execution.next stop (.running m steps)).Alike R (Execution.next stop (.running m' steps)) := by
  have pc := lockstep.pc related
  have follows := Execution.follows_next stop m steps
  generalize Execution.next stop (.running m steps) = e at follows ⊢
  cases follows with
  | outside outside =>
    rw [← pc] at outside
    rw [(Execution.Follows.outside outside).next_eq]
    exact .finished (lockstep.record related _) _
  | failed inside step =>
    obtain ⟨after, step', kept⟩ := lockstep.exists_step related step
    rw [← pc] at inside
    rw [(Execution.Follows.failed inside step').next_eq]
    exact .finished kept _
  | halted inside step =>
    obtain ⟨after, step', kept⟩ := lockstep.exists_step related step
    rw [← pc] at inside
    rw [(Execution.Follows.halted inside step').next_eq]
    exact .finished (lockstep.record (lockstep.dumped kept) _) _
  | left inside step goes past =>
    obtain ⟨after, step', kept⟩ := lockstep.exists_step related step
    rw [← pc] at inside
    rw [(Execution.Follows.left inside step' goes past).next_eq]
    exact .finished (lockstep.record (lockstep.dumped kept) _) _
  | goesOn inside step goes within =>
    obtain ⟨after, step', kept⟩ := lockstep.exists_step related step
    rw [← pc] at inside
    rw [(Execution.Follows.goesOn inside step' goes within).next_eq]
    exact .running (lockstep.dumped kept) _

/-- However far the two runs are followed, they stay alike. -/
theorem after (lockstep : Lockstep R) (alike : e.Alike R e') (stop n : Nat) :
    (e.after stop n).Alike R (e'.after stop n) := by
  induction n generalizing e e' with
  | zero => exact alike
  | succ n ih =>
    cases alike with
    | running related steps => exact ih (lockstep.next related stop steps)
    | finished related result => exact .finished related result

theorem calls (lockstep : Lockstep R) (alike : e.Alike R e') (stop n : Nat) :
    e'.calls stop n = e.calls stop n := by
  induction n generalizing e e' with
  | zero => rfl
  | succ n ih =>
    cases alike with
    | running related steps =>
      rw [Execution.calls, Execution.calls, lockstep.pc related, lockstep.pendingCalls related,
        ih (lockstep.next related stop steps)]
    | finished => rfl

end Machine.Lockstep

end AccumulatorMachine
