import AccumulatorMachine.Proofs.Machine.CallHistory
import AccumulatorMachine.Proofs.Machine.Fetches

/-! Where a run uses its devices. A device changes at the instructions that call it and nowhere
else, whether they succeed or not, so that the call with a number finds the device as the calls
before it have left it. -/
namespace AccumulatorMachine

namespace Machine

/-- The operation of the instruction at the program counter, if there is one. -/
def fetched? (m : Machine) : Option Opcode :=
  (m.fetch? (m.register .pc)).bind fun (cell, _) => decode? cell

variable {m : Machine} {op : Opcode}

theorem fetched?_eq_some_iff :
    m.fetched? = some op ↔
      ∃ cell operand, m.fetch? (m.register .pc) = some (cell, operand) ∧
        decode? cell = some op := by
  simp only [fetched?, Option.bind_eq_some_iff, Prod.exists]

theorem pendingCalls_eq (m : Machine) : m.pendingCalls = (m.fetched?.map m.callsOf).getD [] := by
  rw [pendingCalls, fetched?]
  cases m.fetch? (m.register .pc) with
  | none => rfl
  | some pair => rfl

/-- A part of a machine that an operation changes, and nothing else does but replacing it. -/
structure ChangedAt (op : Opcode) (part : Machine → α) (change : α → Machine → α) : Prop where
  step : ∀ m, part m.step.1 = if m.fetched? = some op then change (part m) m else part m
  around : ∀ m trace journal, part { m with trace, journal } = part m

theorem changedAt_input : ChangedAt .input input fun d _ => d.map InputDevice.read where
  step m := by
    have received := m.receives_step.input
    rw [received, pendingCalls_eq]
    cases attached : m.input with
    | none => simp
    | some d =>
      cases m.fetched? with
      | none => rfl
      | some op =>
        cases op with
        | input =>
          simp only [Option.map_some, Option.getD_some, callsOf, attached]
          rfl
        | output =>
          simp only [Option.map_some, Option.getD_some, callsOf]
          cases m.output <;> rfl
        | _ => rfl
  around _ _ _ := rfl

theorem changedAt_output :
    ChangedAt .output output fun o m => o.map fun d => d.write (m.register .acc) where
  step m := by
    have received := m.receives_step.output
    rw [received, pendingCalls_eq]
    cases attached : m.output with
    | none => simp
    | some d =>
      cases m.fetched? with
      | none => rfl
      | some op =>
        cases op with
        | output =>
          simp only [Option.map_some, Option.getD_some, callsOf, attached]
          rfl
        | input =>
          simp only [Option.map_some, Option.getD_some, callsOf]
          cases m.input <;> rfl
        | _ => rfl
  around _ _ _ := rfl

end Machine

namespace Execution

open Machine

/-- The machines of further stages that fetch an instruction of an operation. -/
def fetchesOf (op : Opcode) (stop n : Nat) (e : Execution) : List Machine :=
  (e.fetches stop n).filter fun m => m.fetched? = some op

variable {α : Type} {op : Opcode} {part : Machine → α} {change : α → Machine → α}

theorem fetchesOf_running (op : Opcode) (stop n : Nat) (m : Machine) (steps : Nat) :
    fetchesOf op stop (n + 1) (.running m steps) =
      (if (m.register .pc).toNat < stop ∧ m.fetched? = some op then [m] else []) ++
        fetchesOf op stop n (next stop (.running m steps)) := by
  rw [fetchesOf, fetches, List.filter_append, ← fetchesOf]
  by_cases inside : (m.register .pc).toNat < stop
  · by_cases fetched : m.fetched? = some op
    · simp [inside, fetched]
    · simp [inside, fetched]
  · simp [inside]

theorem part_next (changed : ChangedAt op part change) (stop : Nat) (m : Machine) (steps : Nat) :
    part (next stop (.running m steps)).machine =
      if (m.register .pc).toNat < stop ∧ m.fetched? = some op then change (part m) m
      else part m := by
  have stepped := changed.step m
  have follows := follows_next stop m steps
  generalize next stop (.running m steps) = e at follows ⊢
  cases follows with
  | outside outside =>
    rw [if_neg (by omega)]
    exact changed.around m m.trace _
  | failed inside step =>
    rw [step] at stepped
    simp only [inside, true_and]
    exact stepped
  | @halted m' _ inside step | @left m' _ _ inside step | @goesOn m' _ _ inside step =>
    rw [step] at stepped
    simp only [inside, true_and]
    rw [← stepped]
    exact changed.around m' m'.dumped.trace _

/-- After a run such a part is what the instructions of the operation have made of it. -/
theorem part_after (changed : ChangedAt op part change) (stop n : Nat) (e : Execution) :
    part (after stop n e).machine = (e.fetchesOf op stop n).foldl change (part e.machine) := by
  induction n generalizing e with
  | zero => rfl
  | succ n ih =>
    cases e with
    | finished m result => rfl
    | running m steps =>
      rw [after_running, ih, part_next changed, fetchesOf_running, List.foldl_append]
      split
      · rfl
      · rfl

/-- Each instruction of the operation finds what those before it have made of the part. -/
theorem part_of_fetched (changed : ChangedAt op part change) {stop n i : Nat} {e : Execution}
    {before : Machine} (fetched : (e.fetchesOf op stop n)[i]? = some before) :
    part before = ((e.fetchesOf op stop n).take i).foldl change (part e.machine) := by
  induction n generalizing e i with
  | zero => cases fetched
  | succ n ih =>
    cases e with
    | finished m result => cases fetched
    | running m steps =>
      -- Further fetches start from the part as this stage has left it, changed or not.
      have after := part_next changed stop m steps
      rw [fetchesOf_running] at fetched ⊢
      by_cases now : (m.register .pc).toNat < stop ∧ m.fetched? = some op
      · rw [if_pos now] at fetched after ⊢
        cases i with
        | zero =>
          cases fetched
          rfl
        | succ i =>
          have later := ih fetched
          rw [after] at later
          exact later
      · rw [if_neg now] at fetched after ⊢
        have later := ih fetched
        rw [after] at later
        exact later

end Execution

namespace Machine

/-- The machines that fetch an instruction of an operation in a run that is followed through at
most so many stages. -/
def fetchesOf (op : Opcode) (limit : Nat) (m : Machine) (p : Program) : List Machine :=
  (m.start p).fetchesOf op p.cellCount limit

variable {m before : Machine} {p : Program} {op : Opcode} {limit i : Nat}

theorem fetched?_of_mem_fetchesOf (member : before ∈ m.fetchesOf op limit p) :
    before.fetched? = some op := by
  rw [fetchesOf, Execution.fetchesOf, List.mem_filter, decide_eq_true_eq] at member
  exact member.2

theorem mem_fetches_of_mem_fetchesOf (member : before ∈ m.fetchesOf op limit p) :
    before ∈ m.fetches limit p :=
  (List.mem_filter.mp member).1

theorem input_start (m : Machine) (p : Program) : (m.start p).machine.input = m.input := by
  rw [(m.receives_start p).input]
  exact Option.map_id'

theorem output_start (m : Machine) (p : Program) : (m.start p).machine.output = m.output := by
  rw [(m.receives_start p).output]
  exact Option.map_id'

theorem foldl_read (d : InputDevice) (calls : List Machine) :
    calls.foldl (fun (d : Option InputDevice) _ => d.map InputDevice.read) (some d) =
      some { d with reads := d.reads + calls.length } := by
  induction calls generalizing d with
  | nil => rfl
  | cons before rest ih =>
    rw [List.foldl_cons, Option.map_some, ih, List.length_cons, InputDevice.read, Nat.add_assoc,
      Nat.add_comm 1]

theorem foldl_write (o : OutputDevice) (calls : List Machine) :
    calls.foldl (fun (o : Option OutputDevice) m => o.map fun d => d.write (m.register .acc))
        (some o) =
      some { o with calls := o.calls ++ (calls.map fun m => m.register .acc).toArray } := by
  induction calls generalizing o with
  | nil => simp
  | cons before rest ih =>
    rw [List.foldl_cons, Option.map_some, ih, OutputDevice.write]
    simp

variable {d : InputDevice} {o : OutputDevice}

/-- Each input instruction of a run makes the next call to the input device. -/
theorem input_of_fetched (attached : m.input = some d)
    (fetched : (m.fetchesOf .input limit p)[i]? = some before) :
    before.input = some { d with reads := d.reads + i } := by
  have found := Execution.part_of_fetched changedAt_input fetched
  have length := (List.getElem?_eq_some_iff.mp fetched).1
  rw [fetchesOf] at length
  rw [found, input_start, attached, foldl_read, List.length_take,
    Nat.min_eq_left (Nat.le_of_lt length)]

/-- Each output instruction calls the output device with its accumulator, after the others. -/
theorem output_of_fetched (attached : m.output = some o)
    (fetched : (m.fetchesOf .output limit p)[i]? = some before) :
    before.output = some { o with
      calls := o.calls ++
        (((m.fetchesOf .output limit p).take i).map fun m => m.register .acc).toArray } := by
  rw [Execution.part_of_fetched changedAt_output fetched, output_start, attached, foldl_write,
    fetchesOf]

theorem input_execute (attached : m.input = some d) :
    (m.execute limit p).machine.input =
      some { d with reads := d.reads + (m.fetchesOf .input limit p).length } := by
  rw [execute, Execution.part_after changedAt_input, input_start, attached, foldl_read, fetchesOf]

/-- The output device has been called with the accumulator of each output instruction. -/
theorem output_execute (attached : m.output = some o) :
    (m.execute limit p).machine.output = some { o with
      calls := o.calls ++
        ((m.fetchesOf .output limit p).map fun m => m.register .acc).toArray } := by
  rw [execute, Execution.part_after changedAt_output, output_start, attached, foldl_write,
    fetchesOf]

/-- An input instruction puts the word that the device answers in the accumulator, narrowed. -/
theorem step_of_input {word : UInt64} (fetched : m.fetched? = some .input)
    (attached : m.input = some d) (answer : d.next = .ok word) :
    ∃ after outcome, m.step = (after, .ok outcome) ∧
      after.register .acc = m.width.truncate word.toNat := by
  obtain ⟨cell, operand, found, known⟩ := fetched?_eq_some_iff.mp fetched
  have done := perform_input (m := m.announced cell operand .input) attached answer operand
  refine ⟨_, _, (Steps.done found known done).step_eq, ?_⟩
  rw [register_put, if_neg (by decide), register_put, if_pos rfl]
  rfl

/-- An output instruction succeeds if the device takes the word. -/
theorem step_of_output (fetched : m.fetched? = some .output) (attached : m.output = some o)
    (reply : o.next (m.register .acc) = .ok ()) :
    ∃ after outcome, m.step = (after, .ok outcome) := by
  obtain ⟨cell, operand, found, known⟩ := fetched?_eq_some_iff.mp fetched
  have done := perform_output (m := m.announced cell operand .output) attached reply operand
  exact ⟨_, _, (Steps.done found known done).step_eq⟩

/-- A fault of the device is the fault of the step. -/
theorem step_of_input_fault {fault : DeviceFault} (fetched : m.fetched? = some .input)
    (attached : m.input = some d) (answer : d.next = .error fault) :
    ∃ after, m.step = (after, .error (.device fault)) := by
  obtain ⟨cell, operand, found, known⟩ := fetched?_eq_some_iff.mp fetched
  have failed :=
    perform_input_fault (m := m.announced cell operand .input) attached answer operand
  exact ⟨_, (Steps.failed found known failed).step_eq⟩

end Machine

end AccumulatorMachine
