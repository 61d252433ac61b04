import AccumulatorMachine.Proofs.Machine.Transition

/-! The calls that instructions make to the attached devices. No instruction makes more than
one, and the words that an output device has taken are those it accepted, also when a later
call fails. -/
namespace AccumulatorMachine

namespace OutputDevice

theorem takenAfter_congr {d d' : OutputDevice} (same : d'.reply = d.reply)
    (earlier : Array UInt64) (words : List UInt64) :
    d'.takenAfter earlier words = d.takenAfter earlier words := by
  induction words generalizing earlier with
  | nil => rfl
  | cons word rest ih => rw [takenAfter, takenAfter, ih, same]

theorem takenAfter_append_singleton (d : OutputDevice) (earlier : Array UInt64)
    (words : List UInt64) (word : UInt64) :
    d.takenAfter earlier (words ++ [word]) =
      d.takenAfter earlier words ++
        if (d.reply (earlier ++ words.toArray) word).isOk then [word] else [] := by
  induction words generalizing earlier with
  | nil => simp [takenAfter]
  | cons first rest ih =>
    have onwards : earlier.push first ++ rest.toArray = earlier ++ (first :: rest).toArray := by
      simp
    rw [List.cons_append, takenAfter, takenAfter, ih, onwards]
    split
    · rw [List.cons_append]
    · rfl

/-- A call adds its word to those that the device has taken, if it succeeds. -/
theorem taken_write (d : OutputDevice) (word : UInt64) :
    (d.write word).taken = d.taken ++ if (d.next word).isOk then [word] else [] := by
  have calls : (d.write word).calls.toList = d.calls.toList ++ [word] := by simp [write]
  have same : (d.write word).reply = d.reply := rfl
  rw [taken, calls, takenAfter_congr same, takenAfter_append_singleton, next, taken]
  simp

end OutputDevice

namespace Machine

/-- The words that the output device has taken, if there is one. -/
def taken (m : Machine) : List UInt64 :=
  (m.output.map OutputDevice.taken).getD []

/-- At most one device is called between two machines, and that one once. -/
inductive Calls (m m' : Machine) : Prop
  | none (input : m'.input = m.input) (output : m'.output = m.output) : Calls m m'
  | read (device : m.input = some d) (input : m'.input = some d.read)
      (output : m'.output = m.output) : Calls m m'
  | write (device : m.output = some d) (input : m'.input = m.input)
      (output : m'.output = some (d.write (m.register .acc))) : Calls m m'

theorem calls_perform (m : Machine) (op : Opcode) (operand : UInt64) :
    m.Calls (m.perform op operand).1 := by
  cases op with
  | input =>
    simp only [perform, readInput]
    split
    · exact .none rfl rfl
    · next d attached =>
      split
      · exact .read attached rfl rfl
      · exact .read attached rfl rfl
  | output =>
    simp only [perform, writeOutput]
    split
    · exact .none rfl rfl
    · next d attached =>
      split
      · exact .write attached rfl rfl
      · exact .write attached rfl rfl
  | increment | decrement =>
    simp only [perform, bump]
    split
    · exact .none rfl rfl
    · exact .none rfl rfl
  | _ => exact .none rfl rfl

/-- Tracing and recording an instruction calls no device, and neither does what leaves the
devices as they are after it is carried out. -/
theorem Calls.of_announced {m m' m'' : Machine} {cell operand : UInt64} {op : Opcode}
    (calls : (m.announced cell operand op).Calls m') (input : m''.input = m'.input)
    (output : m''.output = m'.output) : m.Calls m'' := by
  cases calls with
  | none input' output' => exact .none (input.trans input') (output.trans output')
  | read device input' output' => exact .read device (input.trans input') (output.trans output')
  | write device input' output' => exact .write device (input.trans input') (output.trans output')

/-- The instruction at the program counter calls no device more than once, whether it succeeds
or not. -/
theorem calls_step (m : Machine) : m.Calls m.step.1 := by
  have steps := m.steps_step
  generalize m.step = outcome at steps ⊢
  cases steps with
  | outOfStorage none => exact .none rfl rfl
  | unknown fetched unknown => exact .none rfl rfl
  | @failed cell operand op m' e fetched known failed =>
    have carried := (m.announced cell operand op).calls_perform op operand
    rw [failed] at carried
    exact carried.of_announced rfl rfl
  | @done cell operand op m' flow fetched known done =>
    have carried := (m.announced cell operand op).calls_perform op operand
    rw [done] at carried
    exact carried.of_announced rfl rfl

/-- The word that an operation puts out to a device. -/
def wordsOut (m : Machine) (op : Opcode) : List UInt64 :=
  if op = .output ∧ m.output.isSome then [m.register .acc] else []

section Answers

variable {m : Machine} {d : InputDevice} {o : OutputDevice} {word : UInt64} {fault : DeviceFault}

theorem perform_input (attached : m.input = some d) (answer : d.next = .ok word)
    (operand : UInt64) : m.perform .input operand =
      (({ m with input := some d.read } : Machine).put .acc word.toNat, .ok .next) := by
  simp only [perform, readInput, attached, answer]

theorem perform_input_fault (attached : m.input = some d) (answer : d.next = .error fault)
    (operand : UInt64) : m.perform .input operand =
      ({ m with input := some d.read }, .error (.device fault)) := by
  simp only [perform, readInput, attached, answer]

theorem perform_output (attached : m.output = some o) (reply : o.next (m.register .acc) = .ok ())
    (operand : UInt64) : m.perform .output operand =
      ({ m with output := some (o.write (m.register .acc)) }, .ok .next) := by
  simp only [perform, writeOutput, attached, reply]

theorem perform_output_fault (attached : m.output = some o)
    (reply : o.next (m.register .acc) = .error fault) (operand : UInt64) :
    m.perform .output operand =
      ({ m with output := some (o.write (m.register .acc)) }, .error (.device fault)) := by
  simp only [perform, writeOutput, attached, reply]

end Answers

/-- An operation that succeeds has its word taken; one that fails has none taken. -/
theorem taken_perform (m : Machine) (op : Opcode) (operand : UInt64) :
    (m.perform op operand).1.taken =
      m.taken ++ if (m.perform op operand).2.isOk then m.wordsOut op else [] := by
  have silent : op ≠ .output → m.wordsOut op = [] := by
    intro other
    rw [wordsOut, if_neg (fun both => other both.1)]
  cases op with
  | output =>
    simp only [perform, writeOutput, wordsOut, taken]
    cases attached : m.output with
    | none => simp [record, attached, Except.isOk, Except.toBool]
    | some d =>
      have grown := d.taken_write (m.register .acc)
      cases answer : d.next (m.register .acc) with
      | ok =>
        rw [answer] at grown
        simpa [answer, Except.isOk, Except.toBool] using grown
      | error fault =>
        rw [answer] at grown
        simpa [answer, Except.isOk, Except.toBool] using grown
  | input =>
    rw [silent (by decide), ite_self, List.append_nil]
    simp only [perform, readInput]
    split
    · rfl
    · split
      · rfl
      · rfl
  | increment | decrement =>
    rw [silent (by decide), ite_self, List.append_nil]
    simp only [perform, bump]
    split
    · rfl
    · rfl
  | _ =>
    rw [silent (by decide), ite_self, List.append_nil]
    rfl

/-- The words that the instruction at the program counter puts out to a device. -/
def pendingWords (m : Machine) : List UInt64 :=
  match m.fetch? (m.register .pc) with
  | none => []
  | some (cell, _) => ((decode? cell).map m.wordsOut).getD []

theorem taken_step_ok {m m' : Machine} {outcome : Flow × Nat}
    (step : m.step = (m', .ok outcome)) : m'.taken = m.taken ++ m.pendingWords := by
  have steps := m.steps_step
  rw [step] at steps
  cases steps with
  | @done cell operand op m' flow fetched known done =>
    have carried := (m.announced cell operand op).taken_perform op operand
    rw [done] at carried
    rw [pendingWords, fetched]
    simp only [known, Option.map_some, Option.getD_some]
    exact carried

end Machine

end AccumulatorMachine
