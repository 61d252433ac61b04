import AccumulatorMachine.Proofs.Machine.Run

/-! The calls that a run makes to its devices, in their order and with the answers that they
get. They are told apart from the devices: a device at some stage of a run is the device at its
start after these calls, and no others. -/
namespace AccumulatorMachine

/-- A call to an attached device, with its answer. -/
inductive DeviceCall
  | read (answer : Except DeviceFault UInt64)
  | write (word : UInt64) (answer : Except DeviceFault Unit)

namespace InputDevice

def receive (d : InputDevice) : DeviceCall → InputDevice
  | .read _ => d.read
  | .write .. => d

def receiveAll (d : InputDevice) (calls : List DeviceCall) : InputDevice :=
  calls.foldl receive d

end InputDevice

namespace OutputDevice

def receive (d : OutputDevice) : DeviceCall → OutputDevice
  | .read _ => d
  | .write word _ => d.write word

def receiveAll (d : OutputDevice) (calls : List DeviceCall) : OutputDevice :=
  calls.foldl receive d

end OutputDevice

namespace Machine

/-- The call that an operation makes: none where no device is attached. -/
def callsOf (m : Machine) : Opcode → List DeviceCall
  | .input => m.input.toList.map fun d => .read d.next
  | .output => m.output.toList.map fun d => .write (m.register .acc) (d.next (m.register .acc))
  | _ => []

/-- The call that the instruction at the program counter makes, if it makes one. -/
def pendingCalls (m : Machine) : List DeviceCall :=
  match m.fetch? (m.register .pc) with
  | none => []
  | some (cell, _) => ((decode? cell).map m.callsOf).getD []

/-- Between two machines the devices got some calls, and nothing else happened to them. -/
structure Receives (m : Machine) (calls : List DeviceCall) (m' : Machine) : Prop where
  input : m'.input = m.input.map (·.receiveAll calls)
  output : m'.output = m.output.map (·.receiveAll calls)

namespace Receives

variable {m m' m'' : Machine} {calls further : List DeviceCall}

theorem none (input : m'.input = m.input) (output : m'.output = m.output) : m.Receives [] m' where
  input := by rw [input]; exact Option.map_id'.symm
  output := by rw [output]; exact Option.map_id'.symm

theorem trans (first : m.Receives calls m') (second : m'.Receives further m'') :
    m.Receives (calls ++ further) m'' where
  input := by
    rw [second.input, first.input, Option.map_map]
    congr 1
    funext d
    exact List.foldl_append.symm
  output := by
    rw [second.output, first.output, Option.map_map]
    congr 1
    funext d
    exact List.foldl_append.symm

end Receives

theorem receives_perform (m : Machine) (op : Opcode) (operand : UInt64) :
    m.Receives (m.callsOf op) (m.perform op operand).1 := by
  cases op with
  | input =>
    cases attached : m.input with
    | none =>
      simp only [perform, readInput, callsOf, attached]
      exact .none rfl rfl
    | some d =>
      have called : m.Receives [.read d.next] { m with input := some d.read } := by
        constructor
        · rw [attached]; rfl
        · cases m.output <;> rfl
      simp only [perform, readInput, callsOf, attached]
      split
      · exact ⟨called.input, called.output⟩
      · exact called
  | output =>
    cases attached : m.output with
    | none =>
      simp only [perform, writeOutput, callsOf, attached]
      exact .none rfl rfl
    | some d =>
      have called : m.Receives [.write (m.register .acc) (d.next (m.register .acc))]
          { m with output := some (d.write (m.register .acc)) } := by
        constructor
        · cases m.input <;> rfl
        · rw [attached]; rfl
      simp only [perform, writeOutput, callsOf, attached]
      split
      · exact called
      · exact called
  | increment | decrement =>
    simp only [perform, bump]
    split
    · exact .none rfl rfl
    · exact .none rfl rfl
  | _ => exact .none rfl rfl

/-- Tracing and recording call no device. -/
theorem Receives.of_announced {m m' m'' : Machine} {cell operand : UInt64} {op : Opcode}
    {calls : List DeviceCall} (receives : (m.announced cell operand op).Receives calls m')
    (input : m''.input = m'.input) (output : m''.output = m'.output) : m.Receives calls m'' where
  input := input.trans receives.input
  output := output.trans receives.output

theorem receives_step (m : Machine) : m.Receives m.pendingCalls m.step.1 := by
  have steps := m.steps_step
  generalize m.step = outcome at steps ⊢
  cases steps with
  | outOfStorage none =>
    rw [pendingCalls, none]
    exact .none rfl rfl
  | unknown fetched unknown =>
    simp only [pendingCalls, fetched, unknown, Option.map_none, Option.getD_none]
    exact .none rfl rfl
  | @failed cell operand op m' e fetched known failed =>
    have carried := (m.announced cell operand op).receives_perform op operand
    rw [failed] at carried
    simp only [pendingCalls, fetched, known, Option.map_some, Option.getD_some]
    exact carried.of_announced rfl rfl
  | @done cell operand op m' flow fetched known done =>
    have carried := (m.announced cell operand op).receives_perform op operand
    rw [done] at carried
    simp only [pendingCalls, fetched, known, Option.map_some, Option.getD_some]
    exact carried.of_announced rfl rfl

end Machine

namespace Execution

/-- The calls of further stages of a run, the first of them made first. -/
def calls (stop : Nat) : Nat → Execution → List DeviceCall
  | 0, _ => []
  | _ + 1, .finished .. => []
  | n + 1, .running m steps =>
    (if (m.register .pc).toNat < stop then m.pendingCalls else []) ++
      calls stop n (next stop (.running m steps))

theorem receives_next (stop : Nat) (m : Machine) (steps : Nat) :
    m.Receives (if (m.register .pc).toNat < stop then m.pendingCalls else [])
      (next stop (.running m steps)).machine := by
  have stepped := m.receives_step
  have follows := follows_next stop m steps
  generalize next stop (.running m steps) = e at follows ⊢
  cases follows with
  | outside outside =>
    rw [if_neg (by omega)]
    exact .none rfl rfl
  | failed inside step | halted inside step | left inside step | goesOn inside step =>
    rw [step] at stepped
    rw [if_pos inside]
    exact ⟨stepped.input, stepped.output⟩

theorem receives_after (stop n : Nat) (e : Execution) :
    e.machine.Receives (e.calls stop n) (after stop n e).machine := by
  induction n generalizing e with
  | zero => exact .none rfl rfl
  | succ n ih =>
    cases e with
    | finished m result => exact .none rfl rfl
    | running m steps => exact (receives_next stop m steps).trans (ih _)

end Execution

namespace Machine

/-- The calls of a run that is followed through at most so many stages. -/
def runCalls (limit : Nat) (m : Machine) (p : Program) : List DeviceCall :=
  (m.start p).calls p.cellCount limit

theorem receives_start (m : Machine) (p : Program) : m.Receives [] (m.start p).machine := by
  by_cases large : m.width.modulus < p.cellCount
  · rw [start_eq_refused large]
    exact .none rfl rfl
  · rw [start_eq_running (Nat.not_lt.mp large), loaded_frame]
    exact .none rfl rfl

theorem receives_execute (limit : Nat) (m : Machine) (p : Program) :
    m.Receives (m.runCalls limit p) (m.execute limit p).machine :=
  (m.receives_start p).trans (Execution.receives_after p.cellCount limit (m.start p))

end Machine

end AccumulatorMachine
