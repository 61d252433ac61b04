import AccumulatorMachine.Proofs.Machine.Failure
import AccumulatorMachine.Proofs.Machine.Lockstep
import AccumulatorMachine.Proofs.Machine.Stores

/-! What no program reads: the flags, the registers that instructions only count in, and the
program counter that a run starts from. Machines that differ in nothing else run alike, and so
does a run whose flags are changed under it: no comparison has a part in where control goes. -/
namespace AccumulatorMachine

namespace Machine

/-- The registers that instructions take words from. -/
def working : List Register :=
  [.acc, .ix, .mar]

/-- Two machines that agree on some registers, on memory and on their devices. Nothing is said
of the other registers, the flags, the trace and the journal. -/
structure AgreeOn (rs : List Register) (m m' : Machine) : Prop where
  width : m'.width = m.width
  registers : ∀ r ∈ rs, m'.register r = m.register r
  memory : m'.memory = m.memory
  input : m'.input = m.input
  output : m'.output = m.output

namespace AgreeOn

variable {rs : List Register} {m m' : Machine}

/-- A register that is agreed on has to be given the same value in both; another one need not. -/
theorem put (agree : m.AgreeOn rs m') {r : Register} {value value' : Int}
    (same : r ∈ rs → value' = value) : (m.put r value).AgreeOn rs (m'.put r value') := by
  obtain ⟨width, registers, memory, input, output⟩ := agree
  refine ⟨width, ?_, memory, input, output⟩
  intro s member
  rw [register_put, register_put, width, registers s member]
  split
  · next named => rw [same (named ▸ member)]
  · rfl

/-- A register that is set is agreed on from then on. -/
theorem put_cons (agree : m.AgreeOn rs m') (r : Register) (value : Int) :
    (m.put r value).AgreeOn (r :: rs) (m'.put r value) := by
  obtain ⟨width, registers, memory, input, output⟩ := agree
  refine ⟨width, ?_, memory, input, output⟩
  intro s member
  rw [register_put, register_put, width]
  split
  · rfl
  · next other => exact registers s ((List.mem_cons.mp member).resolve_left other)

theorem read (agree : m.AgreeOn rs m') (address : UInt64) : m'.read address = m.read address := by
  rw [Machine.read, Machine.read, agree.memory]

theorem write (agree : m.AgreeOn rs m') (address word : UInt64) :
    (m.write address word).AgreeOn rs (m'.write address word) := by
  obtain ⟨width, registers, memory, input, output⟩ := agree
  refine ⟨width, registers, ?_, input, output⟩
  rw [Machine.write, Machine.write, memory, width]

theorem fetch? (agree : m.AgreeOn rs m') (address : UInt64) :
    m'.fetch? address = m.fetch? address := by
  simp only [Machine.fetch?, agree.read]

theorem bump (agree : m.AgreeOn rs m') (index : UInt64) (amount : Int) :
    (m.bump index amount).1.AgreeOn rs (m'.bump index amount).1 ∧
      (m'.bump index amount).2 = (m.bump index amount).2 := by
  simp only [Machine.bump]
  split
  · next r _ =>
    refine ⟨agree.put ?_, rfl⟩
    intro member
    rw [agree.registers r member]
  · exact ⟨agree, rfl⟩

theorem readInput (agree : m.AgreeOn rs m') :
    m.readInput.1.AgreeOn rs m'.readInput.1 ∧ m'.readInput.2 = m.readInput.2 := by
  obtain ⟨width, registers, memory, input, output⟩ := agree
  simp only [Machine.readInput, input]
  split
  · exact ⟨⟨width, registers, memory, input, output⟩, rfl⟩
  · next device _ =>
    have called : AgreeOn rs { m with input := some device.read }
        { m' with input := some device.read } := ⟨width, registers, memory, rfl, output⟩
    split
    · exact ⟨called.put fun _ => rfl, rfl⟩
    · exact ⟨called, rfl⟩

theorem writeOutput (agree : m.AgreeOn rs m') (acc : .acc ∈ rs) :
    m.writeOutput.1.AgreeOn rs m'.writeOutput.1 ∧ m'.writeOutput.2 = m.writeOutput.2 := by
  obtain ⟨width, registers, memory, input, output⟩ := agree
  simp only [Machine.writeOutput, output, registers .acc acc]
  split
  · exact ⟨⟨width, registers, memory, input, output⟩, rfl⟩
  · split
    · exact ⟨⟨width, registers, memory, input, rfl⟩, rfl⟩
    · exact ⟨⟨width, registers, memory, input, rfl⟩, rfl⟩

theorem loadInstruction (agree : m.AgreeOn rs m') (address : UInt64) (i : Instruction) :
    (m.loadInstruction address i).1.AgreeOn rs (m'.loadInstruction address i).1 := by
  have coded := agree.write address (UInt64.ofNat i.opcode.toNat)
  simp only [Machine.loadInstruction]
  split
  · exact coded.write _ _
  · exact coded

theorem loadFrom (agree : m.AgreeOn rs m') (address : Nat) (p : Program) :
    (m.loadFrom address p).AgreeOn rs (m'.loadFrom address p) := by
  induction p generalizing m m' address with
  | nil => exact agree
  | cons i rest ih => exact ih (agree.loadInstruction _ i) _

theorem loaded (agree : m.AgreeOn rs m') (p : Program) :
    (m.loaded p).AgreeOn (.pc :: rs) (m'.loaded p) :=
  (agree.loadFrom 0 p).put_cons .pc 0

/-- Every operation takes what it needs from the working registers, from memory and from the
devices, or adds to a register that it names. -/
theorem perform (agree : m.AgreeOn rs m') (visible : working ⊆ rs) (op : Opcode)
    (operand : UInt64) :
    (m.perform op operand).1.AgreeOn rs (m'.perform op operand).1 ∧
      (m'.perform op operand).2 = (m.perform op operand).2 := by
  have acc : m'.register .acc = m.register .acc := agree.registers _ (visible (by decide))
  have ix : m'.register .ix = m.register .ix := agree.registers _ (visible (by decide))
  have mar : m'.register .mar = m.register .mar := agree.registers _ (visible (by decide))
  cases op with
  | input => exact agree.readInput
  | output => exact agree.writeOutput (visible (by decide))
  | increment | decrement => exact agree.bump operand _
  | store =>
    simp only [Machine.perform, acc, mar, and_true]
    exact agree.write _ _
  | pass | jump | halt => exact ⟨agree, rfl⟩
  | jumpIfZero | jumpIfNonzero =>
    simp only [Machine.perform, acc, and_true]
    exact agree
  | compareDirect | compareImmediate | compareIndirect =>
    obtain ⟨width, registers, memory, input, output⟩ := agree
    exact ⟨⟨width, registers, memory, input, output⟩, rfl⟩
  | _ =>
    simp only [Machine.perform, load, accumulate, agree.read, acc, ix, and_true]
    exact agree.put fun _ => rfl

end AgreeOn

theorem lockstep_agreeOn : Lockstep (AgreeOn (.pc :: working)) where
  pc agree := agree.registers .pc List.mem_cons_self
  fetch? agree := agree.fetch?
  callsOf agree op := by
    have acc := agree.registers .acc (by decide)
    cases op with
    | input => rw [callsOf, callsOf, agree.input]
    | output => rw [callsOf, callsOf, agree.output, acc]
    | _ => rfl
  trace agree _ _ := by
    obtain ⟨width, registers, memory, input, output⟩ := agree
    exact ⟨width, registers, memory, input, output⟩
  record agree _ := by
    obtain ⟨width, registers, memory, input, output⟩ := agree
    exact ⟨width, registers, memory, input, output⟩
  putPc agree _ := agree.put fun _ => rfl
  perform agree op operand := agree.perform (List.subset_cons_self _ _) op operand

end Machine

namespace Execution

open Machine

/-- Further stages of a run in which each instruction finds flags of someone's choice, whatever
the comparisons before it have set. -/
def afterFlagged (stop : Nat) (flags : Nat → Flags) : Nat → Execution → Execution
  | 0, e => e
  | _ + 1, .finished m result => .finished m result
  | n + 1, .running m steps =>
    afterFlagged stop flags n (next stop (.running { m with flags := flags steps } steps))

theorem Alike.afterFlagged {e e' : Execution} (alike : e.Alike (AgreeOn (.pc :: working)) e')
    (stop : Nat) (flags : Nat → Flags) (n : Nat) :
    (e.after stop n).Alike (AgreeOn (.pc :: working)) (e'.afterFlagged stop flags n) := by
  induction n generalizing e e' with
  | zero => exact alike
  | succ n ih =>
    cases alike with
    | finished agree result => exact .finished agree result
    | @running m m' agree steps =>
      have flagged : m.AgreeOn (.pc :: working) { m' with flags := flags steps } := by
        obtain ⟨width, registers, memory, input, output⟩ := agree
        exact ⟨width, registers, memory, input, output⟩
      exact ih (lockstep_agreeOn.next flagged stop steps)

end Execution

namespace Machine

/-- What a program does hangs on nothing but width, working registers, memory and devices. The
result is the same, and so are the calls to the devices; unless the program is refused, so are
the working registers, the program counter and memory, at every stage. The comparisons of a run
do not steer it: if the flags are changed before any of its instructions, every stage still agrees
with that of the plain run, and so control goes the same way at every jump. -/
theorem execute_agrees {m m' : Machine} (agree : m.AgreeOn working m') (p : Program)
    (limit : Nat) :
    (m'.execute limit p).result? = (m.execute limit p).result? ∧
      m'.runCalls limit p = m.runCalls limit p ∧
      m'.Receives (m.runCalls limit p) (m'.execute limit p).machine ∧
      ((∀ instructions bits, (m.execute limit p).result? ≠
          some (.error (.programTooLarge instructions bits))) →
        (m.execute limit p).machine.AgreeOn (.pc :: working) (m'.execute limit p).machine ∧
          ∀ flags, (m.execute limit p).Alike (AgreeOn (.pc :: working))
            ((m'.start p).afterFlagged p.cellCount flags limit)) := by
  have receives := receives_execute limit m' p
  by_cases large : m.width.modulus < p.cellCount
  · have refused := start_eq_refused large
    have refused' :
        m'.start p = .finished m' (.error (.programTooLarge p.length m.width.bits)) := by
      rw [← agree.width] at large ⊢
      exact start_eq_refused large
    have calls : m'.runCalls limit p = m.runCalls limit p := by
      rw [runCalls, runCalls, refused, refused']
      cases limit with
      | zero => rfl
      | succ limit => rfl
    have result : (m.execute limit p).result? =
        some (.error (.programTooLarge p.length m.width.bits)) := by
      rw [execute, refused, Execution.after_finished]
      rfl
    have result' : (m'.execute limit p).result? = (m.execute limit p).result? := by
      rw [result, execute, refused', Execution.after_finished]
      rfl
    rw [calls] at receives
    exact ⟨result', calls, receives, fun accepted => absurd result (accepted _ _)⟩
  · have fits := Nat.not_lt.mp large
    have fits' : p.cellCount ≤ m'.width.modulus := by rwa [agree.width]
    have start : (m.start p).Alike (AgreeOn (.pc :: working)) (m'.start p) := by
      rw [start_eq_running fits, start_eq_running fits']
      exact .running (agree.loaded p) 0
    have alike := lockstep_agreeOn.after start p.cellCount limit
    have calls : m'.runCalls limit p = m.runCalls limit p :=
      lockstep_agreeOn.calls start p.cellCount limit
    rw [calls] at receives
    exact ⟨alike.result?, calls, receives, fun _ =>
      ⟨alike.machine, fun flags => start.afterFlagged p.cellCount flags limit⟩⟩

/-- The comparison finds equality and the jump after it is not taken, whatever the flags were and
even if they are turned over before each instruction; the counted register differs to the end. -/
theorem execute_agrees_of_equal_words :
    let m := (({ width := ⟨8, by decide, by decide⟩ } : Machine).attachInput
      (.ofQueue [.ok 259])).attachOutput (.recorder none)
    let m' : Machine := { m with
      flags := { carry := true, zero := true }
      registers := { m.registers with cir := 255, mdr := 9, pc := 5 } }
    let p : Program := [⟨0x10, 0⟩, ⟨0x41, 3⟩, ⟨0x24, 2⟩, ⟨0x31, 0⟩, ⟨0x11, 0⟩]
    m.AgreeOn working m' ∧ (m.execute 5 p).result? = some (.ok ⟨5, false⟩) ∧
      (m'.execute 5 p).result? = some (.ok ⟨5, false⟩) ∧
      m'.runCalls 5 p = m.runCalls 5 p ∧ (m'.execute 5 p).machine.taken = [3] ∧
      ((m.execute 5 p).machine.register .cir, (m'.execute 5 p).machine.register .cir) = (1, 0) ∧
      (m.execute 5 p).Alike (AgreeOn (.pc :: working))
        ((m'.start p).afterFlagged p.cellCount (fun k => { zero := k % 2 = 0 }) 5) := by
  intro m m' p
  have agree : m.AgreeOn working m' := ⟨rfl, by decide, rfl, rfl, rfl⟩
  obtain ⟨result, calls, _, further⟩ := execute_agrees agree p 5
  have ended : (m.execute 5 p).result? = some (.ok ⟨5, false⟩) := by decide +kernel
  have fits : p.cellCount ≤ m.width.modulus := by decide
  refine ⟨agree, ended, result.trans ended, calls, by decide +kernel, by decide +kernel, ?_⟩
  exact (further (never_programTooLarge_iff.mpr fits 5)).2 _

end Machine

end AccumulatorMachine
