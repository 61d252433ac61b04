import AccumulatorMachine.Device.Input
import AccumulatorMachine.Device.Output
import AccumulatorMachine.Journal
import AccumulatorMachine.Machine.Error
import AccumulatorMachine.Machine.Flags
import AccumulatorMachine.Machine.Memory
import AccumulatorMachine.Machine.Registers
import AccumulatorMachine.Program.Basic
import AccumulatorMachine.Text.Sink
import AccumulatorMachine.Text.Style
import AccumulatorMachine.Word.Width

/-! The machine: registers, memory and flags of one width, the devices attached to it,
and what it traces and records. Whatever is stored is narrowed to the width first. -/
namespace AccumulatorMachine

/-- Where the trace goes, and how it sets text apart. -/
structure Trace where
  sink : Text.Sink
  style : Text.Style := .plain

structure Machine where
  width : Width
  registers : Registers := {}
  memory : Memory := ∅
  flags : Flags := {}
  input : Option InputDevice := none
  output : Option OutputDevice := none
  trace : Option Trace := none
  journal : Array LogRecord := #[]

namespace Machine

def register (m : Machine) (r : Register) : UInt64 :=
  m.registers.get r

/-- Stores an integer in a register, narrowed. -/
def put (m : Machine) (r : Register) (value : Int) : Machine :=
  { m with registers := m.registers.set r (m.width.truncate value) }

def setRegister (m : Machine) (r : Register) (word : UInt64) : Machine :=
  m.put r word.toNat

def read (m : Machine) (address : UInt64) : UInt64 :=
  m.memory.read address

/-- Stores a word in memory, narrowed; the address is taken as it is. -/
def write (m : Machine) (address word : UInt64) : Machine :=
  { m with memory := m.memory.write address (m.width.truncate word.toNat) }

def attachInput (m : Machine) (d : InputDevice) : Machine :=
  { m with input := some d }

def attachOutput (m : Machine) (d : OutputDevice) : Machine :=
  { m with output := some d }

def traceTo (m : Machine) (t : Trace) : Machine :=
  { m with trace := some t }

def record (m : Machine) (r : LogRecord) : Machine :=
  { m with journal := m.journal.push r }

/-- Offers text to the trace, if there is one, as one piece. -/
def offerTrace (m : Machine) (text : Text.Style → String) : Machine :=
  { m with
    trace := m.trace.map fun t => { t with sink := t.sink.offer (text t.style) } }

/-- The cell after an address, unless storage ends there. -/
def cellAfter? (address : UInt64) : Option UInt64 :=
  if address.toNat + 1 < UInt64.size then some (address + 1) else none

/-- Code and operand of the instruction at an address. -/
def fetch? (m : Machine) (address : UInt64) : Option (UInt64 × UInt64) :=
  (cellAfter? address).map fun after => (m.read address, m.read after)

/-- Stores an instruction at an address. Its code is stored even if its operand has no cell. -/
def loadInstruction (m : Machine) (address : UInt64) (i : Instruction) :
    Machine × Except MachineError Unit :=
  let m := m.write address (UInt64.ofNat i.opcode.toNat)
  match cellAfter? address with
  | some after => (m.write after i.operand, .ok ())
  | none => (m, .error .addressOverflow)

def loadFrom (address : Nat) : Program → Machine → Machine
  | [], m => m
  | i :: rest, m =>
    loadFrom (address + cellsPerInstruction) rest (m.loadInstruction (UInt64.ofNat address) i).1

theorem register_put (m : Machine) (r s : Register) (value : Int) :
    (m.put r value).register s = if s = r then m.width.truncate value else m.register s :=
  m.registers.get_set r s _

@[simp] theorem width_put (m : Machine) (r : Register) (value : Int) :
    (m.put r value).width = m.width := rfl

@[simp] theorem memory_put (m : Machine) (r : Register) (value : Int) :
    (m.put r value).memory = m.memory := rfl

@[simp] theorem width_write (m : Machine) (address word : UInt64) :
    (m.write address word).width = m.width := rfl

theorem read_write (m : Machine) (address word other : UInt64) :
    (m.write address word).read other =
      if other = address then m.width.truncate word.toNat else m.read other :=
  m.memory.read_write address _ other

theorem cellAfter?_eq_some_iff {address after : UInt64} :
    cellAfter? address = some after ↔ after.toNat = address.toNat + 1 := by
  have bound := after.toNat_lt
  simp only [cellAfter?, UInt64.size]
  constructor
  · intro found
    split at found
    · obtain rfl := Option.some.inj found
      rw [UInt64.toNat_add, UInt64.toNat_one]
      omega
    · contradiction
  · intro next
    rw [if_pos (by omega), Option.some.injEq, ← UInt64.toNat_inj, UInt64.toNat_add,
      UInt64.toNat_one]
    omega

theorem cellAfter?_eq_none_iff {address : UInt64} :
    cellAfter? address = none ↔ address.toNat + 1 = UInt64.size := by
  have bound := address.toNat_lt
  simp only [cellAfter?, UInt64.size]
  split <;> simp only [reduceCtorEq, false_iff, true_iff] <;> omega

@[simp] theorem width_loadInstruction (m : Machine) (address : UInt64) (i : Instruction) :
    (m.loadInstruction address i).1.width = m.width := by
  simp only [loadInstruction]
  split <;> rfl

end Machine

end AccumulatorMachine
