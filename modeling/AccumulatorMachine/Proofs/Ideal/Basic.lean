import AccumulatorMachine.Machine.Execution
import Mathlib.Data.ZMod.Basic

/-! The machine as the instruction set has it, on integers modulo 2 ^ N: six registers and
a cell at every number. Nothing is narrowed here, for nothing is ever too large. Operations
are a table of effects and of addressing modes. Only the devices, the flags and the errors
are those of the machine that runs; traces and the journal are left out. -/
namespace AccumulatorMachine

abbrev Residue (w : Width) := ZMod (2 ^ w.bits)

/-- How an instruction comes to the value that it works on. -/
inductive Addressing
  | immediate
  /-- The cell at the operand. -/
  | direct
  /-- The cell at the address that the cell at the operand holds. -/
  | indirect
  /-- The cell at the sum of accumulator and index register. -/
  | indexed
  | accumulator

/-- What an instruction does besides going on. -/
inductive Effect
  | load (target : Register) (value : Addressing)
  /-- The accumulator is stored at the address in the address register. -/
  | store
  | nothing
  | input
  | output
  | add (value : Addressing)
  | subtract (value : Addressing)
  /-- An amount is added to the register that the operand names. -/
  | adjust (amount : Int)
  | jump
  /-- Control jumps if the accumulator is zero, or if it is not. -/
  | jumpIf (zero : Bool)
  | halt
  | compare (value : Addressing)

def Opcode.effect : Opcode → Effect
  | loadImmediate => .load .acc .immediate
  | loadDirect => .load .acc .direct
  | loadIndirect => .load .acc .indirect
  | loadIndexed => .load .acc .indexed
  | loadIndex => .load .ix .immediate
  | copyToIndex => .load .ix .accumulator
  | store => .store
  | pass => .nothing
  | input => .input
  | output => .output
  | addDirect => .add .direct
  | addImmediate => .add .immediate
  | subDirect => .subtract .direct
  | subImmediate => .subtract .immediate
  | increment => .adjust 1
  | decrement => .adjust (-1)
  | jump => .jump
  | jumpIfZero => .jumpIf true
  | jumpIfNonzero => .jumpIf false
  | halt => .halt
  | compareDirect => .compare .direct
  | compareImmediate => .compare .immediate
  | compareIndirect => .compare .indirect

structure Ideal (w : Width) where
  registers : Register → Residue w
  memory : Nat → Residue w
  flags : Flags
  input : Option InputDevice
  output : Option OutputDevice

inductive Control (w : Width)
  | next
  | goTo (target : Residue w)
  | halt

namespace Ideal

variable {w : Width}

def set (s : Ideal w) (r : Register) (value : Residue w) : Ideal w :=
  { s with registers := Function.update s.registers r value }

theorem registers_set (s : Ideal w) (r r' : Register) (value : Residue w) :
    (s.set r value).registers r' = if r' = r then value else s.registers r' :=
  Function.update_apply s.registers r value r'

def value (s : Ideal w) (operand : Residue w) : Addressing → Residue w
  | .immediate => operand
  | .direct => s.memory operand.val
  | .indirect => s.memory (s.memory operand.val).val
  | .indexed => s.memory (((s.registers .acc).val + (s.registers .ix).val) % 2 ^ 64)
  | .accumulator => s.registers .acc

/-- The flags of a comparison of two words as natural numbers. -/
def compared (s : Ideal w) (right : Residue w) : Flags :=
  { s.flags with
    carry := (s.registers .acc).val < right.val
    negative := (s.registers .acc).val < right.val
    zero := s.registers .acc = right }

def act (s : Ideal w) (operand : Residue w) : Effect → Ideal w × Except MachineError (Control w)
  | .load r a => (s.set r (s.value operand a), .ok .next)
  | .store =>
    ({ s with memory := Function.update s.memory (s.registers .mar).val (s.registers .acc) },
      .ok .next)
  | .nothing => (s, .ok .next)
  | .input =>
    match s.input with
    | none => (s, .error .missingDevice)
    | some device =>
      let called := { s with input := some device.read }
      match device.next with
      | .ok word => (called.set .acc word.toNat, .ok .next)
      | .error fault => (called, .error (.device fault))
  | .output =>
    match s.output with
    | none => (s, .ok .next)
    | some device =>
      let word := UInt64.ofNat (s.registers .acc).val
      let called := { s with output := some (device.write word) }
      match device.next word with
      | .ok () => (called, .ok .next)
      | .error fault => (called, .error (.device fault))
  | .add a => (s.set .acc (s.registers .acc + s.value operand a), .ok .next)
  | .subtract a => (s.set .acc (s.registers .acc - s.value operand a), .ok .next)
  | .adjust amount =>
    match Register.all.find? (·.index = operand.val) with
    | some r => (s.set r (s.registers r + amount), .ok .next)
    | none => (s, .error (.invalidRegister (UInt64.ofNat operand.val)))
  | .jump => (s, .ok (.goTo operand))
  | .jumpIf zero =>
    (s, .ok (if decide (s.registers .acc = 0) = zero then .goTo operand else .next))
  | .halt => (s, .ok .halt)
  | .compare a => ({ s with flags := s.compared (s.value operand a) }, .ok .next)

def decode? (cell : Residue w) : Option Opcode :=
  Opcode.all.find? (·.code.toNat = cell.val)

/-- Code and operand lie side by side. Storage ends after 2 ^ 64 cells. -/
def fetch? (s : Ideal w) : Option (Residue w × Residue w) :=
  let address := (s.registers .pc).val
  if address + 1 < 2 ^ 64 then some (s.memory address, s.memory (address + 1)) else none

/-- The number that control goes to, which may be past the last address. -/
def destination (s : Ideal w) : Control w → Nat
  | .goTo target => target.val
  | .next | .halt => (s.registers .pc).val + 2

/-- One instruction, with the number that control goes to after it. -/
def step (s : Ideal w) : Ideal w × Except MachineError (Control w × Nat) :=
  match s.fetch? with
  | none => (s, .error .addressOverflow)
  | some (cell, operand) =>
    match decode? cell with
    | none => (s, .error (.invalidOpcode (UInt64.ofNat cell.val)))
    | some op =>
      match s.act operand op.effect with
      | (t, .error e) => (t, .error e)
      | (t, .ok control) =>
        (t.set .pc (t.destination control), .ok (control, t.destination control))

/-- A program lies at the first cells, a code in each even one and an operand after it. -/
def load (p : Program) (s : Ideal w) : Ideal w :=
  { s with
    registers := Function.update s.registers .pc 0
    memory := fun address =>
      match p[address / 2]? with
      | some i => if address % 2 = 0 then i.opcode.toNat else i.operand.toNat
      | none => s.memory address }

inductive Run (w : Width)
  | running (s : Ideal w) (steps : Nat)
  | finished (s : Ideal w) (result : Except MachineError RunSummary)

/-- A run of a program of so many cells ends on the instruction that halts, on an error, or
when control goes past those cells. It does not look where the program counter is. -/
def Run.next (cells : Nat) : Run w → Run w
  | .finished s result => .finished s result
  | .running s steps =>
    if cells = 0 then .finished s (.ok ⟨steps, false⟩)
    else
      match s.step with
      | (t, .error e) => .finished t (.error e)
      | (t, .ok (.halt, _)) => .finished t (.ok ⟨steps + 1, true⟩)
      | (t, .ok (_, destination)) =>
        if cells ≤ destination then .finished t (.ok ⟨steps + 1, false⟩)
        else .running t (steps + 1)

def execute (s : Ideal w) (p : Program) (limit : Nat) : Run w :=
  (Run.next (2 * p.length))^[limit] (.running (s.load p) 0)

end Ideal

end AccumulatorMachine
