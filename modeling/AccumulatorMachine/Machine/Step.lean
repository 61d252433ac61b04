import AccumulatorMachine.Machine.Basic

/-! One step of the machine: the instruction at the program counter is fetched, decoded
and carried out. An instruction that fails changes neither registers nor memory nor
flags. -/
namespace AccumulatorMachine

/-- Where control goes after an instruction. -/
inductive Flow
  | next
  | jump (target : UInt64)
  | halt
  deriving DecidableEq, Repr

def Flow.jumpIf (condition : Bool) (target : UInt64) : Flow :=
  if condition then .jump target else .next

namespace Machine

def decode? (cell : UInt64) : Option Opcode :=
  if cell.toNat < 256 then Opcode.ofCode? (UInt8.ofNat cell.toNat) else none

/-- What the trace tells about an instruction before it is carried out. -/
def fetchText (w : Width) (address cell operand : UInt64) (style : Text.Style) : String :=
  let name := ((decode? cell).map Opcode.mnemonic).getD "UNKNOWN"
  Text.ofLines [
    "Fetching instruction at address " ++ toString address.toNat,
    "Decoded: [OPCODE:" ++ style.cyan name ++ "(" ++ Numeral.padded 2 8 cell.toNat ++
      "), OPERAND:" ++ w.binary operand ++ "]"]

def load (m : Machine) (r : Register) (word : UInt64) : Machine × Except MachineError Flow :=
  (m.put r word.toNat, .ok .next)

def accumulate (m : Machine) (amount : Int) : Machine × Except MachineError Flow :=
  (m.put .acc ((m.register .acc).toNat + amount), .ok .next)

def bump (m : Machine) (index : UInt64) (amount : Int) : Machine × Except MachineError Flow :=
  match Register.ofIndex? index.toNat with
  | some r => (m.put r ((m.register r).toNat + amount), .ok .next)
  | none => (m, .error (.invalidRegister index))

def compareWith (m : Machine) (word : UInt64) : Machine × Except MachineError Flow :=
  ({ m with flags := m.flags.compare (m.register .acc) word }, .ok .next)

def readInput (m : Machine) : Machine × Except MachineError Flow :=
  match m.input with
  | none => (m, .error .missingDevice)
  | some device =>
    let called := { m with input := some device.read }
    match device.next with
    | .ok word => (called.put .acc word.toNat, .ok .next)
    | .error fault => (called, .error (.device fault))

/-- The accumulator goes to the output device. Where there is none, that is only recorded. -/
def writeOutput (m : Machine) : Machine × Except MachineError Flow :=
  let word := m.register .acc
  match m.output with
  | none => (m.record (.noOutputDevice word), .ok .next)
  | some device =>
    let called := { m with output := some (device.write word) }
    match device.next word with
    | .ok () => (called, .ok .next)
    | .error fault => (called, .error (.device fault))

/-- Carries out an operation; the program counter is left where it is. -/
def perform (m : Machine) (op : Opcode) (operand : UInt64) :
    Machine × Except MachineError Flow :=
  match op with
  | .loadImmediate => m.load .acc operand
  | .loadDirect => m.load .acc (m.read operand)
  | .loadIndirect => m.load .acc (m.read (m.read operand))
  | .loadIndexed => m.load .acc (m.read (m.register .acc + m.register .ix))
  | .loadIndex => m.load .ix operand
  | .copyToIndex => m.load .ix (m.register .acc)
  | .store => (m.write (m.register .mar) (m.register .acc), .ok .next)
  | .pass => (m, .ok .next)
  | .input => m.readInput
  | .output => m.writeOutput
  | .addDirect => m.accumulate (m.read operand).toNat
  | .addImmediate => m.accumulate operand.toNat
  | .subDirect => m.accumulate (-(m.read operand).toNat)
  | .subImmediate => m.accumulate (-operand.toNat)
  | .increment => m.bump operand 1
  | .decrement => m.bump operand (-1)
  | .jump => (m, .ok (.jump operand))
  | .jumpIfZero => (m, .ok (.jumpIf (m.register .acc == 0) operand))
  | .jumpIfNonzero => (m, .ok (.jumpIf (m.register .acc != 0) operand))
  | .halt => (m, .ok .halt)
  | .compareDirect => m.compareWith (m.read operand)
  | .compareImmediate => m.compareWith operand
  | .compareIndirect => m.compareWith (m.read (m.read operand))

/-- The address that control goes to, not yet narrowed. -/
def successor (m : Machine) : Flow → Nat
  | .jump target => target.toNat
  | .next | .halt => (m.register .pc).toNat + cellsPerInstruction

def advance (m : Machine) (op : Opcode) (operand : UInt64) :
    Machine × Except MachineError (Flow × Nat) :=
  match m.perform op operand with
  | (m, .error e) => (m, .error e)
  | (m, .ok flow) => (m.put .pc (m.successor flow), .ok (flow, m.successor flow))

/-- The instruction at the program counter. With its flow a step gives the address that
control went to before that was narrowed. -/
def step (m : Machine) : Machine × Except MachineError (Flow × Nat) :=
  let address := m.register .pc
  match m.fetch? address with
  | none => (m, .error .addressOverflow)
  | some (cell, operand) =>
    let m := m.offerTrace (fetchText m.width address cell operand)
    match decode? cell with
    | none => (m, .error (.invalidOpcode cell))
    | some op => (m.record (.decoded address op operand)).advance op operand

end Machine

end AccumulatorMachine
