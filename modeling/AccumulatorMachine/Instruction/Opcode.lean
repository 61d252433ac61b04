/-! The operations of the machine, the bytes that encode them and the mnemonics that
source text writes for them. -/
namespace AccumulatorMachine

/-- The family of an operation, which is the high half of its code. -/
inductive OpcodeGroup
  | dataMove
  | inputOutput
  | arithmetic
  | branching
  | comparison
  deriving DecidableEq, Repr

/-- "Direct" operations take the cell at the operand, "indirect" ones the cell whose
address that cell holds, "immediate" ones the operand itself. -/
inductive Opcode
  | loadImmediate
  | loadDirect
  | loadIndirect
  | loadIndexed
  | loadIndex
  | copyToIndex
  | store
  | pass
  | input
  | output
  | addDirect
  | addImmediate
  | subDirect
  | subImmediate
  | increment
  | decrement
  | jump
  | jumpIfZero
  | jumpIfNonzero
  | halt
  | compareDirect
  | compareImmediate
  | compareIndirect
  deriving DecidableEq, Repr

def OpcodeGroup.name : OpcodeGroup → String
  | dataMove => "DataMove"
  | inputOutput => "Io"
  | arithmetic => "Arithmetic"
  | branching => "Branching"
  | comparison => "Comparison"

namespace Opcode

def all : List Opcode :=
  [loadImmediate, loadDirect, loadIndirect, loadIndexed, loadIndex, copyToIndex, store, pass,
    input, output,
    addDirect, addImmediate, subDirect, subImmediate, increment, decrement,
    jump, jumpIfZero, jumpIfNonzero, halt,
    compareDirect, compareImmediate, compareIndirect]

def code : Opcode → UInt8
  | loadImmediate => 0x00
  | loadDirect => 0x01
  | loadIndirect => 0x02
  | loadIndexed => 0x03
  | loadIndex => 0x04
  | copyToIndex => 0x05
  | store => 0x06
  | pass => 0x07
  | input => 0x10
  | output => 0x11
  | addDirect => 0x20
  | addImmediate => 0x21
  | subDirect => 0x22
  | subImmediate => 0x23
  | increment => 0x24
  | decrement => 0x25
  | jump => 0x30
  | jumpIfZero => 0x31
  | jumpIfNonzero => 0x32
  | halt => 0x33
  | compareDirect => 0x40
  | compareImmediate => 0x41
  | compareIndirect => 0x42

def group (op : Opcode) : OpcodeGroup :=
  match op.code >>> 4 with
  | 0 => .dataMove
  | 1 => .inputOutput
  | 2 => .arithmetic
  | 3 => .branching
  | _ => .comparison

/-- The mnemonic in a listing. The operation without effect shares the mnemonic of
the one that halts, since both end a stretch of code. -/
def mnemonic : Opcode → String
  | loadImmediate => "LDM"
  | loadDirect => "LDD"
  | loadIndirect => "LDI"
  | loadIndexed => "LDX"
  | loadIndex => "LDR"
  | copyToIndex => "MOV"
  | store => "STO"
  | pass | halt => "END"
  | input => "IN"
  | output => "OUT"
  | addDirect => "ADD_ADDRESS"
  | addImmediate => "ADD_IMMEDIATE"
  | subDirect => "SUB_ADDRESS"
  | subImmediate => "SUB_IMMEDIATE"
  | increment => "INC"
  | decrement => "DEC"
  | jump => "JMP"
  | jumpIfZero => "JPE"
  | jumpIfNonzero => "JPN"
  | compareDirect => "CMP_ADDRESS"
  | compareImmediate => "CMP_IMMEDIATE"
  | compareIndirect => "CMI_ADDRESS"

def ofCode? (code : UInt8) : Option Opcode :=
  all.find? (·.code == code)

/-- The code that no operation has: it stands for a mnemonic that names none. -/
def unknownCode : UInt8 := 0xFF

/-- The operation that a mnemonic names, in capitals or small letters. `END` is the
operation that halts: the one without effect has no mnemonic of its own. -/
def ofMnemonic? (mnemonic : List Char) : Option Opcode :=
  (all.filter (· ≠ pass)).find? (·.mnemonic.toList == mnemonic.map Char.toUpper)

def encode (mnemonic : List Char) : UInt8 :=
  ((ofMnemonic? mnemonic).map code).getD unknownCode

theorem mem_all (op : Opcode) : op ∈ all := by
  cases op <;> decide

@[simp] theorem ofCode?_code (op : Opcode) : ofCode? op.code = some op := by
  cases op <;> decide

theorem ofCode?_eq_some_iff {code : UInt8} {op : Opcode} :
    ofCode? code = some op ↔ op.code = code := by
  constructor
  · intro h
    rw [ofCode?] at h
    simpa using List.find?_some h
  · rintro rfl
    exact ofCode?_code op

theorem code_injective {a b : Opcode} (h : a.code = b.code) : a = b :=
  Option.some.inj ((ofCode?_code a).symm.trans (h ▸ ofCode?_code b))

theorem ofCode?_unknownCode : ofCode? unknownCode = none := by
  decide

theorem ofMnemonic?_mnemonic {op : Opcode} (h : op ≠ pass) :
    ofMnemonic? op.mnemonic.toList = some op := by
  cases op <;> first | exact absurd rfl h | decide

end Opcode

end AccumulatorMachine
