import AccumulatorMachine.Instruction.Opcode
import AccumulatorMachine.Numeral.Written
import AccumulatorMachine.Text.Column

/-! An instruction as it lies in memory: a code, not always that of an operation, and
an operand, not yet narrowed to any width. -/
namespace AccumulatorMachine

structure Instruction where
  opcode : UInt8
  operand : UInt64
  deriving DecidableEq, Repr

namespace Instruction

def ofOpcode (op : Opcode) (operand : UInt64) : Instruction :=
  ⟨op.code, operand⟩

/-- The mnemonic of a code, or the code itself if no operation has it. -/
def codeName (code : UInt8) : String :=
  match Opcode.ofCode? code with
  | some op => op.mnemonic
  | none => "??(0x" ++ Numeral.padded 16 2 code.toNat ++ ")"

def text (i : Instruction) : String :=
  Text.alignLeft 13 (codeName i.opcode) ++ " " ++ toString i.operand.toNat

end Instruction

end AccumulatorMachine
