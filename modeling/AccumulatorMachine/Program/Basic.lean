import AccumulatorMachine.Instruction.Basic

/-! A program: its instructions, the first one at address zero. Each instruction takes
two cells, the code before the operand. -/
namespace AccumulatorMachine

abbrev Program := List Instruction

def cellsPerInstruction : Nat := 2

namespace Program

/-- Cells that a program takes, and so the first address after it. -/
def cellCount (p : Program) : Nat :=
  p.length * cellsPerInstruction

/-- The line of a listing for the instruction of a number: the number, the address of
its code and the instruction. -/
def listingLine (number : Nat) (i : Instruction) : String :=
  Text.alignRight 4 (toString number) ++ "  " ++
    Text.alignRight 5 (toString (number * cellsPerInstruction)) ++ "  " ++ i.text

def listing (p : Program) : String :=
  Text.ofLines (p.mapIdx listingLine)

end Program

end AccumulatorMachine
