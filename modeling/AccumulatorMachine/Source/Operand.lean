import AccumulatorMachine.Instruction.Register
import AccumulatorMachine.Numeral.Read

/-! Operands as source text writes them: numbers in three bases, register names and
label names. A literal is known by its first character, a binary one by all of them,
so that labels may start with a `B`. -/
namespace AccumulatorMachine.Source

inductive LiteralKind
  /-- `#` and a number that may be negative. -/
  | decimal
  /-- `&` and digits of either case. -/
  | hexadecimal
  /-- `B` and digits. -/
  | binary
  deriving DecidableEq, Repr

namespace LiteralKind

def isBinaryDigit (c : Char) : Bool :=
  c == '0' || c == '1'

/-- The kind of literal that a token sets out to be; it may still be malformed. -/
def of? : List Char → Option LiteralKind
  | '#' :: _ => some decimal
  | '&' :: _ => some hexadecimal
  | 'B' :: digits =>
    if !digits.isEmpty && digits.all isBinaryDigit then some binary else none
  | _ => none

/-- A decimal number from -2 ^ 63 up to 2 ^ 63, the upper end excluded. -/
def signed? : List Char → Option Int
  | '-' :: digits =>
    (Numeral.readBelow? (UInt64.size / 2 + 1) 10 digits).map fun n : Nat => -(n : Int)
  | digits => (Numeral.readBelow? (UInt64.size / 2) 10 digits).map fun n : Nat => (n : Int)

/-- The 64-bit value of what follows the first character. A negative number stands in
two's complement until the machine narrows it to its width. -/
def value? : LiteralKind → List Char → Option UInt64
  | decimal, text => (signed? text).map UInt64.ofInt
  | hexadecimal, digits => (Numeral.readBelow? UInt64.size 16 digits).map UInt64.ofNat
  | binary, digits => (Numeral.readBelow? UInt64.size 2 digits).map UInt64.ofNat

end LiteralKind

inductive Operand
  /-- A number, or the number of a register. -/
  | value (number : UInt64)
  /-- The address of a label. -/
  | label (name : List Char)
  /-- Set out as a literal, but not one. -/
  | malformed (text : List Char)
  deriving DecidableEq, Repr

namespace Operand

/-- The operand that a token writes. No token at all is the number zero. -/
def ofToken (token : List Char) : Operand :=
  if token.isEmpty then .value 0
  else
    match LiteralKind.of? token with
    | some kind =>
      match kind.value? token.tail with
      | some number => .value number
      | none => .malformed token
    | none =>
      match Register.ofName? token with
      | some register => .value (UInt64.ofNat register.index)
      | none => .label token

end Operand

end AccumulatorMachine.Source
