import AccumulatorMachine.Device.Input
import AccumulatorMachine.Numeral.Read
import AccumulatorMachine.Text.Blank
import AccumulatorMachine.Text.Segment
import AccumulatorMachine.Text.Utf8

/-! The input device that reads a number from each line of a stream. A line is read
whole before it is looked at, so a bad line costs one call and no other line. -/
namespace AccumulatorMachine.LineReader

/-- Decimal digits, or `0x` or `0b` and digits of that base, below 2 ^ 64. -/
def magnitude? : List Char → Option Nat
  | '0' :: 'x' :: digits => Numeral.readBelow? UInt64.size 16 (Numeral.withoutPlus digits)
  | '0' :: 'b' :: digits => Numeral.readBelow? UInt64.size 2 (Numeral.withoutPlus digits)
  | digits => Numeral.readBelow? UInt64.size 10 (Numeral.withoutPlus digits)

def integer? : List Char → Option Int
  | '-' :: rest => (magnitude? rest).map fun n => -(n : Int)
  | text => (magnitude? text).map fun n => (n : Int)

/-- The word on a line; a negative number stands in two's complement. -/
def word (line : List UInt8) : Except DeviceFault UInt64 :=
  match Text.Utf8.decode? line with
  | none => .error .notText
  | some text =>
    let text := Text.trim text
    if text.isEmpty then .error .noInput
    else
      match integer? text with
      | some n => .ok (UInt64.ofInt n)
      | none => .error (.notANumber text)

/-- The lines of a stream, each with its newline. -/
def lines (stream : List UInt8) : List (List UInt8) :=
  Text.segments (· == 0x0A) stream

/-- Past the end of the lines, every line is empty. -/
def ofLines (lines : Array (List UInt8)) : InputDevice where
  answer call := word (lines[call]?.getD [])

def ofStream (stream : List UInt8) : InputDevice :=
  ofLines (lines stream).toArray

end AccumulatorMachine.LineReader
