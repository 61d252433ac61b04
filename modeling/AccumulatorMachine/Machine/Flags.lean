/-! The status flags. Only comparisons set them, and no instruction reads them. -/
namespace AccumulatorMachine

structure Flags where
  carry : Bool := false
  negative : Bool := false
  /-- Clear from the start, and no comparison sets it. -/
  overflow : Bool := false
  zero : Bool := false
  deriving DecidableEq, Repr

namespace Flags

/-- The flags after two words are compared as unsigned numbers. -/
def compare (f : Flags) (left right : UInt64) : Flags :=
  { f with
    carry := left < right
    negative := left < right
    zero := left == right }

def digit (flag : Bool) : String :=
  if flag then "1" else "0"

end Flags

end AccumulatorMachine
