import AccumulatorMachine.Machine.Basic
import AccumulatorMachine.Numeral.Read
import AccumulatorMachine.Text.Blank

/-! Settings of a machine: its width, not yet checked, and whether it traces its steps.
They come from the environment and are overridden one by one. -/
namespace AccumulatorMachine

structure Environment where
  bits : Option String := none
  verbose : Option String := none
  deriving DecidableEq, Repr

structure Settings where
  bits : Nat := Width.standard.bits
  verbose : Bool := false
  deriving DecidableEq, Repr

namespace Settings

/-- A count of bits as the environment gives it, with blanks around it. -/
def bits? (text : String) : Option Nat :=
  Numeral.readBelow? UInt32.size 10 (Numeral.withoutPlus (Text.trim text.toList))

/-- A count of bits that cannot be read is as good as none. -/
def ofEnvironment (e : Environment) : Settings where
  bits := (e.bits.bind bits?).getD Width.standard.bits
  verbose := e.verbose == some "1"

def withBits (s : Settings) (bits : Nat) : Settings :=
  { s with bits }

def withVerbose (s : Settings) (verbose : Bool) : Settings :=
  { s with verbose }

/-- The machine of the settings; if they ask for a trace, it goes to the given one. -/
def machine (s : Settings) (trace : Trace) : Except MachineError Machine :=
  match Width.ofBits? s.bits with
  | none => .error (.unsupportedWidth s.bits)
  | some width => .ok { width, trace := if s.verbose then some trace else none }

end Settings

end AccumulatorMachine
