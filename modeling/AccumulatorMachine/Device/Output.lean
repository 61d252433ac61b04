import AccumulatorMachine.Device.Fault

/-! Output devices take a word at each call. What a device answers may hang on every
call made to it before; the device keeps those calls and nothing else. -/
namespace AccumulatorMachine

structure OutputDevice where
  /-- The answer to a call, given the words of the calls before it. -/
  reply : (earlier : Array UInt64) → UInt64 → Except DeviceFault Unit
  calls : Array UInt64 := #[]

namespace OutputDevice

def next (d : OutputDevice) (word : UInt64) : Except DeviceFault Unit :=
  d.reply d.calls word

def write (d : OutputDevice) (word : UInt64) : OutputDevice :=
  { d with calls := d.calls.push word }

/-- The words among further calls that the device takes. -/
def takenAfter (d : OutputDevice) (earlier : Array UInt64) : List UInt64 → List UInt64
  | [] => []
  | word :: rest =>
    let others := d.takenAfter (earlier.push word) rest
    if (d.reply earlier word).isOk then word :: others else others

def taken (d : OutputDevice) : List UInt64 :=
  d.takenAfter #[] d.calls.toList

/-- A device that takes so many words, or any number of them. -/
def recorder (accepts : Option Nat) : OutputDevice where
  reply earlier _ :=
    match accepts with
    | none => .ok ()
    | some n => if earlier.size < n then .ok () else .error .recorderFull

end OutputDevice

end AccumulatorMachine
