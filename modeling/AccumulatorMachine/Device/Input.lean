import AccumulatorMachine.Device.Fault

/-! Input devices supply a word at each call. A device is known by its answers: the call
with a number, counted from zero, has one answer, whether earlier calls failed or not. -/
namespace AccumulatorMachine

structure InputDevice where
  answer : Nat → Except DeviceFault UInt64
  reads : Nat := 0

namespace InputDevice

def next (d : InputDevice) : Except DeviceFault UInt64 :=
  d.answer d.reads

def read (d : InputDevice) : InputDevice :=
  { d with reads := d.reads + 1 }

/-- A device that gives prepared answers and then fails. -/
def ofQueue (answers : List (Except DeviceFault UInt64)) : InputDevice :=
  let queue := answers.toArray
  { answer := fun call => queue[call]?.getD (.error .queueEmpty) }

end InputDevice

end AccumulatorMachine
