import AccumulatorMachine.Device.Fault
import AccumulatorMachine.Diagnostic
import AccumulatorMachine.Numeral.Written

/-! Why a machine cannot be built, or why its run failed. -/
namespace AccumulatorMachine

inductive MachineError
  | unsupportedWidth (bits : Nat)
  | programTooLarge (instructions bits : Nat)
  | missingDevice
  | invalidOpcode (code : UInt64)
  | invalidRegister (index : UInt64)
  | device (fault : DeviceFault)
  /-- An instruction whose operand cell would lie past the end of storage. -/
  | addressOverflow
  deriving DecidableEq, Repr

namespace MachineError

def diagnostic : MachineError → Diagnostic
  | unsupportedWidth bits => {
      message := s!"Word width of {bits} bits is not supported"
      code := some "machine::config"
      help := some "word width must be between 8 and 64 bits" }
  | programTooLarge instructions bits => {
      message :=
        s!"Program of {instructions} instructions does not fit in {bits}-bit addresses"
      code := some "machine::program_size"
      help := some "use a wider word, or split the program" }
  | missingDevice => {
      message := "No input device"
      code := some "machine::no_input"
      help := some "attach an input device before running programs that use `IN`" }
  | invalidOpcode code => {
      message := "Invalid instruction opcode: 0x" ++ Numeral.padded 16 2 code.toNat
      code := some "machine::invalid_opcode" }
  | invalidRegister index => {
      message := "Operand " ++ toString index.toNat ++ " does not name a register"
      code := some "machine::invalid_register"
      help := some "registers are numbered ACC=0, IX=1, CIR=2, MAR=3, MDR=4, PC=5" }
  | device fault => {
      message := "Device failed: " ++ fault.message
      code := some "machine::device" }
  | addressOverflow => { message := "Address out of range", code := some "machine::overflow" }

end MachineError

end AccumulatorMachine
