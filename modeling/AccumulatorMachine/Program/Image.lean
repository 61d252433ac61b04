import AccumulatorMachine.Diagnostic
import AccumulatorMachine.Program.Basic
import AccumulatorMachine.Word.BigEndian
import AccumulatorMachine.Word.Width

/-! The binary form of a program: a byte for the word width, then a record for each
instruction, its code and its operand narrowed to the width, most significant byte first. -/
namespace AccumulatorMachine

/-- A program together with the width it is to run at. -/
structure Image where
  width : Width
  program : Program
  deriving DecidableEq, Repr

inductive ImageError
  | empty
  | unsupportedWidth (bits : Nat)
  | truncated (trailing : Nat)
  deriving DecidableEq, Repr

namespace ImageError

def diagnostic : ImageError → Diagnostic
  | empty => { message := "Program image is empty", code := some "image::empty" }
  | unsupportedWidth bits => {
      message := s!"Program image declares an unsupported word width of {bits} bits"
      code := some "image::width"
      help := some "images must be produced by `accum compile`" }
  | truncated trailing => {
      message :=
        s!"Program image is truncated: {trailing} trailing bytes do not form an instruction"
      code := some "image::truncated" }

end ImageError

namespace Image

def encodeInstruction (w : Width) (i : Instruction) : List UInt8 :=
  i.opcode :: BigEndian.encode w.bytes (w.truncate i.operand.toNat).toNat

def encode (image : Image) : List UInt8 :=
  UInt8.ofNat image.width.bits :: image.program.flatMap (encodeInstruction image.width)

/-- The instructions in a row of records, each with `operandBytes` bytes after its code.
The bits of an operand above the width are kept. -/
def decodeRecords (operandBytes : Nat) : List UInt8 → Program
  | [] => []
  | code :: rest =>
    ⟨code, UInt64.ofNat (BigEndian.decode (rest.take operandBytes))⟩ ::
      decodeRecords operandBytes (rest.drop operandBytes)
  termination_by records => records.length

/-- An image is refused for its width before it is refused for its length. -/
def decode : List UInt8 → Except ImageError Image
  | [] => .error .empty
  | bits :: records =>
    match Width.ofBits? bits.toNat with
    | none => .error (.unsupportedWidth bits.toNat)
    | some width =>
      let trailing := records.length % (1 + width.bytes)
      if trailing = 0 then .ok ⟨width, decodeRecords width.bytes records⟩
      else .error (.truncated trailing)

end Image

end AccumulatorMachine
