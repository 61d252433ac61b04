import AccumulatorMachine.Journal
import AccumulatorMachine.Program.Basic
import AccumulatorMachine.Source.Statement

/-! From source text to a program. An assembly holds the statements of a source and the
table of its labels; linking turns each statement into one instruction, with the address
of the instruction that a label marks in place of the label. -/
namespace AccumulatorMachine

open Source (LabelTable Operand Statement)

inductive AssemblyError
  | unresolvedLabel (name : List Char) (line : Nat) (span : Span)
  | invalidOperand (text : List Char) (line : Nat) (span : Span)
  /-- A label marks an instruction whose address does not fit in storage. -/
  | addressOverflow
  deriving DecidableEq, Repr

namespace AssemblyError

def diagnostic : AssemblyError → Diagnostic
  | unresolvedLabel name line span => {
      message := "Label `" ++ String.ofList name ++ s!"` not found (line {line})"
      code := some "link::label_not_found"
      help := some
        "labels are declared as `name:` at the start of a line, using letters only"
      labels := [⟨"undeclared label", span⟩] }
  | invalidOperand text line span => {
      message := "Invalid operand `" ++ String.ofList text ++ s!"` (line {line})"
      code := some "link::invalid_operand"
      help := some
        "operands are `#<decimal>`, `&<hex>`, `B<binary>`, a register name, or a label"
      labels := [⟨"malformed literal", span⟩] }
  | addressOverflow => { message := "Label address out of range", code := some "link::overflow" }

end AssemblyError

namespace Source.Statement

def linkedOperand (labels : LabelTable) (s : Statement) : Except AssemblyError UInt64 :=
  match s.operand with
  | .value number => .ok number
  | .label name =>
    match labels.get? name with
    | none => .error (.unresolvedLabel name s.line s.span)
    | some index =>
      if index * cellsPerInstruction < UInt64.size then
        .ok (UInt64.ofNat (index * cellsPerInstruction))
      else .error .addressOverflow
  | .malformed text => .error (.invalidOperand text s.line s.span)

/-- The code that the mnemonic of a statement stands for. A label alone on its line
marks an instruction without effect. -/
def linkedOpcode (s : Statement) : UInt8 :=
  if s.mnemonic.isEmpty then Opcode.pass.code else Opcode.encode s.mnemonic

def link (labels : LabelTable) (s : Statement) : Except AssemblyError Instruction :=
  (s.linkedOperand labels).map fun operand => ⟨s.linkedOpcode, operand⟩

end Source.Statement

structure Assembly where
  labels : LabelTable
  statements : List Statement
  deriving DecidableEq, Repr

namespace Assembly

def ofSource (source : List Char) : Assembly :=
  let lines := Source.lines source
  ⟨.ofLines lines, lines.map .ofLine⟩

/-- The program of an assembly, or the error of the first statement that has one. -/
def link (a : Assembly) : Except AssemblyError Program :=
  a.statements.mapM (·.link a.labels)

/-- What linking records: the unknown mnemonics of the statements before the first error. -/
def journal (a : Assembly) : List LogRecord :=
  let linked := a.statements.takeWhile fun s => (s.link a.labels).isOk
  (linked.filter fun s => s.linkedOpcode == Opcode.unknownCode).map fun s =>
    .unknownMnemonic s.line s.mnemonic

end Assembly

def assemble (source : List Char) : Except AssemblyError Program :=
  (Assembly.ofSource source).link

end AccumulatorMachine
