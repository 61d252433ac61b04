import AccumulatorMachine.Instruction.Opcode
import AccumulatorMachine.Text.Column

/-! The journal: what assembler and machine record about their work besides its results. -/
namespace AccumulatorMachine

inductive LogLevel
  | debug
  | trace
  | warn
  deriving DecidableEq, Repr

def LogLevel.name : LogLevel → String
  | debug => "DEBUG"
  | trace => "TRACE"
  | warn => "WARN"

inductive LogRecord
  /-- A mnemonic that names no operation was given the unknown code. -/
  | unknownMnemonic (line : Nat) (mnemonic : List Char)
  /-- An instruction was decoded and is about to act. -/
  | decoded (address : UInt64) (op : Opcode) (operand : UInt64)
  /-- A word was put out with no device to take it. -/
  | noOutputDevice (word : UInt64)
  /-- A run ended without an error. -/
  | finished (steps : Nat) (halted : Bool)
  deriving DecidableEq, Repr

namespace LogRecord

def level : LogRecord → LogLevel
  | unknownMnemonic .. => .debug
  | decoded .. => .trace
  | noOutputDevice .. => .warn
  | finished .. => .debug

def text : LogRecord → String
  | unknownMnemonic line mnemonic =>
    s!"line {line}: unknown mnemonic `" ++ String.ofList mnemonic ++ "`"
  | decoded address op operand =>
    Text.alignRight 6 (toString address.toNat) ++ ": " ++ op.mnemonic ++ " " ++
      toString operand.toNat ++ " (" ++ op.group.name ++ ")"
  | noOutputDevice word => "No output device: " ++ toString word.toNat
  | finished steps halted => s!"run finished after {steps} steps (halted: {halted})"

def line (r : LogRecord) : String :=
  r.level.name ++ " " ++ r.text

end LogRecord

end AccumulatorMachine
