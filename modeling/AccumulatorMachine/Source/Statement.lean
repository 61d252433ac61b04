import AccumulatorMachine.Diagnostic
import AccumulatorMachine.Source.LabelTable
import AccumulatorMachine.Source.Operand

/-! Statements: what a line says, with its label set apart, its mnemonic spelled out and
its operand classified. -/
namespace AccumulatorMachine.Source

structure Statement where
  label : Option (List Char)
  /-- Empty on a line with a label alone. -/
  mnemonic : List Char
  operand : Operand
  line : Nat
  /-- The place of its operand. -/
  span : Span
  deriving DecidableEq, Repr

/-- Mnemonics that stand for two operations each, told apart by the operand. -/
def shortMnemonics : List String :=
  ["ADD", "SUB", "CMP"]

/-- A short mnemonic spelled out: with a literal it works on the number itself, with
anything else on the cell at an address. Any other mnemonic is left as it is. -/
def fullMnemonic (mnemonic operand : List Char) : List Char :=
  let capitals := mnemonic.map Char.toUpper
  if shortMnemonics.any (·.toList == capitals) then
    capitals ++ (if (LiteralKind.of? operand).isSome then "_IMMEDIATE" else "_ADDRESS").toList
  else mnemonic

namespace Statement

def ofFields (label : Option (List Char)) (mnemonic operand : Field) (line : Nat) : Statement where
  label
  mnemonic := fullMnemonic mnemonic.text operand.text
  operand := .ofToken operand.text
  line
  span := ⟨operand.offset, Text.byteLength operand.text⟩

/-- The statement on a line. A declaration moves mnemonic and operand one field on. -/
def ofLine (line : Line) : Statement :=
  match declaredLabel? line.first.text with
  | some name => ofFields (some name) line.second line.third line.number
  | none => ofFields none line.first line.second line.number

end Statement

end AccumulatorMachine.Source
