import AccumulatorMachine.Assembly
import AccumulatorMachine.CommandLine.Arguments
import AccumulatorMachine.CommandLine.Directory
import AccumulatorMachine.CommandLine.Path
import AccumulatorMachine.CommandLine.Plan
import AccumulatorMachine.CommandLine.Session
import AccumulatorMachine.Device.Console
import AccumulatorMachine.Device.Fault
import AccumulatorMachine.Device.Input
import AccumulatorMachine.Device.LineReader
import AccumulatorMachine.Device.Output
import AccumulatorMachine.Diagnostic
import AccumulatorMachine.Instruction.Basic
import AccumulatorMachine.Instruction.Opcode
import AccumulatorMachine.Instruction.Register
import AccumulatorMachine.Journal
import AccumulatorMachine.Machine.Basic
import AccumulatorMachine.Machine.Error
import AccumulatorMachine.Machine.Execution
import AccumulatorMachine.Machine.Flags
import AccumulatorMachine.Machine.Memory
import AccumulatorMachine.Machine.Registers
import AccumulatorMachine.Machine.StateDump
import AccumulatorMachine.Machine.Step
import AccumulatorMachine.Numeral.Read
import AccumulatorMachine.Numeral.Written
import AccumulatorMachine.Program.Basic
import AccumulatorMachine.Program.Image
import AccumulatorMachine.Settings
import AccumulatorMachine.Source.LabelTable
import AccumulatorMachine.Source.Line
import AccumulatorMachine.Source.Operand
import AccumulatorMachine.Source.Statement
import AccumulatorMachine.Source.Token
import AccumulatorMachine.Text.Blank
import AccumulatorMachine.Text.Column
import AccumulatorMachine.Text.Extent
import AccumulatorMachine.Text.Quoted
import AccumulatorMachine.Text.Segment
import AccumulatorMachine.Text.Sink
import AccumulatorMachine.Text.Style
import AccumulatorMachine.Text.Utf8
import AccumulatorMachine.Word.BigEndian
import AccumulatorMachine.Word.Width
import AccumulatorMachine.Main
import AccumulatorMachine.Proofs.Machine.Transition
import AccumulatorMachine.Proofs.Machine.Stable
import AccumulatorMachine.Proofs.Machine.Stores
import AccumulatorMachine.Proofs.Machine.History
import AccumulatorMachine.Proofs.Ideal.Basic
import AccumulatorMachine.Proofs.Ideal.Refinement
import AccumulatorMachine.Proofs.Numeral.Denotes
import AccumulatorMachine.Proofs.Source.Operand
import AccumulatorMachine.Proofs.Source.LabelTable
import AccumulatorMachine.Proofs.Source.Line
import AccumulatorMachine.Proofs.Source.Mnemonic
import AccumulatorMachine.Proofs.Assembly.Meaning
import AccumulatorMachine.Proofs.Program.Congruent
import AccumulatorMachine.Proofs.Program.Image
import AccumulatorMachine.Proofs.CommandLine.Directory
import AccumulatorMachine.Proofs.CommandLine.Performing
import AccumulatorMachine.Proofs.CommandLine.CompiledRun
import AccumulatorMachine.Proofs.Numeral.Written
import AccumulatorMachine.Proofs.Machine.DeviceCalls
import AccumulatorMachine.Proofs.Machine.Failure
import AccumulatorMachine.Proofs.Assembly.Writing
import AccumulatorMachine.Proofs.Program.ImageFormat
import AccumulatorMachine.Proofs.Assembly.LabelJump
import AccumulatorMachine.Proofs.Machine.Tracing
import AccumulatorMachine.Proofs.Machine.Bounds
import AccumulatorMachine.Proofs.Assembly.Diagnosis
import AccumulatorMachine.Proofs.Assembly.Relocation
import AccumulatorMachine.Proofs.Machine.Fetches
import AccumulatorMachine.Proofs.Machine.Forward
import AccumulatorMachine.Proofs.Machine.Unread
import AccumulatorMachine.Proofs.Program.Residues
import AccumulatorMachine.Proofs.CommandLine.Extension
import AccumulatorMachine.Proofs.CommandLine.Effects
import AccumulatorMachine.Proofs.Machine.Destination
import AccumulatorMachine.Proofs.Machine.Frame
import AccumulatorMachine.Proofs.Source.Plain
import AccumulatorMachine.Proofs.Source.Grammar
import AccumulatorMachine.Proofs.Device.LineStream
import AccumulatorMachine.Proofs.Machine.Stage
import AccumulatorMachine.Proofs.Assembly.Spelling
import AccumulatorMachine.Proofs.Machine.Echo
import AccumulatorMachine.Proofs.Device.ConsoleText
import AccumulatorMachine.Proofs.Machine.Adding
import AccumulatorMachine.Proofs.Machine.Countdown
import AccumulatorMachine.Proofs.Assembly.Countdown
import AccumulatorMachine.Proofs.Machine.Chronicle
import AccumulatorMachine.Proofs.CommandLine.Overwriting
import AccumulatorMachine.Proofs.Text.Lines
import AccumulatorMachine.Proofs.Program.Listing
import AccumulatorMachine.Proofs.Machine.StateDump
import AccumulatorMachine.Proofs.Source.Cursor
import AccumulatorMachine.Proofs.Source.LabelHistory
