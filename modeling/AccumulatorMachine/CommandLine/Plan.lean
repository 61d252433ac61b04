import AccumulatorMachine.Assembly
import AccumulatorMachine.CommandLine.Arguments
import AccumulatorMachine.CommandLine.Directory
import AccumulatorMachine.Machine.Execution
import AccumulatorMachine.Program.Image
import AccumulatorMachine.Settings
import AccumulatorMachine.Text.Utf8

/-! What a command does, step by step: the files it reads and writes, what it says, and
the program it runs. A plan only describes; it is carried out elsewhere. -/
namespace AccumulatorMachine.CommandLine

inductive Plan
  /-- Nothing is left to do; a failure is reported. -/
  | stop (failure : Option Diagnostic)
  | status (line : String) (rest : Plan)
  | print (text : String) (rest : Plan)
  | readFile (path : Path) (rest : Except FileError (List UInt8) → Plan)
  | writeFile (path : Path) (content : List UInt8) (rest : Except FileError Unit → Plan)
  /-- Devices are attached to the machine, and it runs. -/
  | runProgram (machine : Machine) (program : Program)
      (rest : Except MachineError RunSummary → Plan)

namespace Plan

def fail (d : Diagnostic) : Plan :=
  .stop (some d)

/-- A status line: what is done, in a column of its own, and to what. -/
def say (what toWhat : String) (rest : Plan) : Plan :=
  .status (Text.alignRight 12 what ++ " " ++ toWhat) rest

def sayTarget (what : String) (path : Path) (rest : Plan) : Plan :=
  say what ("target " ++ path.toString) rest

def assembleFile (path : Path) (rest : Program → Plan) : Plan :=
  .readFile path fun
    | .error e => fail e.diagnostic
    | .ok content =>
      match Text.Utf8.decode? content with
      | none => fail FileError.notText.diagnostic
      | some source =>
        match assemble source with
        | .error e => fail e.diagnostic
        | .ok program => rest program

/-- Goes on with the program of an image file and the settings for it. An image has a
width of its own, which no other setting changes. -/
def loadImage (path : Path) (settings : Settings) (rest : Program → Settings → Plan) : Plan :=
  .readFile path fun
    | .error e => fail e.diagnostic
    | .ok content =>
      match Image.decode content with
      | .error e => fail e.diagnostic
      | .ok image => rest image.program (settings.withBits image.width.bits)

/-- Runs a program, and goes on if the run ends well. -/
def runMachine (program : Program) (settings : Settings) (rest : Plan) : Plan :=
  match settings.machine { sink := .unlimited } with
  | .error e => fail e.diagnostic
  | .ok machine =>
    say "Running" "assembled program" <|
      .runProgram machine program fun
        | .error e => fail e.diagnostic
        | .ok summary =>
          if summary.halted then say "Halted" s!"after {summary.steps} steps" rest
          else say "Stopped" s!"end of program after {summary.steps} steps" rest

/-- Runs the file at a path. Its extension says whether it is source text or an image. -/
def runFile (path : Path) (settings : Settings) : Plan :=
  sayTarget "Assembling" path <|
    let completed := sayTarget "Completed" path (.stop none)
    match path.extension?.map String.ofList with
    | some "asm" => assembleFile path fun program => runMachine program settings completed
    | some "acc" =>
      loadImage path settings fun program settings => runMachine program settings completed
    | some _ => fail { message := "File has unknown extension. Exiting..." }
    | none => fail { message := "File has no extension. Exiting..." }

/-- Where an image goes if nothing else is said: beside its source. -/
def imagePath (path : Path) : Path :=
  path.withExtension "acc".toList

/-- Writes the image of a source file, with a listing if one is asked for. -/
def compileFile (path destination : Path) (bits : Nat) (list : Bool) : Plan :=
  sayTarget "Assembling" path <|
    assembleFile path fun program =>
      match Width.ofBits? bits with
      | none => fail (MachineError.unsupportedWidth bits).diagnostic
      | some width =>
        .writeFile destination (Image.encode ⟨width, program⟩) fun
          | .error e => fail e.diagnostic
          | .ok () =>
            let finished :=
              say "Finished" "emit binary" (sayTarget "Saved" destination (.stop none))
            if list then .print program.listing finished else finished

def checkFile (path : Path) : Plan :=
  sayTarget "Checking" path <|
    assembleFile path fun _ => say "Success" "no errors found!" (.stop none)

end Plan

def version : String := "0.1.0"

def greeting : String :=
  Text.ofLines [
    "",
    "~ accum v" ++ version ++ " ~",
    "",
    "Welcome to accum, an assembler and interpreter for a small accumulator",
    "instruction set (LDM, LDD, ADD, CMP, JPN, IN, OUT, END and friends).",
    "Please use `-h` or `--help` to access the usage instructions.",
    ""]

/-- The plan of a command. The switches of the command come before the environment. -/
def Command.plan (e : Environment) : Command → Plan
  | .run path bits verbose =>
    let settings := Settings.ofEnvironment e
    let settings := bits.elim settings settings.withBits
    Plan.runFile path (if verbose then settings.withVerbose true else settings)
  | .compile path destination bits list =>
    Plan.compileFile path (destination.getD (Plan.imagePath path))
      (bits.getD (Settings.ofEnvironment e).bits) list
  | .check path => Plan.checkFile path
  | .greet => .print greeting (.stop none)

end AccumulatorMachine.CommandLine
