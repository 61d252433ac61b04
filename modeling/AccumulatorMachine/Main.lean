import AccumulatorMachine.CommandLine.Session

/-! The program. Plans are carried out on the files and streams of the process; a run is
followed stage by stage, so that its output appears and its input is read as it goes. -/
namespace AccumulatorMachine.CommandLine

/-- The code that comes with an error of the file system, and what it says. Some calls give the code
with its sign turned and the text in small letters. -/
def systemError? : IO.Error → Option (UInt32 × String)
  | .noFileOrDirectory _ code text => some (code, text)
  | .inappropriateType _ code text => some (code, text)
  | .invalidArgument _ code text => some (code, text)
  | .permissionDenied _ code text => some (code, text)
  | .resourceExhausted _ code text => some (code, text)
  | .resourceBusy code text => some (code, text)
  | .otherError code text => some (code, text)
  | _ => none

def systemNumber (code : UInt32) : Nat :=
  code.toInt32.toInt.natAbs

def fileError (e : IO.Error) : FileError :=
  match systemError? e with
  | none => .refused (toString e)
  | some (code, text) =>
    match systemNumber code with
    | 2 => .notFound
    | 20 => .notDirectory
    | 21 => .isDirectory
    | 36 => .nameTooLong
    | n => .refused (text.capitalize ++ " (os error " ++ toString n ++ ")")

structure Streams where
  stdin : IO.FS.Stream
  stdout : IO.FS.Stream
  stderr : IO.FS.Stream

namespace Streams

def print (s : Streams) (text : String) : IO Unit := do
  s.stdout.putStr text
  s.stdout.flush

def say (s : Streams) (text : String) : IO Unit := do
  s.stderr.putStr text
  s.stderr.flush

/-- The bytes up to the next newline, or to the end of the input. -/
partial def readLine (s : Streams) (line : Array UInt8) : IO (List UInt8) := do
  match (← s.stdin.read 1).data[0]? with
  | none => return line.toList
  | some byte =>
    if byte = 0x0A then return (line.push byte).toList
    else s.readLine (line.push byte)

end Streams

def awaitsInput (m : Machine) : Bool :=
  match m.fetch? (m.register .pc) with
  | some (cell, _) => Machine.decode? cell == some .input
  | none => false

/-- A machine with its devices as new, and nothing recorded. -/
def refreshed (console : Console) (m : Machine) : Machine :=
  { m with
    output := some console.device
    trace := m.trace.map fun t => { t with sink := .unlimited }
    journal := #[] }

/-- Shows what a machine put out in one stage: the instruction first, its effect last. -/
def emit (s : Streams) (console : Console) (m : Machine) : IO Unit := do
  let pieces := (m.trace.map fun t => t.sink.pieces.toList).getD []
  s.say (String.join (pieces.take 1))
  s.print ((m.output.map fun d => console.transcript d.calls.toList).getD "")
  s.say (String.join (pieces.drop 1))

partial def follow (s : Streams) (console : Console) (stop : Nat) :
    Execution → IO (Except MachineError RunSummary)
  | .finished _ result => return result
  | .running m steps => do
    let m := refreshed console m
    let m ← if awaitsInput m then
        let line ← s.readLine #[]
        pure (m.attachInput { answer := fun _ => LineReader.word line })
      else pure m
    let next := Execution.next stop (.running m steps)
    emit s console next.machine
    follow s console stop next

/-- Reports a failure with its code and its advice. -/
def report (s : Streams) (d : Diagnostic) : IO Unit := do
  s.say (Text.ofLines (["Error: " ++ d.message] ++
    (d.code.map ("  code: " ++ ·)).toList ++ (d.help.map ("  help: " ++ ·)).toList))

def carryOut (s : Streams) : Plan → IO UInt32
  | .stop none => return 0
  | .stop (some d) => do
    report s d
    return 1
  | .status line rest => do
    s.say (line ++ "\n")
    carryOut s rest
  | .print text rest => do
    s.print text
    carryOut s rest
  | .readFile path rest => do
    let content ← (IO.FS.readBinFile path.toString).toBaseIO
    carryOut s (rest ((content.mapError fileError).map ByteArray.toList))
  | .writeFile path content rest => do
    let done ← (IO.FS.writeBinFile path.toString ⟨content.toArray⟩).toBaseIO
    carryOut s (rest (done.mapError fileError))
  | .runProgram machine program rest => do
    let console : Console := { width := machine.width }
    carryOut s (rest (← follow s console program.cellCount (machine.start program)))

def environment : IO Environment := do
  return { bits := ← IO.getEnv "ACCUM_BITS", verbose := ← IO.getEnv "ACCUM_VERBOSE" }

end AccumulatorMachine.CommandLine

open AccumulatorMachine.CommandLine in
def main (arguments : List String) : IO UInt32 := do
  let s : Streams := ⟨← IO.getStdin, ← IO.getStdout, ← IO.getStderr⟩
  match Command.ofArguments arguments with
  | .ok command => carryOut s (command.plan (← environment))
  | .error .help => do
    s.print usage
    return 0
  | .error .version => do
    s.print versionLine
    return 0
  | .error .misuse => do
    s.say usage
    return 2
