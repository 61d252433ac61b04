import AccumulatorMachine.CommandLine.Plan
import AccumulatorMachine.Device.Console
import AccumulatorMachine.Device.LineReader

/-! Carrying out a plan in a directory, with the whole standard input known: what is
printed, what is said on the way, and the directory afterwards. -/
namespace AccumulatorMachine.CommandLine

/-- All that a command reads and changes. -/
structure World where
  directory : Directory := {}
  stdin : List UInt8 := []
  stdout : String := ""
  /-- Status lines, and the trace if there is one. -/
  status : String := ""

structure Outcome where
  exitCode : Nat
  world : World
  failure : Option Diagnostic := none

namespace World

def say (w : World) (text : String) : World :=
  { w with status := w.status ++ text }

def print (w : World) (text : String) : World :=
  { w with stdout := w.stdout ++ text }

def observe (w : World) (console : Console) (m : Machine) : World :=
  let shown := (m.output.map fun d => console.transcript d.calls.toList).getD ""
  let traced := (m.trace.map fun t => t.sink.text).getD ""
  (w.print shown).say traced

end World

namespace Plan

/-- Carries out a plan, following a run for so many stages; there is no outcome if the run
has not ended by then. -/
def perform (limit : Nat) : Plan → World → Option Outcome
  | .stop none, w => some { exitCode := 0, world := w }
  | .stop (some d), w => some { exitCode := 1, world := w, failure := some d }
  | .status line rest, w => rest.perform limit (w.say (line ++ "\n"))
  | .print text rest, w => rest.perform limit (w.print text)
  | .readFile path rest, w => (rest (w.directory.read path)).perform limit w
  | .writeFile path content rest, w =>
    match w.directory.write path content with
    | .error e => (rest (.error e)).perform limit w
    | .ok directory => (rest (.ok ())).perform limit { w with directory }
  | .runProgram machine program rest, w =>
    let console : Console := { width := machine.width }
    let ready := (machine.attachInput (LineReader.ofStream w.stdin)).attachOutput console.device
    let last := ready.execute limit program
    match last.result? with
    | none => none
    | some result => (rest result).perform limit (w.observe console last.machine)

end Plan

/-- The commands and switches in short, in words of this library's own. -/
def usage : String :=
  Text.ofLines [
    "Usage: accum [PATH]",
    "       accum run [-b BITS] [-v] NAME",
    "       accum compile [-b BITS] [-l] NAME [DEST]",
    "       accum check NAME",
    "",
    "  -b, --bits BITS  Word width of registers and memory cells",
    "  -v, --verbose    Dump memory and registers after every instruction",
    "  -l, --list       Print a listing of the assembled instructions",
    "  -h, --help       Print help",
    "  -V, --version    Print version"]

def versionLine : String :=
  Text.ofLines ["accum " ++ version]

/-- Carries out what arguments ask for. Arguments that do not follow the rules change nothing. -/
def perform (limit : Nat) (arguments : List String) (e : Environment) (w : World) :
    Option Outcome :=
  match Command.ofArguments arguments with
  | .ok command => (command.plan e).perform limit w
  | .error .help => some { exitCode := 0, world := w.print usage }
  | .error .version => some { exitCode := 0, world := w.print versionLine }
  | .error .misuse => some { exitCode := 2, world := w }

end AccumulatorMachine.CommandLine
