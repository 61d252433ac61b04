import AccumulatorMachine.CommandLine.Session
import AccumulatorMachine.Proofs.Program.Congruent

/-! What the parts of a plan do when it is carried out: assembling a file, and running a
program. What a run shows hangs on nothing of the world but its input. -/
namespace AccumulatorMachine.CommandLine

def assembled (d : Directory) (path : Path) : Except Diagnostic Program :=
  match d.read path with
  | .error e => .error e.diagnostic
  | .ok content =>
    match Text.Utf8.decode? content with
    | none => .error FileError.notText.diagnostic
    | some source => (assemble source).mapError AssemblyError.diagnostic

/-- A program of a source file and the width to run it at. A source that does not assemble
is refused before its width is. -/
def prepared (d : Directory) (path : Path) (bits : Nat) : Except Diagnostic (Program × Width) :=
  match assembled d path with
  | .error failure => .error failure
  | .ok program =>
    match Width.ofBits? bits with
    | none => .error (MachineError.unsupportedWidth bits).diagnostic
    | some width => .ok (program, width)

/-- What a run shows, what is said meanwhile, and how it fails. -/
structure Report where
  shown : String
  said : String
  failure : Option Diagnostic

def statusLine (what toWhat : String) : String :=
  Text.alignRight 12 what ++ " " ++ toWhat ++ "\n"

def targetLine (what : String) (path : Path) : String :=
  statusLine what ("target " ++ path.toString)

namespace Report

def ending (summary : RunSummary) : String :=
  if summary.halted then statusLine "Halted" s!"after {summary.steps} steps"
  else statusLine "Stopped" s!"end of program after {summary.steps} steps"

/-- The report on a run of a program, if it ends within so many stages. -/
def ofRun (limit : Nat) (machine : Machine) (program : Program) (stdin : List UInt8) :
    Option Report :=
  let console : Console := { width := machine.width }
  let ready := (machine.attachInput (LineReader.ofStream stdin)).attachOutput console.device
  let last := ready.execute limit program
  last.result?.map fun result => {
    shown := (last.machine.output.map fun d => console.transcript d.calls.toList).getD ""
    said := statusLine "Running" "assembled program" ++
      (last.machine.trace.map fun t => t.sink.text).getD "" ++
      match result with
      | .error _ => ""
      | .ok summary => ending summary
    failure :=
      match result with
      | .error e => some e.diagnostic
      | .ok _ => none }

def closing (r : Report) (target : Path) : String :=
  if r.failure.isSome then "" else targetLine "Completed" target

def outcome (r : Report) (target : Path) (w : World) : Outcome where
  exitCode := if r.failure.isSome then 1 else 0
  world := { w with
    stdout := w.stdout ++ r.shown
    status := w.status ++ r.said ++ r.closing target }
  failure := r.failure

theorem ofRun_congr {m : Machine} {p q : Program} (same : p.Congruent m.width q) (limit : Nat)
    (stdin : List UInt8) : ofRun limit m p stdin = ofRun limit m q stdin := by
  let console : Console := { width := m.width }
  have executed := Machine.execute_congr
    (m := (m.attachInput (LineReader.ofStream stdin)).attachOutput console.device) same limit
  simp only [ofRun, console, executed]

end Report

namespace Plan

variable {limit : Nat} {w : World}

theorem perform_say (what toWhat : String) (rest : Plan) :
    (say what toWhat rest).perform limit w = rest.perform limit (w.say (statusLine what toWhat)) :=
  rfl

theorem perform_sayTarget (what : String) (path : Path) (rest : Plan) :
    (sayTarget what path rest).perform limit w =
      rest.perform limit (w.say (targetLine what path)) :=
  rfl

theorem perform_assembleFile (path : Path) (rest : Program → Plan) :
    (assembleFile path rest).perform limit w =
      match assembled w.directory path with
      | .error failure => some { exitCode := 1, world := w, failure := some failure }
      | .ok program => (rest program).perform limit w := by
  rw [assembleFile, perform, assembled]
  cases w.directory.read path with
  | error e => rfl
  | ok content =>
    cases decoded : Text.Utf8.decode? content with
    | none =>
      simp only [decoded]
      rfl
    | some source =>
      simp only [decoded]
      cases assemble source <;> rfl

theorem perform_ending (summary : RunSummary) (rest : Plan) :
    (if summary.halted then say "Halted" s!"after {summary.steps} steps" rest
      else say "Stopped" s!"end of program after {summary.steps} steps" rest).perform limit w =
      rest.perform limit (w.say (Report.ending summary)) := by
  rw [Report.ending]
  split
  · exact perform_say ..
  · exact perform_say ..

theorem perform_runMachine {program : Program} {s : Settings} {machine : Machine}
    (made : s.machine { sink := .unlimited } = .ok machine) (target : Path) :
    (runMachine program s (sayTarget "Completed" target (.stop none))).perform limit w =
      (Report.ofRun limit machine program w.stdin).map fun r => r.outcome target w := by
  have input : (w.say (statusLine "Running" "assembled program")).stdin = w.stdin := rfl
  simp only [runMachine, made, perform_say, perform, input, Report.ofRun]
  generalize Machine.execute limit _ program = last
  cases last.result? with
  | none => rfl
  | some result =>
    cases result with
    | error e =>
      simp only [fail, perform, Report.outcome, Report.closing, World.observe, World.say,
        World.print, Option.map_some, Option.isSome_some, if_true, String.append_assoc,
        String.append_empty]
    | ok summary =>
      simp only [perform_ending, perform_sayTarget, perform]
      simp only [Report.outcome, Report.closing, World.observe, World.say, World.print,
        Option.map_some, Option.isSome_none, Bool.false_eq_true, if_false, String.append_assoc]

end Plan

/-- Arguments that follow the rules carry out the plan of their command. -/
theorem perform_eq {arguments : List String} {command : Command}
    (known : Command.ofArguments arguments = .ok command) (limit : Nat) (e : Environment)
    (w : World) : perform limit arguments e w = (command.plan e).perform limit w := by
  rw [perform, known]

end AccumulatorMachine.CommandLine
