import AccumulatorMachine.Proofs.CommandLine.Directory
import AccumulatorMachine.Proofs.CommandLine.Performing
import AccumulatorMachine.Proofs.Program.Image

/-! Compiling a source and running its image is running the source. The image has the width
in it and narrow operands; the source comes with a width and with operands of 64 bits. -/
namespace AccumulatorMachine.CommandLine

/-- The status lines of a run that names its file, before and, if it ends well, after. -/
def framed (target : Path) (body : String) (failure : Option Diagnostic) : String :=
  targetLine "Assembling" target ++ body ++
    if failure.isSome then "" else targetLine "Completed" target

/-- Two runs that cannot be told apart but for the files that they name. -/
structure SameRun (w : World) (x y : Path) (ran again : Outcome) : Prop where
  exitCode : again.exitCode = ran.exitCode
  stdout : again.world.stdout = ran.world.stdout
  failure : again.failure = ran.failure
  status : ∃ body, ran.world.status = w.status ++ framed x body ran.failure ∧
    again.world.status = w.status ++ framed y body ran.failure

/-- A run and a compilation that fail alike, and write nothing. -/
structure SameRefusal (w : World) (failure : Diagnostic) (ran compiled : Outcome) : Prop where
  runFails : ran.exitCode = 1 ∧ ran.failure = some failure
  compilationFails : compiled.exitCode = 1 ∧ compiled.failure = some failure
  nothingWritten : ran.world.directory = w.directory ∧ compiled.world.directory = w.directory

theorem plan_run (e : Environment) (path : Path) (bits : Option Nat) (verbose : Bool) :
    (Command.run path bits verbose).plan e = Plan.runFile path
      { bits := bits.getD (Settings.ofEnvironment e).bits
        verbose := verbose || e.verbose == some "1" } := by
  cases bits <;> cases verbose <;> rfl

namespace Plan

variable {limit : Nat} {w : World}

def fresh (width : Width) (verbose : Bool) : Machine :=
  { width, trace := if verbose then some { sink := .unlimited } else none }

theorem machine_eq_fresh {s : Settings} {width : Width}
    (known : Width.ofBits? s.bits = some width) :
    s.machine { sink := .unlimited } = .ok (fresh width s.verbose) := by
  rw [Settings.machine, known]
  rfl

theorem perform_runFile_source {x : Path} (source : x.extension? = some "asm".toList)
    (s : Settings) :
    (runFile x s).perform limit w =
      match prepared w.directory x s.bits with
      | .error failure => some {
          exitCode := 1
          world := w.say (targetLine "Assembling" x)
          failure := some failure }
      | .ok (program, width) =>
        (Report.ofRun limit (fresh width s.verbose) program w.stdin).map fun r =>
          r.outcome x (w.say (targetLine "Assembling" x)) := by
  have extension : x.extension?.map String.ofList = some "asm" := by rw [source]; rfl
  simp only [runFile, extension, perform_sayTarget, perform_assembleFile, prepared]
  have same : (w.say (targetLine "Assembling" x)).directory = w.directory := rfl
  rw [same]
  cases assembled w.directory x with
  | error failure => rfl
  | ok program =>
    cases known : Width.ofBits? s.bits with
    | none =>
      have refused : s.machine { sink := .unlimited } = .error (.unsupportedWidth s.bits) := by
        rw [Settings.machine, known]
      simp only [runMachine, refused]
      rfl
    | some width => exact perform_runMachine (machine_eq_fresh known) x

theorem perform_runFile_image {y : Path} (isImage : y.extension? = some "acc".toList)
    {content : List UInt8} {image : Image} (read : w.directory.read y = .ok content)
    (decoded : Image.decode content = .ok image) (s : Settings) :
    (runFile y s).perform limit w =
      (Report.ofRun limit (fresh image.width s.verbose) image.program w.stdin).map fun r =>
        r.outcome y (w.say (targetLine "Assembling" y)) := by
  have extension : y.extension?.map String.ofList = some "acc" := by rw [isImage]; rfl
  have same : (w.say (targetLine "Assembling" y)).directory = w.directory := rfl
  simp only [runFile, extension, perform_sayTarget, loadImage, perform, same, read, decoded]
  exact perform_runMachine (s := s.withBits image.width.bits)
    (machine_eq_fresh (Width.ofBits?_bits image.width)) y

theorem perform_compileFile_error {x : Path} {bits : Nat} {failure : Diagnostic}
    (refused : prepared w.directory x bits = .error failure) (y : Path) (list : Bool) :
    (compileFile x y bits list).perform limit w = some {
      exitCode := 1
      world := w.say (targetLine "Assembling" x)
      failure := some failure } := by
  have same : (w.say (targetLine "Assembling" x)).directory = w.directory := rfl
  rw [compileFile, perform_sayTarget, perform_assembleFile, same]
  rw [prepared] at refused
  cases result : assembled w.directory x with
  | error e =>
    rw [result] at refused
    obtain rfl := Except.error.inj refused
    rfl
  | ok program =>
    rw [result] at refused
    cases known : Width.ofBits? bits with
    | none =>
      simp only [known] at refused
      obtain rfl := Except.error.inj refused
      rfl
    | some width => simp only [known, reduceCtorEq] at refused

theorem perform_compileFile_ok (limit : Nat) {x y : Path} {bits : Nat} {program : Program}
    {width : Width} {d : Directory}
    (ready : prepared w.directory x bits = .ok (program, width))
    (written : w.directory.write y (Image.encode ⟨width, program⟩) = .ok d) (list : Bool) :
    ∃ compiled, (compileFile x y bits list).perform limit w = some compiled ∧
      compiled.exitCode = 0 ∧ compiled.world.directory = d := by
  have same : (w.say (targetLine "Assembling" x)).directory = w.directory := rfl
  rw [compileFile, perform_sayTarget, perform_assembleFile, same]
  rw [prepared] at ready
  cases result : assembled w.directory x with
  | error e =>
    rw [result] at ready
    contradiction
  | ok source =>
    rw [result] at ready
    cases known : Width.ofBits? bits with
    | none => simp only [known, reduceCtorEq] at ready
    | some width' =>
      simp only [known, Except.ok.injEq, Prod.mk.injEq] at ready
      obtain ⟨rfl, rfl⟩ := ready
      simp only [perform, same, written]
      cases list <;> exact ⟨_, rfl, rfl, rfl⟩

end Plan

/-- For every source, word width and input with which a run ends: where the source does not
come to a program and a width, compiling it is refused for the same reason; else the image
is written, and running it is the same run, whatever widths are asked for besides. -/
theorem compile_then_run {run compile rerun : List String} {x y : Path} {bits : Nat}
    {other : Option Nat} {verbose verbose' list : Bool}
    (runs : Command.ofArguments run = .ok (.run x (some bits) verbose))
    (compiles : Command.ofArguments compile = .ok (.compile x (some y) (some bits) list))
    (reruns : Command.ofArguments rerun = .ok (.run y other verbose'))
    (source : x.extension? = some "asm".toList) (isImage : y.extension? = some "acc".toList)
    (e e' e'' : Environment)
    (traced : (verbose || e.verbose == some "1") = (verbose' || e''.verbose == some "1"))
    {w : World} (writable : ∃ d, w.directory.write y [] = .ok d) {limit : Nat} {ran : Outcome}
    (ended : perform limit run e w = some ran) :
    (∀ failure, prepared w.directory x bits = .error failure →
      ∃ compiled, perform limit compile e' w = some compiled ∧
        SameRefusal w failure ran compiled) ∧
    (∀ ready, prepared w.directory x bits = .ok ready →
      ∃ compiled again, perform limit compile e' w = some compiled ∧ compiled.exitCode = 0 ∧
        perform limit rerun e'' { w with directory := compiled.world.directory } = some again ∧
        SameRun w x y ran again) := by
  let console : Settings := { bits, verbose := verbose || e.verbose == some "1" }
  have performed : perform limit run e w = (Plan.runFile x console).perform limit w := by
    rw [perform_eq runs, plan_run]
    rfl
  have compilation : perform limit compile e' w =
      (Plan.compileFile x y bits list).perform limit w := perform_eq compiles limit e' w
  rw [performed, Plan.perform_runFile_source source] at ended
  constructor
  · intro failure refused
    simp only [console, refused] at ended
    obtain rfl := Option.some.inj ended
    refine ⟨_, compilation.trans (Plan.perform_compileFile_error refused y list), ?_⟩
    exact ⟨⟨rfl, rfl⟩, ⟨rfl, rfl⟩, ⟨rfl, rfl⟩⟩
  · rintro ⟨program, width⟩ ready
    simp only [console, ready] at ended
    obtain ⟨r, report, rfl⟩ := Option.map_eq_some_iff.mp ended
    obtain ⟨d, written⟩ : ∃ d, w.directory.write y (Image.encode ⟨width, program⟩) = .ok d :=
      Directory.exists_write_iff.mpr (Directory.exists_write_iff.mp writable)
    obtain ⟨compiled, compilationEnds, succeeds, rfl⟩ :=
      Plan.perform_compileFile_ok limit ready written list
    obtain ⟨_, changes⟩ := Directory.changes_of_write written
    have reported : Report.ofRun limit (Plan.fresh width (verbose' || e''.verbose == some "1"))
        (program.narrow width) w.stdin = some r := by
      rw [← report, ← traced]
      exact (Report.ofRun_congr (program.congruent_narrow width) limit w.stdin).symm
    have rerun : perform limit rerun e'' { w with directory := compiled.world.directory } =
        some (r.outcome y (World.say { w with directory := compiled.world.directory }
          (targetLine "Assembling" y))) := by
      rw [perform_eq reruns, plan_run]
      refine (Plan.perform_runFile_image (w := { w with directory := compiled.world.directory })
        isImage changes.read (Image.decode_encode _) _).trans ?_
      rw [reported]
      rfl
    refine ⟨compiled, _, compilation.trans compilationEnds, succeeds, rerun, rfl, rfl, rfl,
      r.said, ?_, ?_⟩
    · simp only [Report.outcome, World.say, framed, Report.closing, String.append_assoc]
    · simp only [Report.outcome, World.say, framed, Report.closing, String.append_assoc]

/-- A tree with a source two directories below the one to work in, where nothing can be added. -/
def Directory.sample : Directory where
  entries := [
    (.down .root ["work", "tests"], .directory .full),
    (.down .root ["work", "tests", "files"],
      .directory (.readOnly "Permission denied (os error 13)")),
    (.down .root ["work", "tests", "files", "wide.asm"],
      .file .full (Text.Utf8.encode "LDM #300\nOUT".toList)),
    (.down .root ["tmp"], .directory .full)]
  here := .down .root ["work"]

/-- In 8 bits the number 300 is 44. The image goes to another part of the tree than the source, and
is run where another width is asked for, which no machine has. -/
theorem compile_then_run_of_wide_number :
    let w : World := { directory := .sample }
    ∃ ran compiled again, perform 3 ["run", "-b8", "tests/files/wide.asm"] {} w = some ran ∧
      perform 3 ["compile", "tests/files/wide.asm", "/tmp/wide.acc", "--bits", "8"] {} w =
        some compiled ∧
      compiled.exitCode = 0 ∧
      perform 3 ["run", "-b", "70", "/tmp/wide.acc"] { bits := some "3" }
        { w with directory := compiled.world.directory } = some again ∧
      SameRun w ⟨"tests/files/wide.asm".toList⟩ ⟨"/tmp/wide.acc".toList⟩ ran again := by
  have ready : prepared .sample ⟨"tests/files/wide.asm".toList⟩ 8 =
      .ok ([⟨0x00, 300⟩, ⟨0x11, 0⟩], ⟨8, by decide, by decide⟩) := by decide +kernel
  have reported : (Report.ofRun 3 (Plan.fresh ⟨8, by decide, by decide⟩ false)
      [⟨0x00, 300⟩, ⟨0x11, 0⟩] []).isSome = true := rfl
  intro w
  let source : Path := ⟨"tests/files/wide.asm".toList⟩
  let image : Path := ⟨"/tmp/wide.acc".toList⟩
  have runs : Command.ofArguments ["run", "-b8", "tests/files/wide.asm"] =
      .ok (.run source (some 8) false) := rfl
  have compiles :
      Command.ofArguments ["compile", "tests/files/wide.asm", "/tmp/wide.acc", "--bits", "8"] =
        .ok (.compile source (some image) (some 8) false) := rfl
  have reruns : Command.ofArguments ["run", "-b", "70", "/tmp/wide.acc"] =
      .ok (.run image (some 70) false) := rfl
  have isSource : source.extension? = some "asm".toList := rfl
  have isImage : image.extension? = some "acc".toList := rfl
  have leads : Directory.sample.target image = .ok (.down .root ["tmp", "wide.acc"]) := rfl
  obtain ⟨r, report⟩ := Option.isSome_iff_exists.mp reported
  have ended : perform 3 ["run", "-b8", "tests/files/wide.asm"] {} w =
      some (r.outcome source (w.say (targetLine "Assembling" source))) := by
    have prepares : prepared w.directory source 8 = _ := ready
    rw [perform_eq runs, plan_run, Plan.perform_runFile_source isSource]
    simp only [Option.getD_some, prepares]
    exact congrArg (Option.map _) report
  have writable : ∃ d, w.directory.write image [] = .ok d :=
    Directory.exists_write_iff.mpr ⟨_, leads⟩
  obtain ⟨compiled, again, compilation, succeeds, rerun, same⟩ :=
    (compile_then_run runs compiles reruns isSource isImage {} {} { bits := some "3" } rfl writable
      ended).2 _ ready
  exact ⟨_, compiled, again, ended, compilation, succeeds, rerun, same⟩

end AccumulatorMachine.CommandLine
