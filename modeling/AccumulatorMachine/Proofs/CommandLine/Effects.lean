import AccumulatorMachine.Proofs.CommandLine.CompiledRun
import AccumulatorMachine.Proofs.CommandLine.Extension
import AccumulatorMachine.Proofs.Numeral.Denotes

/-! What a command does to the files. Only a compilation has a step that writes, and nothing
after that step can fail; so a command that fails, of whatever kind, has changed no file. -/
namespace AccumulatorMachine.CommandLine

/-- A source file that can be read, is text, and assembles. -/
def AssemblesTo (d : Directory) (path : Path) (program : Program) : Prop :=
  ∃ content source, d.read path = .ok content ∧ Text.Utf8.decode? content = some source ∧
    assemble source = .ok program

/-- A count of bits written in decimal, with blanks around it and a plus sign at most. -/
def Counts (text : String) (bits : Nat) : Prop :=
  Numeral.Denotes 10 (Numeral.withoutPlus (Text.trim text.toList)) bits ∧ bits < 2 ^ 32

/-- Where a count of bits comes from, in the order of precedence. -/
inductive Chosen (e : Environment) : Option Nat → Nat → Prop
  | switch (bits : Nat) : Chosen e (some bits) bits
  | environment {text : String} {bits : Nat} (given : e.bits = some text)
      (counts : Counts text bits) : Chosen e none bits
  | standard (unreadable : ∀ text ∈ e.bits, ∀ bits, ¬Counts text bits) : Chosen e none 16

/-- Where the image of a source goes: to the destination, or beside the source. -/
inductive Goes (source : Path) : Option Path → Path → Prop
  | destination (image : Path) : Goes source (some image) image
  | beside {way name name' : List Char} (ends : source.EndsIn way name)
      (renamed : Path.Renamed "acc".toList name name') : Goes source none ⟨way ++ name'⟩

/-- What a compilation has done that ends well. -/
structure Emits (e : Environment) (source : Path) (destination : Option Path)
    (bits : Option Nat) (d d' : Directory) (program : Program) (width : Width)
    (image : Path) : Prop where
  assembles : AssemblesTo d source program
  chosen : Chosen e bits width.bits
  goes : Goes source destination image
  changes : ∃ l, d.Changes d' image l (Image.encode ⟨width, program⟩)

theorem assembled_eq_ok_iff {d : Directory} {path : Path} {program : Program} :
    assembled d path = .ok program ↔ AssemblesTo d path program := by
  rw [assembled, AssemblesTo]
  constructor
  · intro made
    split at made
    · contradiction
    · next content readable =>
      split at made
      · contradiction
      · next source decoded =>
        refine ⟨content, source, readable, decoded, ?_⟩
        cases result : assemble source with
        | error failure => simp [result, Except.mapError] at made
        | ok other => simpa [result, Except.mapError] using made
  · rintro ⟨content, source, readable, decoded, made⟩
    simp only [readable, decoded, made, Except.mapError]

theorem prepared_eq_ok_iff {d : Directory} {path : Path} {bits : Nat} {program : Program}
    {width : Width} : prepared d path bits = .ok (program, width) ↔
      AssemblesTo d path program ∧ width.bits = bits := by
  rw [← assembled_eq_ok_iff, ← Width.ofBits?_eq_some_iff, prepared]
  cases assembled d path with
  | error failure => simp
  | ok made => cases Width.ofBits? bits <;> simp

theorem counts_iff {text : String} {bits : Nat} :
    Counts text bits ↔ Settings.bits? text = some bits :=
  (Numeral.readBelow?_eq_some_iff (by decide)).symm

theorem unreadable_iff {e : Environment} :
    (∀ text ∈ e.bits, ∀ bits, ¬Counts text bits) ↔ e.bits.bind Settings.bits? = none := by
  rw [Option.bind_eq_none_iff]
  simp only [counts_iff, Option.mem_def, Option.eq_none_iff_forall_ne_some, ne_eq]

theorem chosen_iff {e : Environment} {asked : Option Nat} {bits : Nat} :
    Chosen e asked bits ↔ asked.getD (Settings.ofEnvironment e).bits = bits := by
  cases asked with
  | some asked =>
    constructor
    · rintro ⟨⟩
      rfl
    · rintro rfl
      exact .switch asked
  | none =>
    change _ ↔ (e.bits.bind Settings.bits?).getD 16 = bits
    constructor
    · rintro (_ | ⟨given, counts⟩ | unreadable)
      · rw [given, Option.bind_some, counts_iff.mp counts, Option.getD_some]
      · rw [unreadable_iff.mp unreadable, Option.getD_none]
    · rintro rfl
      cases read : e.bits.bind Settings.bits? with
      | none => exact .standard (unreadable_iff.mpr read)
      | some count =>
        obtain ⟨text, given, counted⟩ := Option.bind_eq_some_iff.mp read
        exact .environment given (counts_iff.mpr counted)

/-- What is read as a source has a place for its image beside it, if a file can be there. -/
theorem goes_imagePath {d d' : Directory} {path : Path} {content : List UInt8} {l : Location}
    (readable : d.read path = .ok content) (found : d'.target (Plan.imagePath path) = .ok l) :
    Goes path none (Plan.imagePath path) := by
  obtain ⟨_, _, name, leads, _⟩ := Directory.read_eq_ok_iff.mp readable
  obtain ⟨⟨way, ends⟩, ordinary⟩ := leads.endsIn
  rcases ends.withExtension ordinary "acc".toList with ⟨name', renamed, image⟩ | leadsUp
  · rw [Plan.imagePath, image]
    exact .beside ends renamed
  · obtain ⟨_, _, name', leads', _⟩ := Directory.target_eq_ok_iff.mp found
    obtain ⟨⟨way', ends'⟩, ordinary'⟩ := leads'.endsIn
    exact absurd (leadsUp.unique ends').2.symm ordinary'

namespace Plan

/-- A plan with no step that writes, whatever the steps before have found. -/
inductive ReadOnly : Plan → Prop
  | stop (failure : Option Diagnostic) : ReadOnly (.stop failure)
  | status (line : String) {rest : Plan} (later : ReadOnly rest) : ReadOnly (.status line rest)
  | print (text : String) {rest : Plan} (later : ReadOnly rest) : ReadOnly (.print text rest)
  | readFile (path : Path) {rest : Except FileError (List UInt8) → Plan}
      (later : ∀ content, ReadOnly (rest content)) : ReadOnly (.readFile path rest)
  | runProgram (machine : Machine) (program : Program)
      {rest : Except MachineError RunSummary → Plan}
      (later : ∀ result, ReadOnly (rest result)) : ReadOnly (.runProgram machine program rest)

variable {limit : Nat} {w : World} {plan : Plan} {outcome : Outcome}

theorem ReadOnly.assembleFile (path : Path) {rest : Program → Plan}
    (later : ∀ program, (rest program).ReadOnly) : (assembleFile path rest).ReadOnly := by
  constructor
  intro content
  split
  · exact .stop _
  · split
    · exact .stop _
    · split
      · exact .stop _
      · exact later _

theorem ReadOnly.loadImage (path : Path) (settings : Settings)
    {rest : Program → Settings → Plan}
    (later : ∀ program settings, (rest program settings).ReadOnly) :
    (loadImage path settings rest).ReadOnly := by
  constructor
  intro content
  split
  · exact .stop _
  · split
    · exact .stop _
    · exact later _ _

theorem ReadOnly.runMachine (program : Program) (settings : Settings) {rest : Plan}
    (later : rest.ReadOnly) : (runMachine program settings rest).ReadOnly := by
  rw [Plan.runMachine]
  split
  · exact .stop _
  · apply ReadOnly.status
    constructor
    intro result
    split
    · exact .stop _
    · split
      · exact .status _ later
      · exact .status _ later

/-- A destination that cannot be written is found out last, and nothing is said of success. -/
theorem perform_compileFile_unwritable {x y : Path} {bits : Nat} {program : Program}
    {width : Width} {failure : FileError}
    (ready : prepared w.directory x bits = .ok (program, width))
    (refused : w.directory.write y (Image.encode ⟨width, program⟩) = .error failure)
    (list : Bool) :
    (compileFile x y bits list).perform limit w = some {
      exitCode := 1
      world := w.say (targetLine "Assembling" x)
      failure := some failure.diagnostic } := by
  have same : (w.say (targetLine "Assembling" x)).directory = w.directory := rfl
  obtain ⟨made, supported⟩ := prepared_eq_ok_iff.mp ready
  rw [compileFile, perform_sayTarget, perform_assembleFile, same,
    assembled_eq_ok_iff.mpr made]
  simp only [Width.ofBits?_eq_some_iff.mpr supported, perform, same, refused]
  rfl

/-- A compilation fails and has written nothing, or writes once and ends well. -/
theorem perform_compileFile (limit : Nat) (w : World) (path image : Path) (bits : Nat)
    (list : Bool) :
    ∃ compiled, (compileFile path image bits list).perform limit w = some compiled ∧
      (compiled.exitCode ≠ 0 ∧ compiled.world.directory = w.directory ∨
        compiled.exitCode = 0 ∧ ∃ program width, AssemblesTo w.directory path program ∧
          width.bits = bits ∧ w.directory.write image (Image.encode ⟨width, program⟩) =
            .ok compiled.world.directory) := by
  cases ready : prepared w.directory path bits with
  | error failure =>
    exact ⟨_, perform_compileFile_error ready image list, .inl ⟨one_ne_zero, rfl⟩⟩
  | ok both =>
    obtain ⟨program, width⟩ := both
    cases written : w.directory.write image (Image.encode ⟨width, program⟩) with
    | error failure =>
      exact ⟨_, perform_compileFile_unwritable ready written list, .inl ⟨one_ne_zero, rfl⟩⟩
    | ok d =>
      obtain ⟨compiled, performed, succeeds, rfl⟩ :=
        perform_compileFile_ok limit ready written list
      obtain ⟨made, supported⟩ := prepared_eq_ok_iff.mp ready
      exact ⟨compiled, performed, .inr ⟨succeeds, program, width, made, supported, written⟩⟩

end Plan

variable {limit : Nat} {arguments : List String} {e : Environment} {w : World}
  {outcome : Outcome}

theorem compilation_cases {path : Path} {destination : Option Path} {bits : Option Nat}
    {list : Bool}
    (compiles : Command.ofArguments arguments = .ok (.compile path destination bits list))
    (performed : perform limit arguments e w = some outcome) :
    outcome.exitCode ≠ 0 ∧ outcome.world.directory = w.directory ∨
      outcome.exitCode = 0 ∧ ∃ program width image,
        Emits e path destination bits w.directory outcome.world.directory program width image := by
  rw [perform_eq compiles, Command.plan] at performed
  obtain ⟨compiled, ended, cases⟩ := Plan.perform_compileFile limit w path
    (destination.getD (Plan.imagePath path)) (bits.getD (Settings.ofEnvironment e).bits) list
  obtain rfl := Option.some.inj (ended.symm.trans performed)
  rcases cases with fails | ⟨succeeds, program, width, made, chosen, written⟩
  · exact .inl fails
  · right
    have changes := Directory.changes_of_write written
    refine ⟨succeeds, program, width, _, made, chosen_iff.mpr chosen.symm, ?_, changes⟩
    cases destination with
    | some image => exact .destination image
    | none =>
      obtain ⟨content, _, readable, _⟩ := made
      obtain ⟨_, found, _⟩ := changes
      exact goes_imagePath readable found

/-- What is checked and found right can be compiled, if the width is one that a machine can
have and the image can be written. -/
theorem compiles_of_assembles {path : Path} {destination : Option Path} {bits : Option Nat}
    {list : Bool} {program : Program} {width : Width}
    (compiles : Command.ofArguments arguments = .ok (.compile path destination bits list))
    (made : AssemblesTo w.directory path program) (chosen : Chosen e bits width.bits)
    (writable : ∃ d, w.directory.write (destination.getD (Plan.imagePath path)) [] = .ok d) :
    ∃ compiled, perform limit arguments e w = some compiled ∧ compiled.exitCode = 0 := by
  have ready : prepared w.directory path (bits.getD (Settings.ofEnvironment e).bits) =
      .ok (program, width) :=
    prepared_eq_ok_iff.mpr ⟨made, (chosen_iff.mp chosen).symm⟩
  obtain ⟨d, written⟩ : ∃ d, w.directory.write (destination.getD (Plan.imagePath path))
      (Image.encode ⟨width, program⟩) = .ok d :=
    Directory.exists_write_iff.mpr (Directory.exists_write_iff.mp writable)
  obtain ⟨compiled, ended, succeeds, _⟩ := Plan.perform_compileFile_ok limit ready written list
  exact ⟨compiled, (perform_eq compiles limit e w).trans ended, succeeds⟩

end AccumulatorMachine.CommandLine
