import AccumulatorMachine.Proofs.CommandLine.Effects
import AccumulatorMachine.Proofs.Text.Utf8

/-! What a compilation without a destination does to its own source. The image goes beside the
source, under the same name but for the extension, and so to another file, unless the source has
the extension of images itself. -/
namespace AccumulatorMachine.CommandLine

namespace Path

/-- The last name on a path has the extension of images, and something in front of it. -/
def NamesImage (p : Path) : Prop :=
  ∃ way stem, p.EndsIn way (stem ++ ".acc".toList) ∧ stem ≠ []

/-- A name that comes last on a path and is not the way up. -/
structure Ordinary (name : List Char) : Prop where
  plain : '/' ∉ name
  full : name ≠ []
  proper : name ≠ ['.']
  down : name ≠ ['.', '.']

variable {p : Path} {way name name' : List Char}

theorem EndsIn.ordinary (ends : p.EndsIn way name) (down : name ≠ ['.', '.']) : Ordinary name :=
  ⟨ends.plain, ends.full, ends.proper, down⟩

/-- What an extension is put on stays the last name of its path. -/
theorem Renamed.ordinary (renamed : Renamed "acc".toList name name') (plain : '/' ∉ name) :
    Ordinary name' := by
  have dot : ('/' : Char) ∉ '.' :: "acc".toList := by decide
  obtain ⟨stem, rfl, inside⟩ : ∃ stem, name' = stem ++ '.' :: "acc".toList ∧ '/' ∉ stem := by
    cases renamed with
    | @replaced stem old full last =>
      exact ⟨stem, rfl, fun slash => plain (List.mem_append_left _ slash)⟩
    | added => exact ⟨name, rfl, plain⟩
  have long : 4 ≤ (stem ++ '.' :: "acc".toList).length := by simp
  refine ⟨?_, ?_, ?_, ?_⟩
  · rw [List.mem_append, not_or]
    exact ⟨inside, dot⟩
  all_goals
    intro short
    rw [short] at long
    contradiction

/-- Only a name with the extension of images is left as it is. -/
theorem Renamed.exists_stem (renamed : Renamed "acc".toList name name') (same : name' = name) :
    ∃ stem, name = stem ++ ".acc".toList ∧ stem ≠ [] := by
  cases renamed with
  | @replaced stem old full last => exact ⟨stem, same.symm, full⟩
  | added =>
    have length := congrArg List.length same
    simp at length

/-- A name with the extension of images is left as it is. -/
theorem Renamed.eq_of_stem {stem : List Char} (renamed : Renamed "acc".toList name name')
    (image : name = stem ++ ".acc".toList) (full : stem ≠ []) : name' = name := by
  cases renamed with
  | @replaced stem' old full' last =>
    have split := splitExtension_replaced full' last
    have split' := splitExtension_replaced full (by decide : '.' ∉ "acc".toList)
    rw [image] at split
    obtain ⟨rfl, extension⟩ := Prod.mk.inj (split'.symm.trans split)
    rw [Option.some.inj extension]
  | added plain =>
    obtain ⟨c, rest, rfl⟩ := List.exists_cons_of_ne_nil full
    rw [image] at plain
    exact absurd (List.mem_append_right rest List.mem_cons_self) plain

/-- The names in front of the last one hang on the way to it alone. -/
theorem exists_names (closed : way = [] ∨ ∃ front, way = front ++ ['/']) :
    ∃ earlier absolute, ∀ name, Ordinary name →
      (Path.mk (way ++ name)).names = earlier ++ [name] ∧
        (Path.mk (way ++ name)).isAbsolute = absolute := by
  have kept : ∀ name, Ordinary name → [name].filter (!·.isEmpty) = [name] := by
    intro name ordinary
    simp [ordinary.full]
  obtain rfl | ⟨front, rfl⟩ := closed
  · refine ⟨[], false, ?_⟩
    intro name ordinary
    constructor
    · rw [names, List.nil_append, split_plain ordinary.plain, kept name ordinary, List.nil_append]
    · obtain ⟨c, rest, rfl⟩ := List.exists_cons_of_ne_nil ordinary.full
      have other := List.ne_of_not_mem_cons ordinary.plain
      simp [isAbsolute, other.symm]
  · refine ⟨(split front).filter (!·.isEmpty), (Path.mk (front ++ ['/'])).isAbsolute, ?_⟩
    intro name ordinary
    constructor
    · rw [names, List.append_assoc, List.singleton_append, split_append,
        split_plain ordinary.plain, List.filter_append, kept name ordinary]
    · rw [isAbsolute, isAbsolute, List.head?_append_of_ne_nil _ (List.concat_ne_nil '/' front)]

end Path

namespace Directory

variable {d d' : Directory} {p : Path} {start directory : Location} {access : Access}
  {way name last : List Char}

/-- Where a walk ends hangs on the names before the last alone. -/
theorem walk_append {earlier : List (List Char)} (ordinary : Path.Ordinary name)
    (found : d.walk start (earlier ++ [name]) = .ok (.name directory access last)) :
    last = name ∧ ∀ name', Path.Ordinary name' →
      d.walk start (earlier ++ [name']) = .ok (.name directory access name') := by
  induction earlier generalizing start with
  | nil =>
    have ends : ∀ {name}, Path.Ordinary name →
        (([] : List (List Char)).isEmpty && name ∉ [['.'], ['.', '.']]) = true := by
      intro name ordinary
      simp [ordinary.proper, ordinary.down]
    rw [List.nil_append, walk, bind_eq_ok_iff] at found
    obtain ⟨_, entered, found⟩ := found
    rw [if_pos (ends ordinary)] at found
    obtain ⟨rfl, rfl, rfl⟩ := Target.name.inj (Except.ok.inj found)
    refine ⟨rfl, ?_⟩
    intro name' ordinary'
    rw [List.nil_append, walk, bind_eq_ok_iff]
    exact ⟨_, entered, if_pos (ends ordinary')⟩
  | cons first further ih =>
    have more : ∀ name, ¬((further ++ [name]).isEmpty && first ∉ [['.'], ['.', '.']]) = true := by
      simp
    rw [List.cons_append, walk, bind_eq_ok_iff] at found
    obtain ⟨_, entered, found⟩ := found
    rw [if_neg (more name), bind_eq_ok_iff] at found
    obtain ⟨l, followed, found⟩ := found
    obtain ⟨same, others⟩ := ih found
    refine ⟨same, ?_⟩
    intro name' ordinary'
    rw [List.cons_append, walk, bind_eq_ok_iff]
    refine ⟨_, entered, ?_⟩
    rw [if_neg (more name'), bind_eq_ok_iff]
    exact ⟨l, followed, others name' ordinary'⟩

/-- Two names at the same place on a path lead to two files, each by its own name. -/
theorem locate_append (closed : way = [] ∨ ∃ front, way = front ++ ['/'])
    (ordinary : Path.Ordinary name)
    (located : d.locate ⟨way ++ name⟩ = .ok (.name directory access last)) :
    last = name ∧ ∀ name' directory' access' last', Path.Ordinary name' →
      d.locate ⟨way ++ name'⟩ = .ok (.name directory' access' last') →
        directory' = directory ∧ last' = name' := by
  obtain ⟨earlier, absolute, same⟩ := Path.exists_names closed
  obtain ⟨_, _, walked⟩ := locate_eq_ok_iff.mp located
  obtain ⟨names, first⟩ := same name ordinary
  rw [names, first] at walked
  obtain ⟨rfl, others⟩ := walk_append ordinary walked
  refine ⟨rfl, ?_⟩
  intro name' directory' access' last' ordinary' located'
  obtain ⟨_, _, walked'⟩ := locate_eq_ok_iff.mp located'
  obtain ⟨names', first'⟩ := same name' ordinary'
  rw [names', first', others name' ordinary'] at walked'
  cases walked'
  exact ⟨rfl, rfl⟩

/-- A file that is read is as before if another file has been written. -/
theorem read_of_changes {q : Path} {l : Location} {content written : List UInt8}
    (readable : d.read p = .ok content) (changes : d.Changes d' q l written)
    (apart : ∀ directory access name, d.LeadsTo p directory access name →
      l ≠ .inside directory name) :
    d'.read p = .ok content := by
  obtain ⟨directory, access, name, leads, access', present, look⟩ := read_eq_ok_iff.mp readable
  refine read_eq_ok_iff.mpr ⟨directory, access, name, ?_, access', ?_, look⟩
  · exact leads.of_keepsDirectories changes.keepsDirectories
  · rw [changes.others _ (apart directory access name leads).symm, present]

end Directory

variable {arguments : List String} {path image : Path} {bits : Option Nat} {list : Bool}

/-- The image beside a source is another file, unless the source is named like an image. -/
theorem Goes.target_ne {d : Directory} (goes : Goes path none image) (other : ¬path.NamesImage)
    {l directory : Location} {access : Access} {last : List Char} (found : d.target image = .ok l)
    (leads : d.LeadsTo path directory access last) : l ≠ .inside directory last := by
  rintro rfl
  cases goes with
  | @beside way name name' ends renamed =>
    obtain ⟨⟨way', ends'⟩, down⟩ := leads.endsIn
    obtain ⟨rfl, rfl⟩ := ends.unique ends'
    obtain ⟨directory', access', last', leads', same, _⟩ := Directory.target_eq_ok_iff.mp found
    obtain ⟨rfl, rfl⟩ := Location.inside.inj same
    obtain rfl : path = ⟨way ++ name⟩ := by rw [← ends.text]
    obtain ⟨_, others⟩ := Directory.locate_append ends.closed (ends.ordinary down) leads.located
    obtain ⟨_, like⟩ := others name' _ _ _ (renamed.ordinary ends.plain) leads'.located
    obtain ⟨stem, named, full⟩ := renamed.exists_stem like.symm
    exact other ⟨way, stem, named ▸ ends, full⟩

/-- The image of a source that is named like an image goes to the source. -/
theorem Goes.eq_of_namesImage (goes : Goes path none image) (named : path.NamesImage) :
    image = path := by
  obtain ⟨way', stem, ends', full⟩ := named
  cases goes with
  | beside ends renamed =>
    obtain ⟨rfl, like⟩ := ends.unique ends'
    rw [renamed.eq_of_stem like full, ← ends.text]

/-- A compilation without a destination leaves its source as it is if it fails, and if the source
is not named like an image. Where it ends well on a source that is, the image is left in the place
of the source. -/
theorem perform_compile_beside
    (compiles : Command.ofArguments arguments = .ok (.compile path none bits list)) (limit : Nat)
    (e : Environment) (w : World) :
    ∃ outcome, perform limit arguments e w = some outcome ∧
      (outcome.exitCode ≠ 0 ∨ ¬path.NamesImage →
        outcome.world.directory.read path = w.directory.read path) ∧
      (outcome.exitCode = 0 → path.NamesImage → ∃ program width,
        AssemblesTo w.directory path program ∧ Chosen e bits width.bits ∧
        outcome.world.directory.read path = .ok (Image.encode ⟨width, program⟩)) := by
  obtain ⟨outcome, performed, _⟩ := Plan.perform_compileFile limit w path (Plan.imagePath path)
    (bits.getD (Settings.ofEnvironment e).bits) list
  rw [← Option.getD_none (a := Plan.imagePath path)] at performed
  have performed := (perform_eq compiles limit e w).trans performed
  refine ⟨outcome, performed, ?_⟩
  obtain ⟨fails, kept⟩ | ⟨succeeds, program, width, image, emits⟩ :=
    compilation_cases compiles performed
  · refine ⟨fun _ => by rw [kept], ?_⟩
    intro succeeds
    exact absurd succeeds fails
  · obtain ⟨l, changes⟩ := emits.changes
    constructor
    · intro spared
      have other := spared.resolve_left (not_not_intro succeeds)
      obtain ⟨content, _, readable, _⟩ := emits.assembles
      rw [readable]
      apply Directory.read_of_changes readable changes
      exact fun _ _ _ leads => emits.goes.target_ne other changes.target leads
    · intro _ named
      rw [emits.goes.eq_of_namesImage named] at changes
      exact ⟨program, width, emits.assembles, emits.chosen, changes.read⟩

/-- A source by another name, found by its way from the root, is as it was; a text that is named
like an image has its own image in its place. -/
theorem perform_compile_beside_of_source_and_image :
    let listed := Text.Utf8.encode "LDM #5\nEND".toList
    let w : World := {
      directory :=
        .holding (.down .root ["lib"]) [("p.asm".toList, listed), ("q.acc".toList, listed)] }
    let source : Path := ⟨"/lib/p.asm".toList⟩
    let image : Path := ⟨"q.acc".toList⟩
    Command.ofArguments ["compile", "/lib/p.asm"] = .ok (.compile source none none false) ∧
      ¬source.NamesImage ∧
      Command.ofArguments ["compile", "q.acc", "-b8"] = .ok (.compile image none (some 8) false) ∧
      image.NamesImage ∧
      ∃ kept lost, perform 0 ["compile", "/lib/p.asm"] {} w = some kept ∧
        kept.world.directory.read source = .ok listed ∧
        perform 0 ["compile", "q.acc", "-b8"] {} w = some lost ∧ lost.exitCode = 0 ∧
        lost.world.directory.read image = .ok [8, 0x00, 5, 0x33, 0] := by
  intro listed w source image
  have compiles : Command.ofArguments ["compile", "/lib/p.asm"] =
      .ok (.compile source none none false) := rfl
  have recompiles : Command.ofArguments ["compile", "q.acc", "-b8"] =
      .ok (.compile image none (some 8) false) := rfl
  have isSource : ¬source.NamesImage := by
    rintro ⟨way, stem, ends, -⟩
    have last : source.EndsIn "/lib/".toList "p.asm".toList :=
      ⟨rfl, .inr ⟨"/lib".toList, rfl⟩, by decide, by decide, by decide⟩
    have suffix : ".acc".toList <:+ "p.asm".toList := ⟨stem, (ends.unique last).2⟩
    revert suffix
    decide
  have isImage : image.NamesImage :=
    ⟨[], "q".toList, ⟨rfl, .inl rfl, by decide, by decide, by decide⟩, by decide⟩
  have readable : w.directory.read source = .ok listed := rfl
  have readable' : w.directory.read image = .ok listed := rfl
  have assembles : AssemblesTo w.directory image [⟨0x00, 5⟩, ⟨0x33, 0⟩] :=
    ⟨listed, _, readable', Text.Utf8.decode?_eq_some_iff.mpr rfl, by decide +kernel⟩
  have same : Plan.imagePath image = image := by decide
  have leads : w.directory.target image = .ok (.down .root ["lib", "q.acc"]) := rfl
  let eight : Width := ⟨8, by decide, by decide⟩
  have chosen : Chosen {} (some 8) eight.bits := .switch 8
  -- What follows hangs on these facts alone, and would be slow to check on the files themselves.
  clear_value w source image
  have writable : ∃ d, w.directory.write (Plan.imagePath image) [] = .ok d :=
    Directory.exists_write_iff.mpr ⟨_, same.symm ▸ leads⟩
  obtain ⟨kept, spared, unchanged, _⟩ := perform_compile_beside compiles 0 {} w
  obtain ⟨lost, ended, _, replaced⟩ := perform_compile_beside recompiles 0 {} w
  have succeeds : lost.exitCode = 0 := by
    obtain ⟨compiled, ended', succeeds⟩ :=
      compiles_of_assembles recompiles assembles chosen writable
    rwa [Option.some.inj (ended.symm.trans ended')]
  obtain ⟨program, width, made, asked, written⟩ := replaced succeeds isImage
  obtain rfl : program = [⟨0x00, 5⟩, ⟨0x33, 0⟩] :=
    Except.ok.inj ((assembled_eq_ok_iff.mpr made).symm.trans (assembled_eq_ok_iff.mpr assembles))
  obtain rfl : width = eight := by
    have bits : 8 = width.bits := chosen_iff.mp asked
    cases width
    congr
    exact bits.symm
  refine ⟨compiles, isSource, recompiles, isImage, kept, lost, spared, ?_, ended, succeeds, ?_⟩
  · rw [unchanged (.inr isSource), readable]
  · rw [written]
    decide +kernel

/-- An image that happens to be text is lost when it is compiled once more: a program that loads 5
and halts becomes one of a single unknown code. -/
theorem perform_compile_of_image :
    let held : List UInt8 := [0x10, 0x00, 0, 5, 0x33, 0, 0]
    let w : World := { directory := .holding .root [("p.acc".toList, held)] }
    let path : Path := ⟨"p.acc".toList⟩
    Image.decode held = .ok ⟨.standard, [⟨0x00, 5⟩, ⟨0x33, 0⟩]⟩ ∧
      Command.ofArguments ["compile", "p.acc"] = .ok (.compile path none none false) ∧
      w.directory.read path = .ok held ∧
      ∃ outcome, perform 0 ["compile", "p.acc"] {} w = some outcome ∧ outcome.exitCode = 0 ∧
        outcome.world.directory.read path = .ok [0x10, 0xFF, 0, 0] ∧
        outcome.world.directory.read path ≠ w.directory.read path := by
  intro held w path
  have compiles : Command.ofArguments ["compile", "p.acc"] =
      .ok (.compile path none none false) := rfl
  have readable : w.directory.read path = .ok held := rfl
  have decoded : Text.Utf8.decode? held =
      some ['\x10', '\x00', '\x00', '\x05', '3', '\x00', '\x00'] := by
    rw [Text.Utf8.decode?_eq_some_iff]
    decide +kernel
  have assembles : AssemblesTo w.directory path [⟨0xFF, 0⟩] :=
    ⟨held, _, readable, decoded, by decide +kernel⟩
  have ready : prepared w.directory path (Settings.ofEnvironment {}).bits =
      .ok ([⟨0xFF, 0⟩], .standard) :=
    prepared_eq_ok_iff.mpr ⟨assembles, rfl⟩
  have same : Plan.imagePath path = path := by decide
  have leads : w.directory.target path = .ok (.inside .root "p.acc".toList) := rfl
  clear_value w path
  obtain ⟨d, written⟩ : ∃ d, w.directory.write (Plan.imagePath path)
      (Image.encode ⟨.standard, [⟨0xFF, 0⟩]⟩) = .ok d :=
    Directory.exists_write_iff.mpr ⟨_, same.symm ▸ leads⟩
  obtain ⟨_, changes⟩ := Directory.changes_of_write (same ▸ written)
  obtain ⟨outcome, performed, succeeds, changed⟩ :=
    Plan.perform_compileFile_ok 0 ready written false
  have after : outcome.world.directory.read path = .ok [0x10, 0xFF, 0, 0] := by
    rw [changed, changes.read]
    rfl
  refine ⟨by decide +kernel, compiles, readable, outcome,
    (perform_eq compiles 0 {} w).trans performed, succeeds, after, ?_⟩
  rw [after, readable]
  decide

end AccumulatorMachine.CommandLine
