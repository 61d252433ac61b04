import AccumulatorMachine.Proofs.Assembly.Meaning
import AccumulatorMachine.Proofs.Machine.Control

/-! Jumps to labels. The number that the assembler gives a label, the cell that the loader
gives a line and the address that a jump sends control to are the same line of the source,
for every program that a machine accepts. -/
namespace AccumulatorMachine

namespace Source

theorem Line.Splits.unique {line : Line} {mnemonic operand mnemonic' operand' : List Char}
    (splits : line.Splits mnemonic operand) (splits' : line.Splits mnemonic' operand') :
    mnemonic = mnemonic' ∧ operand = operand' := by
  cases splits with
  | labelled declares =>
    cases splits' with
    | labelled => exact ⟨rfl, rfl⟩
    | plain none => exact absurd declares (none _)
  | plain none =>
    cases splits' with
    | labelled declares => exact absurd declares (none _)
    | plain => exact ⟨rfl, rfl⟩

/-- The word of an operand that names a label is the address of the line that declares it. -/
theorem OperandMeans.eq_address {lines : List Line} {name : List Char} {word : UInt64} {i : Nat}
    (means : OperandMeans lines name word) (free : ∀ r : Register, name ≠ r.name.toList)
    (declared : FirstDeclaration lines name i) : word.toNat = 2 * i := by
  obtain ⟨line, _, named, letters, _⟩ := declared.declared
  cases means with
  | absent => contradiction
  | literal written =>
    obtain ⟨c, member, other⟩ := written.exists_not_letter
    rw [letters c member] at other
    contradiction
  | register r => exact absurd rfl (free r)
  | label _ _ _ declared' address =>
    rw [declared.unique declared']
    exact address

end Source

open Source

/-- The instruction of a line has the number of the line. -/
theorem exists_instruction_of_line {source : List Char} {p : Program}
    (assembled : assemble source = .ok p) {n : Nat} {line : Line}
    (listed : (lines source)[n]? = some line) :
    ∃ i, p[n]? = some i ∧ line.Means (lines source) i := by
  have linked := Assembly.link_eq_ok_iff.mp assembled
  rw [Assembly.ofSource, List.forall₂_map_left_iff] at linked
  obtain ⟨inside, rfl⟩ := List.getElem?_eq_some_iff.mp listed
  have inside' : n < p.length := by
    rw [← linked.length_eq]
    exact inside
  refine ⟨p[n], List.getElem?_eq_getElem inside', ?_⟩
  exact Line.means_of_link (filled_of_mem_lines (List.getElem_mem inside))
    (linked.get inside inside')

theorem length_of_assemble {source : List Char} {p : Program}
    (assembled : assemble source = .ok p) : p.length = (lines source).length := by
  have linked := Assembly.link_eq_ok_iff.mp assembled
  rw [Assembly.ofSource, List.forall₂_map_left_iff] at linked
  exact linked.length_eq.symm

namespace Machine

/-- After so many steps a run has jumped to a line of its source. It goes on, and what it
fetches next is the instruction of that line; one of a label alone is passed over. -/
structure Lands (m : Machine) (p : Program) (steps : Nat) (target : Line) (n : Nat)
    (i : Instruction) (landed : Machine) : Prop where
  stage : m.execute steps p = .running landed steps
  pc : (landed.register .pc).toNat = 2 * n
  fetched : landed.fetch? (landed.register .pc) =
    some (UInt64.ofNat i.opcode.toNat, m.width.truncate i.operand.toNat)
  passed : target.LabelOnly →
    (m.execute (steps + 1) p).Proceeds p (n + 1) (steps + 1) ∧
      landed.MovesTo (2 * (n + 1)) (m.execute (steps + 1) p).machine

/-- For every program that a machine accepts, the operand cell of a line that names a label
holds the address of the line that declares it first, and the cell there that line's code.
A jump that is carried out there lands on that line, if no store of the run went to the
cells of either. -/
theorem execute_label_jump {source : List Char} {p : Program} {m : Machine} {line : Line}
    {mnemonic name : List Char} {i j : Nat} (assembled : assemble source = .ok p)
    (accepted : ∀ limit instructions bits, (m.execute limit p).result? ≠
      some (.error (.programTooLarge instructions bits)))
    (listed : (lines source)[j]? = some line) (splits : line.Splits mnemonic name)
    (free : ∀ r : Register, name ≠ r.name.toList)
    (declared : FirstDeclaration (lines source) name i) :
    p.length = (lines source).length ∧ p.cellCount ≤ m.width.modulus ∧
      m.execute 0 p = .running (m.loaded p) 0 ∧
      ∃ target instruction, (lines source)[i]? = some target ∧ p[i]? = some instruction ∧
        target.Means (lines source) instruction ∧
        ((m.loaded p).read (UInt64.ofNat (2 * j + 1))).toNat = 2 * i ∧
        ((m.loaded p).read (UInt64.ofNat (2 * i))).toNat = instruction.opcode.toNat ∧
        ∀ (k : Nat) (before : Machine) (cell operand : UInt64) (op : Opcode),
          m.execute k p = .running before k → (before.register .pc).toNat = 2 * j →
          Store.Spare ((m.start p).stores p.cellCount k) j →
          Store.Spare ((m.start p).stores p.cellCount k) i →
          before.fetch? (before.register .pc) = some (cell, operand) →
          decode? cell = some op → before.Jumps op →
          ∃ landed, m.Lands p (k + 1) target i instruction landed ∧
            before.MovesTo (2 * i) landed := by
  have fits := never_programTooLarge_iff.mp accepted
  have count : p.cellCount = p.length * 2 := rfl
  obtain ⟨target, atTarget, _⟩ := declared.declared
  obtain ⟨jump, atJ, jumpMeans⟩ := exists_instruction_of_line assembled listed
  obtain ⟨instruction, atI, means⟩ := exists_instruction_of_line assembled atTarget
  have insideJ : j < p.length := (List.getElem?_eq_some_iff.mp atJ).1
  have insideI : i < p.length := (List.getElem?_eq_some_iff.mp atI).1
  have address : jump.operand.toNat = 2 * i := by
    obtain ⟨_, _, splits', _, operand⟩ := jumpMeans.fields
    obtain ⟨_, rfl⟩ := splits.unique splits'
    exact operand.eq_address free declared
  have narrowed : (m.width.truncate jump.operand.toNat).toNat = 2 * i := by
    rw [m.width.toNat_truncate_natCast, address, Nat.mod_eq_of_lt (by omega)]
  have started : m.execute 0 p = .running (m.loaded p) 0 := start_eq_running fits
  have loadedJ := hasAt_loaded fits atJ
  have loadedI := hasAt_loaded fits atI
  refine ⟨length_of_assemble assembled, fits, started, target, instruction, atTarget, atI,
    means, ?_, ?_, ?_⟩
  · rw [loadedJ.operand, width_loaded, narrowed]
  · rw [loadedI.code, toNat_ofNat_byte]
  · intro k before cell operand op stage pc spareJ spareI fetched known jumps
    have held := (HasAt.of_stage fits atJ stage spareJ).fetch? pc
    rw [fetched, width_of_stage stage] at held
    cases held
    obtain ⟨proceeds, moves⟩ :=
      proceeds_of_jumps fits stage (by omega) fetched known jumps narrowed
    obtain ⟨landed, stage', pc'⟩ := proceeds.exists_running insideI
    rw [stage'] at moves
    have fetched' := ((HasAt.of_stage fits atI stage spareI).of_movesTo moves).fetch? pc'
    rw [moves.width, width_of_stage stage] at fetched'
    refine ⟨landed, ⟨stage', pc', fetched', ?_⟩, moves⟩
    intro only
    have pass := means.pass.mpr only
    rw [pass] at fetched'
    exact proceeds_of_pass fits stage' insideI pc' fetched' (decode?_code .pass)

/-- The label of the last line, declared on its own: a jump forward to it past an
instruction that halts, taken after a store elsewhere, ends the run without halting it. -/
theorem execute_label_jump_of_last_line :
    let m := ({ width := ⟨8, by decide, by decide⟩ } : Machine).setRegister .mar 200
    let source := "  STO\n  JPE skip ; ACC is zero\n  END\n\nskip:\n".toList
    let p : Program := [⟨0x06, 0⟩, ⟨0x31, 6⟩, ⟨0x33, 0⟩, ⟨0x07, 0⟩]
    let line : Line := ⟨2, ⟨"JPE".toList, 8⟩, ⟨"skip".toList, 12⟩, ⟨[], 16⟩⟩
    let target : Line := ⟨5, ⟨"skip:".toList, 38⟩, ⟨[], 43⟩, ⟨[], 43⟩⟩
    assemble source = .ok p ∧ (lines source)[1]? = some line ∧ (lines source)[3]? = some target ∧
      FirstDeclaration (lines source) "skip".toList 3 ∧
      ((m.loaded p).read 3).toNat = 6 ∧ ((m.loaded p).read 6).toNat = 0x07 ∧
      ∃ before landed, m.execute 1 p = .running before 1 ∧
        (m.start p).stores p.cellCount 1 = [⟨200, 0⟩] ∧ before.Jumps .jumpIfZero ∧
        m.Lands p 2 target 3 ⟨0x07, 0⟩ landed ∧ target.LabelOnly ∧
        (m.execute 3 p).result? = some (.ok ⟨3, false⟩) := by
  have read : lines "  STO\n  JPE skip ; ACC is zero\n  END\n\nskip:\n".toList =
      [⟨1, ⟨"STO".toList, 2⟩, ⟨[], 5⟩, ⟨[], 5⟩⟩,
        ⟨2, ⟨"JPE".toList, 8⟩, ⟨"skip".toList, 12⟩, ⟨[], 16⟩⟩,
        ⟨3, ⟨"END".toList, 33⟩, ⟨[], 36⟩, ⟨[], 36⟩⟩,
        ⟨5, ⟨"skip:".toList, 38⟩, ⟨[], 43⟩, ⟨[], 43⟩⟩] := by decide +kernel
  intro m source p line target
  have assembled : assemble source = .ok p := by
    rw [assemble, Assembly.ofSource, read]
    rfl
  have listed : (lines source)[1]? = some line := by
    rw [read]
    rfl
  have atTarget : (lines source)[3]? = some target := by
    rw [read]
    rfl
  have declared : FirstDeclaration (lines source) "skip".toList 3 := by
    rw [← LabelTable.get?_ofLines, read]
    rfl
  have accepted : ∀ limit instructions bits, (m.execute limit p).result? ≠
      some (.error (.programTooLarge instructions bits)) :=
    never_programTooLarge_iff.mpr (by decide)
  have splits : line.Splits "JPE".toList "skip".toList := by
    apply Line.Splits.plain
    intro name declares
    have plain : declaredLabel? line.first.text = none := rfl
    rw [declaredLabel?_first_iff.mpr declares] at plain
    contradiction
  have free : ∀ r : Register, "skip".toList ≠ r.name.toList := by
    intro r
    cases r <;> decide
  have declares : target.Declares "skip".toList := declaredLabel?_first_iff.mp rfl
  have stage : m.execute 1 p = .running (m.execute 1 p).machine 1 := by
    apply execute_eq_running
    decide +kernel
  have stores : (m.start p).stores p.cellCount 1 = [⟨200, 0⟩] := by decide +kernel
  have jumps : (m.execute 1 p).machine.Jumps .jumpIfZero := .zero (by decide +kernel)
  obtain ⟨_, _, _, target', instruction, atTarget', atI, _, operand, code, lands⟩ :=
    execute_label_jump assembled accepted listed splits free declared
  rw [atTarget] at atTarget'
  cases atTarget'
  cases atI
  have spare : ∀ n, n ≠ 100 → Store.Spare ((m.start p).stores p.cellCount 1) n := by
    intro n other s member
    rw [stores, List.mem_singleton] at member
    subst member
    exact other.symm
  obtain ⟨landed, lands, _⟩ := lands 1 _ 0x31 6 .jumpIfZero stage (by decide +kernel)
    (spare 1 (by decide)) (spare 3 (by decide)) (by decide +kernel) rfl jumps
  exact ⟨assembled, listed, atTarget, declared, operand, code, _, landed, stage, stores, jumps,
    lands, ⟨⟨_, declares⟩, rfl, rfl⟩, by decide +kernel⟩

end Machine

end AccumulatorMachine
