import AccumulatorMachine.Proofs.Source.LabelTable
import AccumulatorMachine.Proofs.Source.Line
import AccumulatorMachine.Proofs.Source.Mnemonic

/-! What a source means, line by line, and that a program is what its source means. The two
passes of the assembler meet here: labels are bound to lines by one of them, and statements
made of the same lines by the other. -/
namespace AccumulatorMachine

namespace Source

/-- Mnemonic and operand of a line. They stand past the declaration of a label. -/
inductive Line.Splits (line : Line) : List Char → List Char → Prop
  | labelled (declares : line.Declares name) : Splits line line.second.text line.third.text
  | plain (none : ∀ name, ¬line.Declares name) : Splits line line.first.text line.second.text

def Line.LabelOnly (line : Line) : Prop :=
  (∃ name, line.Declares name) ∧ line.second.text = [] ∧ line.third.text = []

/-- The word of an operand token among lines. -/
inductive OperandMeans (lines : List Line) : List Char → UInt64 → Prop
  | absent : OperandMeans lines [] 0
  | literal (written : Literal token z) (value : (word.toNat : Int) = z % 2 ^ 64) :
      OperandMeans lines token word
  | register (r : Register) (index : word.toNat = r.index) :
      OperandMeans lines r.name.toList word
  | label (named : token ≠ []) (plain : ¬LooksLiteral token)
      (free : ∀ r : Register, token ≠ r.name.toList)
      (declared : FirstDeclaration lines token i) (address : word.toNat = 2 * i) :
      OperandMeans lines token word

structure Line.Means (lines : List Line) (line : Line) (i : Instruction) : Prop where
  fields : ∃ mnemonic operand, line.Splits mnemonic operand ∧
    MnemonicMeans operand mnemonic i.opcode ∧ OperandMeans lines operand i.operand
  pass : i.opcode = 0x07 ↔ line.LabelOnly

theorem operandMeans_linkedOperand {lines : List Line} {s : Statement} {token : List Char}
    {word : UInt64} (reads : OperandReads token s.operand)
    (linked : s.linkedOperand (.ofLines lines) = .ok word) : OperandMeans lines token word := by
  simp only [Statement.linkedOperand] at linked
  generalize s.operand = operand at reads linked
  cases reads with
  | absent =>
    obtain rfl := Except.ok.inj linked
    exact .absent
  | literal written =>
    obtain rfl := Except.ok.inj linked
    exact .literal written (toNat_ofInt _)
  | malformed => contradiction
  | register r =>
    obtain rfl := Except.ok.inj linked
    exact .register r (by cases r <;> rfl)
  | label named plain free =>
    simp only at linked
    split at linked
    · contradiction
    · next i found =>
      split at linked
      · next inside =>
        obtain rfl := Except.ok.inj linked
        refine .label named plain free (LabelTable.get?_ofLines.mp found) ?_
        rw [cellsPerInstruction, UInt64.size] at inside
        rw [cellsPerInstruction, UInt64.toNat_ofNat']
        omega
      · contradiction

/-- The statement of a line, once it is linked, is what the line means. -/
theorem Line.means_of_link {lines : List Line} {line : Line} {i : Instruction}
    (filled : line.Filled) (linked : (Statement.ofLine line).link (.ofLines lines) = .ok i) :
    line.Means lines i := by
  rw [Statement.link] at linked
  cases operand : (Statement.ofLine line).linkedOperand (.ofLines lines) with
  | error e =>
    rw [operand] at linked
    contradiction
  | ok word =>
    rw [operand] at linked
    obtain rfl := Except.ok.inj linked
    cases declared : declaredLabel? line.first.text with
    | some name =>
      have declares := declaredLabel?_first_iff.mp declared
      have statement : Statement.ofLine line =
          .ofFields (some name) line.second line.third line.number := by
        rw [Statement.ofLine, declared]
      rw [statement] at operand ⊢
      have mnemonic := mnemonicMeans_linkedOpcode
        (s := .ofFields (some name) line.second line.third line.number) rfl
      refine ⟨⟨_, _, .labelled declares, mnemonic,
        operandMeans_linkedOperand (operandReads_ofToken _) operand⟩, ?_⟩
      refine mnemonic.eq_pass_iff.trans ⟨fun empty => ?_, fun only => only.2.1⟩
      exact ⟨⟨name, declares⟩, empty, filled.third empty⟩
    | none =>
      have plain : ∀ name, ¬line.Declares name := by
        intro name declares
        rw [declaredLabel?_first_iff.mpr declares] at declared
        contradiction
      have statement : Statement.ofLine line =
          .ofFields none line.first line.second line.number := by
        rw [Statement.ofLine, declared]
      rw [statement] at operand ⊢
      have mnemonic := mnemonicMeans_linkedOpcode
        (s := .ofFields none line.first line.second line.number) rfl
      refine ⟨⟨_, _, .plain plain, mnemonic,
        operandMeans_linkedOperand (operandReads_ofToken _) operand⟩, ?_⟩
      refine mnemonic.eq_pass_iff.trans ⟨fun empty => absurd empty filled.first, ?_⟩
      rintro ⟨⟨name, declares⟩, _⟩
      exact absurd declares (plain name)

end Source

open Source

/-- Linking succeeds if it does so for each statement, and keeps their order. -/
theorem Assembly.link_eq_ok_iff {a : Assembly} {p : Program} :
    a.link = .ok p ↔ List.Forall₂ (fun s i => s.link a.labels = .ok i) a.statements p := by
  obtain ⟨labels, statements⟩ := a
  rw [Assembly.link]
  induction statements generalizing p with
  | nil => simp [pure, Except.pure, eq_comm]
  | cons s rest ih =>
    rw [List.forall₂_cons_left_iff]
    simp only [← ih, List.mapM_cons]
    cases linked : s.link labels with
    | error e => simp [bind, Except.bind]
    | ok i =>
      cases others : rest.mapM (·.link labels) with
      | error e => simp [bind, Except.bind]
      | ok instructions => simp [bind, Except.bind, pure, Except.pure, eq_comm]

/-- A program has an instruction for each line of its source that has a word, and this is
what the line means among the lines. -/
theorem assemble_means {source : List Char} {p : Program} (assembled : assemble source = .ok p) :
    p.length = (lines source).length ∧
      ∀ (i : Nat) (line : Line) (instruction : Instruction),
        (lines source)[i]? = some line → p[i]? = some instruction →
          line.Means (lines source) instruction := by
  have linked := Assembly.link_eq_ok_iff.mp assembled
  rw [Assembly.ofSource, List.forall₂_map_left_iff] at linked
  refine ⟨linked.length_eq.symm, fun i line instruction atLine atInstruction => ?_⟩
  obtain ⟨inside, rfl⟩ := List.getElem?_eq_some_iff.mp atLine
  obtain ⟨inside', rfl⟩ := List.getElem?_eq_some_iff.mp atInstruction
  exact Line.means_of_link (filled_of_mem_lines (List.getElem_mem inside))
    (linked.get inside inside')

/-- A label on a line of its own, a short mnemonic in small letters beside a literal, and a
jump back to the label. -/
theorem assemble_means_of_loop :
    let source := "loop:\nadd #-1\nJPN loop\n".toList
    let p : Program := [⟨0x07, 0⟩, ⟨0x21, 0xFFFFFFFFFFFFFFFF⟩, ⟨0x32, 0⟩]
    assemble source = .ok p ∧ p.length = (lines source).length ∧
      ∀ (i : Nat) (line : Line) (instruction : Instruction),
        (lines source)[i]? = some line → p[i]? = some instruction →
          line.Means (lines source) instruction := by
  have assembled : assemble "loop:\nadd #-1\nJPN loop\n".toList =
      .ok [⟨0x07, 0⟩, ⟨0x21, 0xFFFFFFFFFFFFFFFF⟩, ⟨0x32, 0⟩] := by decide +kernel
  intro source p
  exact ⟨assembled, assemble_means assembled⟩

end AccumulatorMachine
