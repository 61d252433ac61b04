import AccumulatorMachine.Proofs.Assembly.Meaning
import AccumulatorMachine.Proofs.Source.Joined
import AccumulatorMachine.Proofs.Source.Reference

/-! Sources assembled one after the other. Behind another source the instructions of a source
are the same, except that the labels it refers to have moved by the cells of the other. -/
namespace AccumulatorMachine

namespace Source

/-- The instruction of a line, and that of the line behind so many cells of other ones. -/
structure Line.Relocates (line : Line) (cells : Nat) (i j : Instruction) : Prop where
  opcode : j.opcode = i.opcode
  reference : line.Refers → j.operand.toNat = i.operand.toNat + cells
  other : ¬line.Refers → j.operand = i.operand

/-- The instructions of lines, relocated one by one. -/
inductive Relocated (cells : Nat) : List Line → Program → Program → Prop
  | nil : Relocated cells [] [] []
  | cons (relocates : line.Relocates cells i j) (rest : Relocated cells others p p') :
      Relocated cells (line :: others) (i :: p) (j :: p')

theorem Line.Relocates.eq_of_zero {line : Line} {i j : Instruction}
    (relocates : line.Relocates 0 i j) : j = i := by
  have operand : j.operand = i.operand := by
    by_cases refers : line.Refers
    · exact UInt64.toNat_inj.mp (relocates.reference refers)
    · exact relocates.other refers
  have opcode := relocates.opcode
  cases i
  cases j
  cases opcode
  cases operand
  rfl

theorem Relocated.eq_of_zero {all : List Line} {p p' : Program}
    (relocated : Relocated 0 all p p') : p' = p := by
  induction relocated with
  | nil => rfl
  | cons relocates _ ih => rw [relocates.eq_of_zero, ih]

/-- Every label of a table is in another one, a number of instructions further on, where
instructions still have addresses. -/
structure LabelTable.Shifts (t : LabelTable) (count : Nat) (t' : LabelTable) : Prop where
  found : ∀ name index, t.get? name = some index → t'.get? name = some (index + count)
  room : ∀ name index, t'.get? name = some index → index * cellsPerInstruction < UInt64.size

theorem Line.refers_iff {line : Line} :
    line.Refers ↔ ∃ name, (Statement.ofLine line).operand = .label name := by
  obtain ⟨field, operand⟩ := line.exists_hasOperand
  obtain ⟨label, mnemonic, statement⟩ := operand.exists_ofFields
  rw [statement]
  constructor
  · rintro ⟨other, hasOther, names⟩
    obtain rfl := operand.unique hasOther
    exact ⟨_, ofToken_eq_label_iff.mpr ⟨rfl, names⟩⟩
  · rintro ⟨name, read⟩
    exact ⟨field, operand, (ofToken_eq_label_iff.mp read).2⟩

namespace Statement

theorem ofLine_moved (rows bytes : Nat) (line : Line) :
    ofLine (line.moved rows bytes) =
      { ofLine line with
        line := line.number + rows
        span := ⟨(ofLine line).span.offset + bytes, (ofLine line).span.length⟩ } := by
  have first : (line.moved rows bytes).first.text = line.first.text := rfl
  rw [ofLine, ofLine, first]
  cases declaredLabel? line.first.text with
  | none => rfl
  | some name => rfl

theorem link_eq_ok_iff {s : Statement} {labels : LabelTable} {i : Instruction} :
    s.link labels = .ok i ↔
      i.opcode = s.linkedOpcode ∧ s.linkedOperand labels = .ok i.operand := by
  obtain ⟨opcode, operand⟩ := i
  rw [link]
  cases s.linkedOperand labels with
  | error e => simp [Except.map]
  | ok word => simp [Except.map, eq_comm]

/-- An operand that links does so with labels shifted, and only a label is another word then. -/
theorem exists_linkedOperand_of_shifts {labels labels' : LabelTable} {count : Nat}
    (shifts : labels.Shifts count labels') {s s' : Statement} (same : s'.operand = s.operand)
    {word : UInt64} (linked : s.linkedOperand labels = .ok word) :
    ∃ word', s'.linkedOperand labels' = .ok word' ∧
      ((∃ name, s.operand = .label name) →
        word'.toNat = word.toNat + count * cellsPerInstruction) ∧
      ((¬∃ name, s.operand = .label name) → word' = word) := by
  rw [linkedOperand] at linked
  rw [linkedOperand, same]
  cases operand : s.operand with
  | value number =>
    rw [operand] at linked
    refine ⟨number, rfl, ?_, fun _ => Except.ok.inj linked⟩
    rintro ⟨name, ⟨⟩⟩
  | malformed text =>
    rw [operand] at linked
    contradiction
  | label name =>
    simp only [operand] at linked
    cases found : labels.get? name with
    | none =>
      rw [found] at linked
      contradiction
    | some index =>
      have found' := shifts.found name index found
      have room := shifts.room name _ found'
      have room' : index * cellsPerInstruction < UInt64.size := by
        rw [Nat.add_mul] at room
        omega
      simp only [found] at linked
      rw [if_pos room'] at linked
      simp only [found']
      rw [if_pos room, ← Except.ok.inj linked]
      refine ⟨_, rfl, fun _ => ?_, fun other => absurd ⟨name, rfl⟩ other⟩
      rw [UInt64.toNat_ofNat_of_lt' room, UInt64.toNat_ofNat_of_lt' room', Nat.add_mul]

end Statement

/-- A line that links does so behind others as well, where its label has moved with it. -/
theorem Line.exists_link_moved {labels labels' : LabelTable} {count : Nat}
    (shifts : labels.Shifts count labels') (rows bytes : Nat) {line : Line} {i : Instruction}
    (linked : (Statement.ofLine line).link labels = .ok i) :
    ∃ j, (Statement.ofLine (line.moved rows bytes)).link labels' = .ok j ∧
      line.Relocates (count * cellsPerInstruction) i j := by
  obtain ⟨opcode, operand⟩ := Statement.link_eq_ok_iff.mp linked
  have same : (Statement.ofLine (line.moved rows bytes)).operand =
      (Statement.ofLine line).operand := by
    rw [Statement.ofLine_moved]
  obtain ⟨word, operand', reference, other⟩ :=
    Statement.exists_linkedOperand_of_shifts shifts same operand
  refine ⟨⟨i.opcode, word⟩, Statement.link_eq_ok_iff.mpr ⟨?_, operand'⟩, rfl, ?_, ?_⟩
  · rw [opcode, Statement.ofLine_moved]
    rfl
  · exact fun refers => reference (Line.refers_iff.mp refers)
  · exact fun none => other (mt Line.refers_iff.mpr none)

/-- Lines that link do so behind others, one by one. -/
theorem exists_relocated {labels labels' : LabelTable} {count : Nat}
    (shifts : labels.Shifts count labels') (rows bytes : Nat) {all : List Line} {p : Program}
    (linked : List.Forall₂ (fun line i => (Statement.ofLine line).link labels = .ok i) all p) :
    ∃ p', List.Forall₂ (fun line i => (Statement.ofLine line).link labels' = .ok i)
        (all.map (Line.moved rows bytes)) p' ∧
      Relocated (count * cellsPerInstruction) all p p' := by
  induction linked with
  | nil => exact ⟨[], .nil, .nil⟩
  | cons first _ ih =>
    obtain ⟨j, linked, relocates⟩ := Line.exists_link_moved shifts rows bytes first
    obtain ⟨p', others, rest⟩ := ih
    exact ⟨j :: p', .cons linked others, .cons relocates rest⟩

end Source

open Source

/-- Behind a source and its newline a source that declares none of its labels assembles to the
same instructions, with the labels that they refer to moved by the cells of the first; the
instructions of the first come before, as they were. -/
theorem assemble_joined {a b : List Char} {p q : Program} (first : assemble a = .ok p)
    (second : assemble b = .ok q)
    (apart : ∀ line ∈ lines a, ∀ other ∈ lines b, ∀ name,
      line.Declares name → ¬other.Declares name)
    (fits : Text.byteLength (a ++ '\n' :: b) < 2 ^ 64) :
    ∃ moved, assemble (a ++ '\n' :: b) = .ok (p ++ moved) ∧
      Relocated p.cellCount (lines b) q moved := by
  have few := two_mul_length_lines_le fits
  have whole := lines_joined a b
  rw [assemble, Assembly.link_eq_ok_iff, Assembly.ofSource, List.forall₂_map_left_iff] at first
  rw [assemble, Assembly.link_eq_ok_iff, Assembly.ofSource, List.forall₂_map_left_iff] at second
  have room : ∀ name index, (LabelTable.ofLines (lines (a ++ '\n' :: b))).get? name = some index →
      index * cellsPerInstruction < UInt64.size := by
    intro name index found
    have inside := (LabelTable.get?_ofLines.mp found).lt_length
    rw [cellsPerInstruction, UInt64.size]
    omega
  have before : (LabelTable.ofLines (lines a)).Shifts 0
      (.ofLines (lines (a ++ '\n' :: b))) := by
    refine ⟨fun name index found => ?_, room⟩
    rw [whole, LabelTable.get?_ofLines_append, found]
    rfl
  have behind : (LabelTable.ofLines (lines b)).Shifts (lines a).length
      (.ofLines (lines (a ++ '\n' :: b))) := by
    refine ⟨fun name index found => ?_, room⟩
    obtain ⟨other, listed, declares⟩ := (LabelTable.get?_ofLines.mp found).declared
    have none : (LabelTable.ofLines (lines a)).get? name = .none :=
      LabelTable.get?_ofLines_eq_none_iff.mpr fun line member declares' =>
        apart line member other (List.mem_of_getElem? listed) name declares' declares
    rw [whole, LabelTable.get?_ofLines_append, none, LabelTable.get?_ofLines_moved, found]
    rfl
  -- The lines of the first source are relocated too, but by nothing.
  obtain ⟨p', linked, same⟩ := exists_relocated before 0 0 first
  rw [Nat.zero_mul] at same
  obtain rfl := same.eq_of_zero
  have unmoved : (lines a).map (Line.moved 0 0) = lines a := List.map_id _
  rw [unmoved] at linked
  obtain ⟨moved, linked', relocated⟩ := exists_relocated behind (a.count '\n' + 1)
    (Text.byteLength a + 1) second
  refine ⟨moved, ?_, ?_⟩
  · rw [assemble, Assembly.link_eq_ok_iff, Assembly.ofSource, List.forall₂_map_left_iff, whole]
    rw [whole] at linked linked'
    exact List.rel_append linked linked'
  · rw [Program.cellCount, ← linked.length_eq]
    exact relocated

/-- A remark that nothing ends, and behind it a jump ahead to a label that is moved by the two
cells of the first source, beside a number, a register and a label alone that are not. -/
theorem assemble_joined_of_open_remark :
    let a := "here: JMP here ; \u00e9".toList
    let b := "JPE out\n\nADD #4\nINC IX\nout:".toList
    let p : Program := [⟨0x30, 0⟩]
    let q : Program := [⟨0x31, 6⟩, ⟨0x21, 4⟩, ⟨0x24, 1⟩, ⟨0x07, 0⟩]
    let moved : Program := [⟨0x31, 8⟩, ⟨0x21, 4⟩, ⟨0x24, 1⟩, ⟨0x07, 0⟩]
    assemble a = .ok p ∧ assemble b = .ok q ∧
      (∀ line ∈ lines a, ∀ other ∈ lines b, ∀ name,
        line.Declares name → ¬other.Declares name) ∧
      Text.byteLength (a ++ '\n' :: b) < 2 ^ 64 ∧
      assemble (a ++ '\n' :: b) = .ok (p ++ moved) ∧
      Relocated p.cellCount (lines b) q moved := by
  have read : lines "here: JMP here ; \u00e9".toList =
      [⟨1, ⟨"here:".toList, 0⟩, ⟨"JMP".toList, 6⟩, ⟨"here".toList, 10⟩⟩] := by decide +kernel
  have read' : lines "JPE out\n\nADD #4\nINC IX\nout:".toList =
      [⟨1, ⟨"JPE".toList, 0⟩, ⟨"out".toList, 4⟩, ⟨[], 7⟩⟩,
        ⟨3, ⟨"ADD".toList, 9⟩, ⟨"#4".toList, 13⟩, ⟨[], 15⟩⟩,
        ⟨4, ⟨"INC".toList, 16⟩, ⟨"IX".toList, 20⟩, ⟨[], 22⟩⟩,
        ⟨5, ⟨"out:".toList, 23⟩, ⟨[], 27⟩, ⟨[], 27⟩⟩] := by decide +kernel
  have joined : assemble ("here: JMP here ; \u00e9".toList ++
        '\n' :: "JPE out\n\nADD #4\nINC IX\nout:".toList) =
      .ok [⟨0x30, 0⟩, ⟨0x31, 8⟩, ⟨0x21, 4⟩, ⟨0x24, 1⟩, ⟨0x07, 0⟩] := by
    rw [assemble, Assembly.ofSource, lines_joined, read, read']
    rfl
  intro a b p q moved
  have first : assemble a = .ok p := by
    rw [assemble, Assembly.ofSource, read]
    rfl
  have second : assemble b = .ok q := by
    rw [assemble, Assembly.ofSource, read']
    rfl
  have apart : ∀ line ∈ lines a, ∀ other ∈ lines b, ∀ name,
      line.Declares name → ¬other.Declares name := by
    intro line member other member' name declares declares'
    have same := declares.colon.trans declares'.colon.symm
    rw [read, List.mem_singleton] at member
    rw [read'] at member'
    subst member
    simp only [List.mem_cons, List.not_mem_nil, or_false] at member'
    rcases member' with rfl | rfl | rfl | rfl
    all_goals exact absurd same (by decide)
  have fits : Text.byteLength (a ++ '\n' :: b) < 2 ^ 64 := by decide
  obtain ⟨moved', assembled, relocated⟩ := assemble_joined first second apart fits
  have same : moved' = moved := (List.cons.inj (Except.ok.inj (assembled.symm.trans joined))).2
  rw [same] at relocated
  exact ⟨first, second, apart, fits, joined, relocated⟩

end AccumulatorMachine
