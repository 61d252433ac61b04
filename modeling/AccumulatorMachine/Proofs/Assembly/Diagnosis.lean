import AccumulatorMachine.Proofs.Source.Reference
import AccumulatorMachine.Proofs.Text.Utf8
import AccumulatorMachine.Assembly

/-! What the assembler finds fault with, and where it says that the fault is. Only operands are
ever at fault, the first one of a source is told about, and the place that is told is the place
of its bytes. -/
namespace AccumulatorMachine

namespace Source

/-- What is wrong with a line among lines: its operand is a malformed literal, or the name of a
label that none of the lines declares. The mnemonic is never wrong. -/
inductive Line.Fault (lines : List Line) (line : Line) : AssemblyError → Prop
  | malformed (operand : line.HasOperand field) (malformed : Malformed field.text) :
      Fault lines line (.invalidOperand field.text line.number
        ⟨field.offset, Text.byteLength field.text⟩)
  | undeclared (operand : line.HasOperand field) (names : NamesLabel field.text)
      (undeclared : ∀ other ∈ lines, ¬other.Declares field.text) :
      Fault lines line (.unresolvedLabel field.text line.number
        ⟨field.offset, Text.byteLength field.text⟩)

/-- What is wrong with the first of the lines that is at fault. -/
def FirstFault (lines : List Line) (e : AssemblyError) : Prop :=
  ∃ earlier line later, lines = earlier ++ line :: later ∧
    (∀ other ∈ earlier, ∀ e, ¬other.Fault lines e) ∧ line.Fault lines e

namespace Line

variable {lines : List Line} {line : Line} {e : AssemblyError}

theorem fault_of_linkedOperand (few : 2 * lines.length ≤ 2 ^ 64)
    (failed : (Statement.ofLine line).linkedOperand (.ofLines lines) = .error e) :
    line.Fault lines e := by
  obtain ⟨field, operand⟩ := line.exists_hasOperand
  obtain ⟨label, mnemonic, statement⟩ := operand.exists_ofFields
  rw [statement, Statement.linkedOperand, Statement.ofFields] at failed
  cases read : Operand.ofToken field.text with
  | value number =>
    simp only [read] at failed
    contradiction
  | malformed text =>
    obtain ⟨rfl, malformed⟩ := ofToken_eq_malformed_iff.mp read
    simp only [read] at failed
    cases failed
    exact .malformed operand malformed
  | label name =>
    obtain ⟨rfl, names⟩ := ofToken_eq_label_iff.mp read
    simp only [read] at failed
    split at failed
    · next none =>
      cases failed
      exact .undeclared operand names (LabelTable.get?_ofLines_eq_none_iff.mp none)
    · next i found =>
      have inside := (LabelTable.get?_ofLines.mp found).lt_length
      have address : i * cellsPerInstruction < UInt64.size := by
        rw [cellsPerInstruction, UInt64.size]
        omega
      rw [if_pos address] at failed
      contradiction

theorem Fault.linkedOperand (fault : line.Fault lines e) :
    (Statement.ofLine line).linkedOperand (.ofLines lines) = .error e := by
  cases fault with
  | malformed operand malformed =>
    obtain ⟨label, mnemonic, statement⟩ := operand.exists_ofFields
    have read := ofToken_eq_malformed_iff.mpr ⟨rfl, malformed⟩
    simp only [statement, Statement.linkedOperand, Statement.ofFields, read]
  | undeclared operand names undeclared =>
    obtain ⟨label, mnemonic, statement⟩ := operand.exists_ofFields
    have read := ofToken_eq_label_iff.mpr ⟨rfl, names⟩
    have none := LabelTable.get?_ofLines_eq_none_iff.mpr undeclared
    simp only [statement, Statement.linkedOperand, Statement.ofFields, read, none]

/-- A statement fails to link for what is wrong with its line. -/
theorem link_eq_error_iff (few : 2 * lines.length ≤ 2 ^ 64) :
    (Statement.ofLine line).link (.ofLines lines) = .error e ↔ line.Fault lines e := by
  have same : (Statement.ofLine line).link (.ofLines lines) = .error e ↔
      (Statement.ofLine line).linkedOperand (.ofLines lines) = .error e := by
    rw [Statement.link]
    cases (Statement.ofLine line).linkedOperand (.ofLines lines) with
    | error e => simp [Except.map]
    | ok word => simp [Except.map]
  rw [same]
  exact ⟨fault_of_linkedOperand few, Fault.linkedOperand⟩

end Line

end Source

open Source

/-- Linking fails with the error of the first statement that has one. -/
theorem Assembly.link_eq_error_iff {a : Assembly} {e : AssemblyError} :
    a.link = .error e ↔ ∃ earlier s later, a.statements = earlier ++ s :: later ∧
      (∀ other ∈ earlier, ∀ e, other.link a.labels ≠ .error e) ∧ s.link a.labels = .error e := by
  obtain ⟨labels, statements⟩ := a
  rw [Assembly.link]
  dsimp only
  induction statements with
  | nil => simp [pure, Except.pure]
  | cons s rest ih =>
    cases linked : s.link labels with
    | error e' =>
      have failed : (s :: rest).mapM (·.link labels) = .error e' := by
        rw [List.mapM_cons, linked]
        rfl
      rw [failed, Except.error.injEq]
      constructor
      · rintro rfl
        exact ⟨[], s, rest, rfl, fun _ none => absurd none List.not_mem_nil, linked⟩
      · rintro ⟨earlier, t, later, split, fine, error⟩
        cases earlier with
        | nil =>
          obtain ⟨rfl, _⟩ := List.cons.inj split
          exact Except.error.inj (linked.symm.trans error)
        | cons first others =>
          obtain ⟨rfl, _⟩ := List.cons.inj split
          exact absurd linked (fine _ List.mem_cons_self _)
    | ok i =>
      have passes : (s :: rest).mapM (·.link labels) = .error e ↔
          rest.mapM (·.link labels) = .error e := by
        rw [List.mapM_cons, linked]
        cases rest.mapM (·.link labels) with
        | error e' => rfl
        | ok instructions => simp [bind, Except.bind, pure, Except.pure]
      rw [passes, ih]
      constructor
      · rintro ⟨earlier, t, later, rfl, fine, error⟩
        have first : ∀ e, s.link labels ≠ .error e := by
          intro e
          rw [linked]
          exact nofun
        exact ⟨s :: earlier, t, later, rfl, List.forall_mem_cons.mpr ⟨first, fine⟩, error⟩
      · rintro ⟨earlier, t, later, split, fine, error⟩
        cases earlier with
        | nil =>
          obtain ⟨rfl, _⟩ := List.cons.inj split
          rw [linked] at error
          contradiction
        | cons first others =>
          obtain ⟨_, rfl⟩ := List.cons.inj split
          exact ⟨others, t, later, rfl, (List.forall_mem_cons.mp fine).2, error⟩

theorem assemble_eq_error_iff {source : List Char} (fits : Text.byteLength source < 2 ^ 64)
    {e : AssemblyError} : assemble source = .error e ↔ FirstFault (lines source) e := by
  have links : ∀ line e, (Statement.ofLine line).link (.ofLines (lines source)) = .error e ↔
      line.Fault (lines source) e :=
    fun _ _ => Line.link_eq_error_iff (two_mul_length_lines_le fits)
  rw [assemble, Assembly.link_eq_error_iff, Assembly.ofSource]
  constructor
  · rintro ⟨earlier, s, later, split, fine, error⟩
    obtain ⟨before, others, whole, rfl, behind⟩ := List.map_eq_append_iff.mp split
    obtain ⟨line, after, rfl, rfl, rfl⟩ := List.map_eq_cons_iff.mp behind
    refine ⟨before, line, after, whole, fun other member e fault => ?_, (links line e).mp error⟩
    exact fine _ (List.mem_map_of_mem member) e ((links other e).mpr fault)
  · rintro ⟨earlier, line, later, whole, fine, fault⟩
    refine ⟨earlier.map .ofLine, .ofLine line, later.map .ofLine, ?_, ?_, (links line e).mpr fault⟩
    · rw [whole, List.map_append, List.map_cons]
    · intro s member e error
      obtain ⟨other, listed, rfl⟩ := List.mem_map.mp member
      exact fine other listed e ((links other e).mp error)

/-- Bytes of a source spell a token, and so many newlines stand before them. -/
structure Quotes (source token : List Char) (line : Nat) (span : Span) : Prop where
  inside : span.offset + span.length ≤ (Text.Utf8.encode source).length
  bytes : ((Text.Utf8.encode source).drop span.offset).take span.length = Text.Utf8.encode token
  line : line = 1 + ((Text.Utf8.encode source).take span.offset).count 0x0A

/-- The place that is told with an error has the token that is told. -/
inductive AssemblyError.Locates (source : List Char) : AssemblyError → Prop
  | unresolvedLabel (quotes : Quotes source name line span) :
      Locates source (.unresolvedLabel name line span)
  | invalidOperand (quotes : Quotes source text line span) :
      Locates source (.invalidOperand text line span)

theorem quotes_of_mem_lines {source : List Char} {line : Line} {field : Field}
    (member : line ∈ lines source) (operand : field ∈ line.fields) (some : field.text ≠ []) :
    Quotes source field.text line.number ⟨field.offset, Text.byteLength field.text⟩ := by
  rw [lines_eq] at member
  obtain ⟨before, after, rfl, place, number⟩ := exists_place member operand some
  rw [Nat.zero_add] at place
  have offset : field.offset = (Text.Utf8.encode before).length := by
    rw [place, Text.Utf8.length_encode]
  have length : Text.byteLength field.text = (Text.Utf8.encode field.text).length := by
    rw [Text.Utf8.length_encode]
  constructor
  · simp only [offset, length, Text.Utf8.encode_append, List.length_append]
    omega
  · simp only [offset, length, Text.Utf8.encode_append, List.drop_left, List.take_left]
  · simp only [number, offset, Text.Utf8.encode_append, List.take_left,
      Text.Utf8.count_newline_encode]

theorem Source.Malformed.ne_nil {token : List Char} (malformed : Malformed token) : token ≠ [] := by
  rintro rfl
  obtain ⟨_, opens⟩ := malformed.looks
  cases opens

theorem Source.Line.Fault.locates {source : List Char} {line : Line} {e : AssemblyError}
    (fault : line.Fault (lines source) e) (member : line ∈ lines source) : e.Locates source := by
  cases fault with
  | malformed operand malformed =>
    exact .invalidOperand (quotes_of_mem_lines member operand.mem_fields malformed.ne_nil)
  | undeclared operand names undeclared =>
    exact .unresolvedLabel (quotes_of_mem_lines member operand.mem_fields names.named)

theorem exists_firstFault {lines : List Line} {line : Line} {e : AssemblyError}
    (member : line ∈ lines) (fault : line.Fault lines e) : ∃ e, FirstFault lines e := by
  classical
  have some : (lines.find? fun other => ∃ e, other.Fault lines e).isSome = true := by
    rw [List.find?_isSome]
    exact ⟨line, member, decide_eq_true ⟨e, fault⟩⟩
  obtain ⟨first, found⟩ := Option.isSome_iff_exists.mp some
  obtain ⟨faulty, earlier, later, whole, fine⟩ := List.find?_eq_some_iff_append.mp found
  obtain ⟨e', fault'⟩ := of_decide_eq_true faulty
  refine ⟨e', earlier, first, later, whole, fun other listed e fault => ?_, fault'⟩
  have none := fine other listed
  rw [decide_eq_true ⟨e, fault⟩] at none
  contradiction

/-- Assembling a source that storage has room for fails just if a line is at fault, with what is
wrong with the first such line, and it tells the bytes of the token and the row that they stand
in. -/
theorem assemble_diagnoses {source : List Char} (fits : Text.byteLength source < 2 ^ 64) :
    ((∃ e, assemble source = .error e) ↔
      ∃ line ∈ lines source, ∃ e, line.Fault (lines source) e) ∧
    (∀ e, assemble source = .error e ↔ FirstFault (lines source) e) ∧
    ∀ e, assemble source = .error e → e.Locates source := by
  refine ⟨?_, fun e => assemble_eq_error_iff fits, ?_⟩
  · simp only [assemble_eq_error_iff fits]
    constructor
    · rintro ⟨e, earlier, line, later, whole, _, fault⟩
      exact ⟨line, by rw [whole]; simp, e, fault⟩
    · rintro ⟨line, member, e, fault⟩
      exact exists_firstFault member fault
  · intro e failed
    obtain ⟨earlier, line, later, whole, _, fault⟩ := (assemble_eq_error_iff fits).mp failed
    exact fault.locates (by rw [whole]; simp)

/-- The operation of the first line does not exist, and that of the third is behind a label; the
jump goes to a label that a colon declares nowhere. A malformed literal comes later. -/
theorem assemble_diagnoses_of_missing_label :
    let source := "  XYZ #1 ; \u00e9\n\nloop: JMP nowhere\nLDM #+5\n".toList
    let e : AssemblyError := .unresolvedLabel "nowhere".toList 3 ⟨25, 7⟩
    Text.byteLength source < 2 ^ 64 ∧ assemble source = .error e ∧
      FirstFault (lines source) e ∧ e.Locates source := by
  have failed : assemble "  XYZ #1 ; \u00e9\n\nloop: JMP nowhere\nLDM #+5\n".toList =
      .error (.unresolvedLabel "nowhere".toList 3 ⟨25, 7⟩) := by decide +kernel
  intro source e
  have fits : Text.byteLength source < 2 ^ 64 := by decide
  obtain ⟨_, first, locates⟩ := assemble_diagnoses fits
  exact ⟨fits, failed, (first e).mp failed, locates e failed⟩

end AccumulatorMachine
