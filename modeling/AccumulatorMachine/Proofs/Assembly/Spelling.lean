import AccumulatorMachine.Proofs.Assembly.Writing
import AccumulatorMachine.Proofs.Device.LineStream
import AccumulatorMachine.Proofs.Machine.Stage
import AccumulatorMachine.Proofs.Source.Grammar

/-! The bases that a word can be written in, in source and on a line of input. A line takes every
word in every base. A token does so too, but for the decimal ones: they have a sign bit to spare,
and from 2 ^ 63 on they are malformed. Where both take the word, it does not matter to the
accumulator which of them it came from. -/
namespace AccumulatorMachine

open Numeral (Denotes denotes_toDigits)
open Source

/-- A token of source and a text on a line of input that write a word in the same base. -/
inductive Spelling (word : UInt64) : List Char → List Char → Prop
  | decimal (denotes : Denotes 10 digits word.toNat) : Spelling word ('#' :: digits) digits
  | hexadecimal (denotes : Denotes 16 digits word.toNat) :
      Spelling word ('&' :: digits) ('0' :: 'x' :: digits)
  | binary (denotes : Denotes 2 digits word.toNat) :
      Spelling word ('B' :: digits) ('0' :: 'b' :: digits)

namespace Spelling

variable {word : UInt64} {token line : List Char}

theorem magnitude (spelling : Spelling word token line) :
    LineReader.Magnitude line word.toNat := by
  cases spelling with
  | decimal denotes =>
    exact .of_denotes LineReader.decimal_mem_openings denotes word.toNat_lt
  | hexadecimal denotes =>
    exact .of_denotes LineReader.hexadecimal_mem_openings denotes word.toNat_lt
  | binary denotes =>
    exact .of_denotes LineReader.binary_mem_openings denotes word.toNat_lt

/-- The word that a token writes is the word that it is read as, unless it is decimal and needs
the highest bit. -/
theorem ofToken_eq (spelling : Spelling word token line) :
    Operand.ofToken token =
      if token.head? = some '#' ∧ 2 ^ 63 ≤ word.toNat then .malformed token else .value word := by
  cases spelling with
  | decimal denotes =>
    have looks : LooksLiteral ('#' :: line) := ⟨_, .decimal⟩
    split
    · next large =>
      refine ofToken_eq_malformed_iff.mpr ⟨rfl, looks, fun z written => ?_⟩
      have fits := ((literal_decimal_iff denotes).mp written).1
      omega
    · next small =>
      have fits : word.toNat < 2 ^ 63 := Nat.lt_of_not_le fun large => small ⟨rfl, large⟩
      exact (ofToken_eq_value_iff looks).mpr
        ⟨_, (literal_decimal_iff denotes).mpr ⟨fits, rfl⟩, ofInt_toNat word⟩
  | hexadecimal denotes =>
    rw [if_neg (by simp), ofToken_hexadecimal denotes]
  | @binary digits denotes =>
    obtain ⟨some, bits⟩ := Numeral.exists_denotes_two_iff.mp ⟨_, denotes⟩
    have looks : LooksLiteral ('B' :: digits) := ⟨_, .binary some bits⟩
    rw [if_neg (by simp)]
    exact (ofToken_eq_value_iff looks).mpr
      ⟨_, (literal_binary_iff denotes).mpr ⟨word.toNat_lt, rfl⟩, ofInt_toNat word⟩

theorem isWord (spelling : Spelling word token line) : IsWord token := by
  cases spelling with
  | decimal denotes | hexadecimal denotes | binary denotes =>
    exact isWord_numeral ⟨by decide, by decide, by decide⟩ (by decide) denotes

end Spelling

/-- A mnemonic and an operand on the only line of a source. -/
theorem assemble_operation {op : Opcode} (other : op ≠ .pass) {token : List Char} {word : UInt64}
    (isWord : IsWord token) (operand : Operand.ofToken token = .value word) :
    assemble (op.mnemonic.toList ++ ' ' :: token) = .ok [⟨op.code, word⟩] := by
  have none : Gap [] := by decide
  have space : Gap [' '] := by decide
  have same : SameLetters op.mnemonic.toList op.mnemonic.toList := rfl
  have stops : Token.Stops Token.isWordChar [] := by
    intro c first
    contradiction
  have last := LaidOut.word space isWord stops (.rest none .none)
  have laidOut := LaidOut.word none (isWord_mnemonic same)
    (space.stops_append fun none => by contradiction) last
  rw [List.append_nil, List.nil_append, List.singleton_append] at laidOut
  obtain ⟨only, found, first, second, _⟩ := laidOut.exists_line (by simp) 1 0
  rw [List.getD_cons_zero] at first
  rw [List.getD_cons_succ, List.getD_cons_zero] at second
  have mnemonic : SameLetters only.first.text op.mnemonic.toList := by rw [first]; rfl
  rw [← second] at operand
  rw [assemble, Assembly.link_eq_ok_iff, Assembly.ofSource, List.forall₂_map_left_iff, lines_eq,
    linesFrom_row 1 0 laidOut.newline_not_mem, found]
  exact .cons (link_operation other mnemonic operand _) .nil

namespace Machine

variable {m : Machine} {word : UInt64}

/-- Loading an operand leaves it in the accumulator, narrowed. -/
theorem execute_loadImmediate (m : Machine) (word : UInt64) :
    ∃ last, (last.register .acc).toNat = word.toNat % m.width.modulus ∧
      ∀ limit, 1 ≤ limit →
        m.execute limit [⟨Opcode.loadImmediate.code, word⟩] = .finished last (.ok ⟨1, false⟩) := by
  have code : (⟨Opcode.loadImmediate.code, word⟩ : Instruction).opcode =
    Opcode.loadImmediate.code := rfl
  obtain ⟨last, moves, ended⟩ :=
    execute_alone (m := m) code rfl (by decide) (fun same => by cases same)
  refine ⟨last, ?_, ended⟩
  have width : ((m.loaded [⟨Opcode.loadImmediate.code, word⟩]).about
      ⟨Opcode.loadImmediate.code, word⟩ .loadImmediate).width = m.width := m.width_loaded _
  have operand : (m.loaded [⟨Opcode.loadImmediate.code, word⟩]).width = m.width :=
    m.width_loaded _
  rw [moves.registers .acc (by decide), register_put, if_pos rfl, Width.toNat_truncate_natCast,
    Width.toNat_truncate_natCast, width, operand, Nat.mod_mod]

/-- Reading a word leaves it there as well. -/
theorem execute_input {d : InputDevice} (attached : m.input = some d) (answer : d.next = .ok word) :
    ∃ last, (last.register .acc).toNat = word.toNat % m.width.modulus ∧
      ∀ limit, 1 ≤ limit →
        m.execute limit [⟨Opcode.input.code, 0⟩] = .finished last (.ok ⟨1, false⟩) := by
  have found : ((m.loaded [⟨Opcode.input.code, 0⟩]).about
      ⟨Opcode.input.code, 0⟩ .input).input = some d := by
    rw [← attached, about, announced, loaded_frame]
    rfl
  have code : (⟨Opcode.input.code, 0⟩ : Instruction).opcode = Opcode.input.code := rfl
  obtain ⟨last, moves, ended⟩ :=
    execute_alone code (perform_input found answer _) (by decide) (fun same => by cases same)
  have width : ((m.loaded [⟨Opcode.input.code, 0⟩]).about
      ⟨Opcode.input.code, 0⟩ .input).width = m.width := m.width_loaded _
  refine ⟨last, ?_, ended⟩
  rw [moves.registers .acc (by decide), register_put, if_pos rfl, Width.toNat_truncate_natCast,
    width]

end Machine

/-- What a token and a line that write a word are read as, and what the accumulator is left with by
an instruction that loads the one and an instruction that reads the other. -/
structure Spelling.Agrees (word : UInt64) (token line : List Char) : Prop where
  operand : Operand.ofToken token =
    if token.head? = some '#' ∧ 2 ^ 63 ≤ word.toNat then .malformed token else .value word
  number : ∀ before after, (∀ c ∈ before, Text.isBlank c = true) →
    (∀ c ∈ after, Text.isBlank c = true) →
      LineReader.word (Text.Utf8.encode (before ++ (line ++ after))) = .ok word
  run : Operand.ofToken token = .value word → ∀ (m : Machine) stream taken left first,
    m.input = some { LineReader.ofStream stream with reads := first } →
    LineReader.Takes stream taken left → ∀ before after, (∀ c ∈ before, Text.isBlank c = true) →
    (∀ c ∈ after, Text.isBlank c = true) →
    taken[first]? = some (Text.Utf8.encode (before ++ (line ++ after))) →
      ∃ p, assemble ("LDM ".toList ++ token) = .ok p ∧ ∃ loaded typed,
        (∀ limit, 1 ≤ limit → m.execute limit p = .finished loaded (.ok ⟨1, false⟩)) ∧
        (∀ limit, 1 ≤ limit → m.execute limit [⟨Opcode.input.code, 0⟩] =
          .finished typed (.ok ⟨1, false⟩)) ∧
        loaded.register .acc = typed.register .acc ∧
        (typed.register .acc).toNat = word.toNat % 2 ^ m.width.bits

theorem Spelling.agrees {word : UInt64} {token line : List Char}
    (spelling : Spelling word token line) : Agrees word token line where
  operand := spelling.ofToken_eq
  number _ _ left right := spelling.magnitude.word_eq left right
  run value m stream taken left first attached takes before after blank blank' found := by
    have answer := takes.answer found
    rw [spelling.magnitude.word_eq blank blank'] at answer
    obtain ⟨loaded, acc, ended⟩ := m.execute_loadImmediate word
    obtain ⟨typed, acc', ended'⟩ := Machine.execute_input attached answer
    have other : Opcode.loadImmediate ≠ .pass := by decide
    exact ⟨_, assemble_operation other spelling.isWord value, loaded, typed, ended, ended',
      UInt64.toNat_inj.mp (acc.trans acc'.symm), acc'⟩

/-- Every word is written in each of the three bases, and whatever its digits are, the token and
the line that write it are read as it. Only a decimal token stops short: it is malformed from
2 ^ 63 on. -/
theorem spellings_agree (word : UInt64) :
    (Spelling word ('#' :: Nat.toDigits 10 word.toNat) (Nat.toDigits 10 word.toNat) ∧
      Spelling word ('&' :: Nat.toDigits 16 word.toNat)
        ('0' :: 'x' :: Nat.toDigits 16 word.toNat) ∧
      Spelling word ('B' :: Nat.toDigits 2 word.toNat)
        ('0' :: 'b' :: Nat.toDigits 2 word.toNat)) ∧
      ∀ token line, Spelling word token line → Spelling.Agrees word token line := by
  refine ⟨⟨.decimal ?_, .hexadecimal ?_, .binary ?_⟩, fun token line => Spelling.agrees⟩
  · exact denotes_toDigits (by decide) _
  · exact denotes_toDigits (by decide) _
  · exact denotes_toDigits (by decide) _

/-- The greatest word, in hexadecimal, on a machine of 8 bits. -/
theorem spellings_agree_of_greatest_word :
    let token := "&FFFFFFFFFFFFFFFF".toList
    let line := "0xFFFFFFFFFFFFFFFF".toList
    let stream := Text.Utf8.encode (line ++ ['\n'])
    let m : Machine :=
      { width := ⟨8, by decide, by decide⟩, input := some (LineReader.ofStream stream) }
    Spelling 0xFFFFFFFFFFFFFFFF token line ∧
      Operand.ofToken token = .value 0xFFFFFFFFFFFFFFFF ∧
      LineReader.word (Text.Utf8.encode line) = .ok 0xFFFFFFFFFFFFFFFF ∧
      LineReader.Takes stream [stream] [] ∧
      ∃ p, assemble ("LDM ".toList ++ token) = .ok p ∧ ∃ loaded typed,
        (∀ limit, 1 ≤ limit → m.execute limit p = .finished loaded (.ok ⟨1, false⟩)) ∧
        (∀ limit, 1 ≤ limit → m.execute limit [⟨Opcode.input.code, 0⟩] =
          .finished typed (.ok ⟨1, false⟩)) ∧
        loaded.register .acc = typed.register .acc ∧ (typed.register .acc).toNat = 255 := by
  intro token line stream m
  have digits : Denotes 16 "FFFFFFFFFFFFFFFF".toList (0xFFFFFFFFFFFFFFFF : UInt64).toNat :=
    (Numeral.read?_eq_some_iff (Nat.le_refl 16)).mp (by decide)
  have spelling : Spelling 0xFFFFFFFFFFFFFFFF token line := .hexadecimal digits
  have takes : LineReader.Takes stream [stream] [] := by
    have plain : ∀ text ∈ [line], '\n' ∉ text := List.forall_mem_singleton.mpr (by decide)
    have only := LineReader.takes_encode plain
    rwa [List.flatMap_singleton, List.map_singleton] at only
  obtain ⟨operand, number, run⟩ := (spellings_agree 0xFFFFFFFFFFFFFFFF).2 token line spelling
  rw [if_neg (by simp [token])] at operand
  have newline : ∀ c ∈ ['\n'], Text.isBlank c = true :=
    List.forall_mem_singleton.mpr Text.isBlank_newline
  refine ⟨spelling, operand, ?_, takes, ?_⟩
  · have read := number [] [] (List.forall_mem_nil _) (List.forall_mem_nil _)
    rwa [List.append_nil, List.nil_append] at read
  · obtain ⟨p, assembled, loaded, typed, ended, ended', same, acc⟩ :=
      run operand m stream _ _ 0 rfl takes [] ['\n'] (List.forall_mem_nil _) newline rfl
    exact ⟨p, assembled, loaded, typed, ended, ended', same, acc.trans (by decide)⟩

/-- The least word that a decimal token does not write, though a line does. -/
theorem malformed_of_highest_bit :
    Spelling 0x8000000000000000 "#9223372036854775808".toList "9223372036854775808".toList ∧
      Operand.ofToken "#9223372036854775808".toList =
        .malformed "#9223372036854775808".toList ∧
      LineReader.word (Text.Utf8.encode "9223372036854775808".toList) =
        .ok 0x8000000000000000 := by
  have digits : Denotes 10 "9223372036854775808".toList (0x8000000000000000 : UInt64).toNat :=
    (Numeral.read?_eq_some_iff (by decide)).mp (by decide)
  exact ⟨.decimal digits, by decide +kernel, by decide +kernel⟩

end AccumulatorMachine
