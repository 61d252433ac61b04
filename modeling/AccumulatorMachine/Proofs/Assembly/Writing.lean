import AccumulatorMachine.Proofs.Assembly.Meaning
import AccumulatorMachine.Proofs.Numeral.Written
import AccumulatorMachine.Proofs.Source.Row

/-! Programs written as source text. A row writes one instruction or none: a mnemonic with a
hexadecimal number, a label alone for the instruction without effect, or nothing but blanks
and a comment. Assembling the rows of a program gives the program back, whatever its layout. -/
namespace AccumulatorMachine

namespace Source

/-- The character is not blank, not a semicolon and not a control character. -/
def IsVisible (c : Char) : Prop :=
  0x21 ≤ c.toNat ∧ c.toNat ≤ 0x7E ∧ c ≠ ';'

theorem IsVisible.isWordChar {c : Char} (visible : IsVisible c) : Token.isWordChar c = true := by
  obtain ⟨low, high, other⟩ := visible
  simp [Token.isWordChar, Text.isBlank_of_visible low high, other]

theorem isVisible_of_isAlpha {c : Char} (letter : c.isAlpha = true) : IsVisible c := by
  have codes : 65 ≤ c.toNat ∧ c.toNat ≤ 90 ∨ 97 ≤ c.toNat ∧ c.toNat ≤ 122 := by
    obtain upper | lower := Bool.or_eq_true_iff.mp letter
    · exact .inl (of_decide_eq_true upper)
    · obtain ⟨low, high⟩ := Bool.and_eq_true_iff.mp lower
      exact .inr ⟨of_decide_eq_true low, of_decide_eq_true high⟩
  refine ⟨by omega, by omega, ?_⟩
  rintro rfl
  have semicolon : (';' : Char).toNat = 59 := rfl
  omega

theorem isVisible_of_isDigit {c : Char} {d : Nat} (digit : Numeral.IsDigit 16 c d) :
    IsVisible c := by
  obtain ⟨below, written⟩ := digit
  rcases written with rfl | rfl
  · interval_cases d <;> exact ⟨by decide, by decide, by decide⟩
  · interval_cases d <;> exact ⟨by decide, by decide, by decide⟩

/-- Only letters differ from their capitals. -/
theorem eq_toUpper_or_isAlpha (c : Char) : c.toUpper = c ∨ c.isAlpha = true := by
  by_cases small : 'a'.val ≤ c.val ∧ c.val ≤ 'z'.val
  · obtain ⟨low, high⟩ := small
    have lower : c.isLower = true :=
      Bool.and_eq_true_iff.mpr ⟨decide_eq_true low, decide_eq_true high⟩
    exact .inr (Bool.or_eq_true_iff.mpr (.inr lower))
  · exact .inl (dif_neg small)

theorem mem_mnemonic {op : Opcode} {c : Char} (member : c ∈ op.mnemonic.toList) :
    c.isAlpha = true ∨ c = '_' := by
  have all : op.mnemonic.toList.all (fun c => c.isAlpha || c == '_') = true := by
    cases op <;> decide
  simpa using List.all_eq_true.mp all c member

/-- The letters of a mnemonic are visible in any case, and none of them is a colon. -/
theorem mem_sameLetters {op : Opcode} {name : List Char}
    (same : SameLetters name op.mnemonic.toList) {c : Char} (member : c ∈ name) :
    IsVisible c ∧ c ≠ ':' := by
  have capital : c.toUpper ∈ op.mnemonic.toList := by
    rw [sameLetters_mnemonic_iff.mp same]
    exact List.mem_map_of_mem member
  have known : c.isAlpha = true ∨ c = '_' := by
    rcases eq_toUpper_or_isAlpha c with same | letter
    · rw [same] at capital
      exact mem_mnemonic capital
    · exact .inl letter
  rcases known with letter | rfl
  · refine ⟨isVisible_of_isAlpha letter, ?_⟩
    rintro rfl
    contradiction
  · exact ⟨⟨by decide, by decide, by decide⟩, by decide⟩

theorem isWord_mnemonic {op : Opcode} {name : List Char}
    (same : SameLetters name op.mnemonic.toList) : IsWord name := by
  constructor
  · rintro rfl
    have spelled : op.mnemonic.toList.map Char.toUpper ≠ [] := by
      cases op <;> decide
    exact spelled same.symm
  · intro c member
    exact (mem_sameLetters same member).1.isWordChar

theorem isWord_numeral {mark : Char} (visible : IsVisible mark) {base : Nat} (small : base ≤ 16)
    {digits : List Char} {n : Nat} (denotes : Numeral.Denotes base digits n) :
    IsWord (mark :: digits) := by
  constructor
  · exact List.cons_ne_nil _ _
  · intro c member
    rcases List.mem_cons.mp member with rfl | member
    · exact visible.isWordChar
    · obtain ⟨d, below, written⟩ := denotes.exists_isDigit c member
      exact (isVisible_of_isDigit ⟨Nat.lt_of_lt_of_le below small, written⟩).isWordChar

theorem isWord_declaration {name : List Char} (letters : ∀ c ∈ name, c.isAlpha = true) :
    IsWord (name ++ [':']) := by
  constructor
  · simp
  · intro c member
    rcases List.mem_append.mp member with inName | colon
    · exact (isVisible_of_isAlpha (letters c inName)).isWordChar
    · obtain rfl := List.mem_singleton.mp colon
      decide

/-- The words that write an instruction: a mnemonic and a hexadecimal number, or the
declaration of a label. No words write none. -/
inductive Writes : List (List Char) → Program → Prop
  | silent : Writes [] []
  | operation {op : Opcode} {word : UInt64} (other : op ≠ .pass)
      (mnemonic : SameLetters name op.mnemonic.toList)
      (operand : Numeral.Denotes 16 digits word.toNat) :
      Writes [name, '&' :: digits] [⟨op.code, word⟩]
  | label (named : name ≠ []) (letters : ∀ c ∈ name, c.isAlpha = true) :
      Writes [name ++ [':']] [⟨0x07, 0⟩]

theorem Remark.stops {z : List Char} (remark : Remark z) : Token.Stops Token.isWordChar z := by
  intro c first
  cases remark with
  | none => contradiction
  | comment inside =>
    cases first
    decide

/-- A word stops at a gap, or at what comes right behind it. -/
theorem Gap.stops_append {b rest : List Char} (gap : Gap b)
    (behind : b = [] → Token.Stops Token.isWordChar rest) :
    Token.Stops Token.isWordChar (b ++ rest) := by
  cases b with
  | nil => exact behind rfl
  | cons d others =>
    intro c first
    cases first
    have blank := (gap d List.mem_cons_self).1
    simp [Token.isWordChar, blank]

theorem linkedOpcode_of_sameLetters {op : Opcode} {s : Statement} {name : List Char}
    (other : op ≠ .pass) (same : SameLetters name op.mnemonic.toList) (operand : List Char)
    (spelled : s.mnemonic = fullMnemonic name operand) : s.linkedOpcode = op.code := by
  have capitals := sameLetters_mnemonic_iff.mp same
  have long : ¬shortMnemonics.any (·.toList == name.map Char.toUpper) = true := by
    rw [← capitals]
    cases op <;> decide
  have some : ¬name.isEmpty = true := by
    rw [List.isEmpty_iff]
    exact (isWord_mnemonic same).ne_nil
  have found := Opcode.ofMnemonic?_mnemonic other
  have spelling : op.mnemonic.toList.map Char.toUpper = name.map Char.toUpper := same.symm
  rw [Opcode.ofMnemonic?, spelling] at found
  rw [Statement.linkedOpcode, spelled, fullMnemonic, if_neg long, if_neg some, Opcode.encode,
    Opcode.ofMnemonic?, found]
  rfl

theorem ofToken_hexadecimal {digits : List Char} {word : UInt64}
    (denotes : Numeral.Denotes 16 digits word.toNat) :
    Operand.ofToken ('&' :: digits) = .value word := by
  have read : Numeral.readBelow? UInt64.size 16 digits = some word.toNat :=
    (Numeral.readBelow?_eq_some_iff (Nat.le_refl 16)).mpr ⟨denotes, word.toNat_lt⟩
  have value : LiteralKind.hexadecimal.value? digits = some word := by
    rw [LiteralKind.value?, read, Option.map_some, UInt64.ofNat_toNat]
  simp [Operand.ofToken, LiteralKind.of?, value]

theorem Statement.link_of_value {s : Statement} {word : UInt64}
    (value : s.operand = .value word) (labels : LabelTable) :
    s.link labels = .ok ⟨s.linkedOpcode, word⟩ := by
  rw [link, linkedOperand, value]
  rfl

/-- A line takes its fields from the first words there are. -/
theorem Line.exists_of_words {fields : List Field} (full : fields ≠ []) (number : Nat) :
    ∃ line, ofWords? number fields = some line ∧
      line.first.text = (fields.map Field.text).getD 0 [] ∧
      line.second.text = (fields.map Field.text).getD 1 [] ∧
      line.third.text = (fields.map Field.text).getD 2 [] := by
  match fields with
  | [] => exact absurd rfl full
  | [a] => exact ⟨_, rfl, rfl, rfl, rfl⟩
  | [a, b] => exact ⟨_, rfl, rfl, rfl, rfl⟩
  | a :: b :: c :: others =>
    obtain ⟨last, found⟩ : ∃ last, (a :: b :: c :: others).getLast? = some last :=
      Option.isSome_iff_exists.mp (by simp)
    simp only [ofWords?, found]
    exact ⟨_, rfl, rfl, rfl, rfl⟩

theorem LaidOut.ofSegment? {row : List Char} (laidOut : LaidOut [] row) (number offset : Nat) :
    Line.ofSegment? number offset row = none := by
  have none := List.map_eq_nil_iff.mp (laidOut.words offset)
  rw [Line.ofSegment?, none]
  rfl

theorem LaidOut.exists_line {texts : List (List Char)} {row : List Char}
    (laidOut : LaidOut texts row) (full : texts ≠ []) (number offset : Nat) :
    ∃ line, Line.ofSegment? number offset row = some line ∧
      line.first.text = texts.getD 0 [] ∧ line.second.text = texts.getD 1 [] ∧
      line.third.text = texts.getD 2 [] := by
  have read := laidOut.words offset
  have some : Source.words offset (Token.scan row) ≠ [] := by
    intro none
    rw [none] at read
    exact full read.symm
  rw [← read]
  exact Line.exists_of_words some number

theorem link_operation {op : Opcode} {line : Line} {word : UInt64} (other : op ≠ .pass)
    (mnemonic : SameLetters line.first.text op.mnemonic.toList)
    (operand : Operand.ofToken line.second.text = .value word) (labels : LabelTable) :
    (Statement.ofLine line).link labels = .ok ⟨op.code, word⟩ := by
  have plain : declaredLabel? line.first.text = none := by
    rw [Option.eq_none_iff_forall_ne_some]
    intro declared declares
    obtain ⟨_, _, colon⟩ := declaredLabel?_eq_some_iff.mp declares
    have member : ':' ∈ line.first.text := by
      rw [colon]
      simp
    exact (mem_sameLetters mnemonic member).2 rfl
  have statement : Statement.ofLine line =
      .ofFields none line.first line.second line.number := by
    rw [Statement.ofLine, plain]
  have value : (Statement.ofLine line).operand = .value word := by
    rw [statement, ← operand]
    rfl
  have opcode : (Statement.ofLine line).linkedOpcode = op.code := by
    apply linkedOpcode_of_sameLetters other mnemonic line.second.text
    rw [statement]
    rfl
  rw [Statement.link_of_value value, opcode]

theorem link_label {line : Line} {name : List Char} (declares : line.Declares name)
    (second : line.second.text = []) (third : line.third.text = []) (labels : LabelTable) :
    (Statement.ofLine line).link labels = .ok ⟨0x07, 0⟩ := by
  have statement : Statement.ofLine line =
      .ofFields (some name) line.second line.third line.number := by
    rw [Statement.ofLine, declaredLabel?_first_iff.mpr declares]
  have value : (Statement.ofLine line).operand = .value 0 := by
    rw [statement]
    exact congrArg Operand.ofToken third
  have opcode : (Statement.ofLine line).linkedOpcode = 0x07 := by
    rw [Statement.linkedOpcode, statement, Statement.ofFields, second, third]
    rfl
  rw [Statement.link_of_value value, opcode]

/-- Words link to what they write, however they are laid out and whatever labels there are. -/
theorem Writes.links {texts : List (List Char)} {row : List Char} {written : Program}
    (writes : Writes texts written) (laidOut : LaidOut texts row) (number offset : Nat)
    (labels : LabelTable) :
    List.Forall₂ (fun line i => (Statement.ofLine line).link labels = .ok i)
      (Line.ofSegment? number offset row).toList written := by
  cases writes with
  | silent =>
    rw [laidOut.ofSegment?]
    exact .nil
  | operation other mnemonic operand =>
    obtain ⟨line, found, first, second, _⟩ :=
      laidOut.exists_line (by simp) number offset
    rw [List.getD_cons_zero] at first
    rw [List.getD_cons_succ, List.getD_cons_zero] at second
    have value := ofToken_hexadecimal operand
    rw [← first] at mnemonic
    rw [← second] at value
    rw [found]
    exact .cons (link_operation other mnemonic value labels) .nil
  | label named letters =>
    obtain ⟨line, found, first, second, third⟩ :=
      laidOut.exists_line (by simp) number offset
    rw [found]
    exact .cons (link_label ⟨named, letters, first⟩ second third labels) .nil

/-- A row of source and the instruction that it writes, if any: words with gaps between them,
gaps around them, and a remark at the end. -/
inductive Row : List Char → Program → Prop
  | silent (before : Gap a) (remark : Remark z) : Row (a ++ z) []
  | operation {op : Opcode} {word : UInt64} (other : op ≠ .pass)
      (mnemonic : SameLetters name op.mnemonic.toList)
      (operand : Numeral.Denotes 16 digits word.toNat) (before : Gap a) (between : Gap b)
      (apart : b ≠ []) (after : Gap c) (remark : Remark z) :
      Row (a ++ name ++ b ++ ('&' :: digits) ++ c ++ z) [⟨op.code, word⟩]
  | label (named : name ≠ []) (letters : ∀ c ∈ name, c.isAlpha = true) (before : Gap a)
      (after : Gap c) (remark : Remark z) :
      Row (a ++ (name ++ [':']) ++ c ++ z) [⟨0x07, 0⟩]

theorem Row.exists_laidOut {row : List Char} {written : Program} (writes : Row row written) :
    ∃ texts, Writes texts written ∧ LaidOut texts row := by
  cases writes with
  | silent before remark => exact ⟨_, .silent, .rest before remark⟩
  | operation other mnemonic operand before between apart after remark =>
    have mark : IsVisible '&' := ⟨by decide, by decide, by decide⟩
    have last := LaidOut.word between (isWord_numeral mark (Nat.le_refl 16) operand)
      (after.stops_append fun _ => remark.stops) (.rest after remark)
    have laidOut := LaidOut.word before (isWord_mnemonic mnemonic)
      (between.stops_append fun none => absurd none apart) last
    refine ⟨_, .operation other mnemonic operand, ?_⟩
    simpa only [List.append_assoc] using laidOut
  | label named letters before after remark =>
    have laidOut := LaidOut.word before (isWord_declaration letters)
      (after.stops_append fun _ => remark.stops) (.rest after remark)
    refine ⟨_, .label named letters, ?_⟩
    simpa only [List.append_assoc] using laidOut

/-- Rows of source, some of them silent, and the program that they write. -/
inductive Rows : List (List Char) → Program → Prop
  | nil : Rows [] []
  | cons (row : Row text written) (rest : Rows texts p) : Rows (text :: texts) (written ++ p)

/-- The first of the rows of a source has its first line, if it says something. -/
theorem exists_linesFrom_intercalate {row : List Char} (inside : '\n' ∉ row)
    (rows : List (List Char)) (number offset : Nat) :
    ∃ further, linesFrom number offset (['\n'].intercalate (row :: rows)) =
      (Line.ofSegment? number offset row).toList ++
        linesFrom (number + 1) further (['\n'].intercalate rows) := by
  cases rows with
  | nil =>
    have none : linesFrom (number + 1) 0 [] = [] := rfl
    exact ⟨0, by rw [List.intercalate_singleton, linesFrom_row _ _ inside, List.intercalate_nil,
      none, List.append_nil]⟩
  | cons next others =>
    exact ⟨_, by rw [List.intercalate_cons_cons, List.append_assoc, List.singleton_append,
      linesFrom_append _ _ inside]⟩

theorem Rows.links {rows : List (List Char)} {p : Program} (writes : Rows rows p)
    (number offset : Nat) (labels : LabelTable) :
    List.Forall₂ (fun line i => (Statement.ofLine line).link labels = .ok i)
      (linesFrom number offset (['\n'].intercalate rows)) p := by
  induction writes generalizing number offset with
  | nil => exact .nil
  | @cons row written rows p first rest ih =>
    obtain ⟨texts, writes, laidOut⟩ := first.exists_laidOut
    obtain ⟨further, split⟩ :=
      exists_linesFrom_intercalate laidOut.newline_not_mem rows number offset
    rw [split]
    exact List.rel_append (writes.links laidOut number offset labels) (ih (number + 1) further)

end Source

open Source

/-- An instruction that source text can write: one of an operation with a mnemonic of its own,
or the one without effect as a label alone writes it. -/
inductive Instruction.Writable : Instruction → Prop
  | operation (op : Opcode) (other : op ≠ .pass) (word : UInt64) : Writable ⟨op.code, word⟩
  | pass : Writable ⟨0x07, 0⟩

/-- There is a row for every writable instruction. -/
theorem Instruction.Writable.exists_row {i : Instruction} (writable : i.Writable) :
    ∃ row, Row row [i] := by
  have none : Gap [] := by decide
  cases writable with
  | operation op other word =>
    have space : Gap [' '] := by decide
    exact ⟨_, .operation other rfl (Numeral.denotes_toDigits (by decide) word.toNat) none space
      (List.cons_ne_nil _ _) none .none⟩
  | pass =>
    have letters : ∀ c ∈ ['a'], c.isAlpha = true := by
      intro c member
      obtain rfl := List.mem_singleton.mp member
      rfl
    exact ⟨_, .label (List.cons_ne_nil _ _) letters none none .none⟩

theorem Program.exists_rows {p : Program} (writable : ∀ i ∈ p, i.Writable) :
    ∃ rows, Rows rows p := by
  induction p with
  | nil => exact ⟨[], .nil⟩
  | cons i rest ih =>
    obtain ⟨row, first⟩ := (writable i List.mem_cons_self).exists_row
    obtain ⟨rows, others⟩ := ih fun j member => writable j (List.mem_cons_of_mem i member)
    exact ⟨row :: rows, .cons first others⟩

/-- Every program of writable instructions can be written, and whatever rows write it, with
whatever gaps, remarks and silent rows, assembling them gives the program back. -/
theorem assemble_rows (p : Program) :
    ((∀ i ∈ p, i.Writable) → ∃ rows, Rows rows p) ∧
      ∀ rows, Rows rows p → assemble (['\n'].intercalate rows) = .ok p := by
  constructor
  · intro writable
    exact Program.exists_rows writable
  · intro rows writes
    rw [assemble, Assembly.link_eq_ok_iff, Assembly.ofSource, List.forall₂_map_left_iff]
    exact writes.links 1 0 _

/-- Mnemonics in both cases, leading zeros, tabs, wide and no-break spaces, a carriage return
that ends no row, a label that is never used, and remarks right behind a word. -/
theorem assemble_rows_of_mixed_layout :
    let rows := ["\tldm \t&00Ff ;load\r".toList, "".toList, "loop:\u00a0;&1".toList,
      "  ; only a remark".toList, "Add_Address\u2003&FFFFFFFFFFFFFFFF;".toList,
      "eNd &7".toList]
    let p : Program := [⟨0x00, 255⟩, ⟨0x07, 0⟩, ⟨0x20, 0xFFFFFFFFFFFFFFFF⟩, ⟨0x33, 7⟩]
    Rows rows p ∧ assemble (['\n'].intercalate rows) = .ok p ∧
      (∀ i ∈ p, i.Writable) ∧ ∃ rows, Rows rows p := by
  intro rows p
  have reads : ∀ {text n}, Numeral.read? 16 text = some n → Numeral.Denotes 16 text n :=
    (Numeral.read?_eq_some_iff (Nat.le_refl 16)).mp
  have load : Row "\tldm \t&00Ff ;load\r".toList [⟨Opcode.loadImmediate.code, 255⟩] := by
    have text : "\tldm \t&00Ff ;load\r".toList = ['\t'] ++ ['l', 'd', 'm'] ++ [' ', '\t'] ++
        ('&' :: ['0', '0', 'F', 'f']) ++ [' '] ++ (';' :: "load\r".toList) := by
      decide
    rw [text]
    exact .operation (by decide) (sameLetters_mnemonic_iff.mpr (by decide)) (reads (by decide))
      (by decide) (by decide) (by decide) (by decide) (.comment (by decide))
  have silent : Row "".toList [] := .silent (a := []) (by decide) .none
  have label : Row "loop:\u00a0;&1".toList [⟨0x07, 0⟩] := by
    have text : "loop:\u00a0;&1".toList =
        [] ++ (['l', 'o', 'o', 'p'] ++ [':']) ++ ['\u00a0'] ++ (';' :: "&1".toList) := by
      decide
    rw [text]
    exact .label (by decide) (List.all_eq_true.mp rfl) (by decide) (by decide)
      (.comment (by decide))
  have remark : Row "  ; only a remark".toList [] := by
    have text : "  ; only a remark".toList = [' ', ' '] ++ (';' :: " only a remark".toList) := by
      decide
    rw [text]
    exact .silent (by decide) (.comment (by decide))
  have add : Row "Add_Address\u2003&FFFFFFFFFFFFFFFF;".toList
      [⟨Opcode.addDirect.code, 0xFFFFFFFFFFFFFFFF⟩] := by
    have text : "Add_Address\u2003&FFFFFFFFFFFFFFFF;".toList = [] ++ "Add_Address".toList ++
        ['\u2003'] ++ ('&' :: "FFFFFFFFFFFFFFFF".toList) ++ [] ++ (';' :: []) := by
      decide
    rw [text]
    exact .operation (by decide) (sameLetters_mnemonic_iff.mpr (by decide)) (reads (by decide))
      (by decide) (by decide) (by decide) (by decide) (.comment (by decide))
  have stop : Row "eNd &7".toList [⟨Opcode.halt.code, 7⟩] := by
    have text : "eNd &7".toList =
        [] ++ ['e', 'N', 'd'] ++ [' '] ++ ('&' :: ['7']) ++ [] ++ [] := by
      decide
    rw [text]
    exact .operation (by decide) (sameLetters_mnemonic_iff.mpr (by decide)) (reads (by decide))
      (by decide) (by decide) (by decide) (by decide) .none
  have writes : Rows rows p := by
    have last := Rows.cons remark (.cons add (.cons stop .nil))
    have all := Rows.cons load (.cons silent (.cons label last))
    exact all
  have writable : ∀ i ∈ p, i.Writable := by
    intro i member
    simp only [p, List.mem_cons, List.not_mem_nil, or_false] at member
    rcases member with rfl | rfl | rfl | rfl
    · exact .operation .loadImmediate (by decide) _
    · exact .pass
    · exact .operation .addDirect (by decide) _
    · exact .operation .halt (by decide) _
  obtain ⟨written, assembled⟩ := assemble_rows p
  exact ⟨writes, assembled rows writes, writable, written writable⟩

end AccumulatorMachine
