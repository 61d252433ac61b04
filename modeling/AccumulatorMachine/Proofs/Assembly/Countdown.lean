import AccumulatorMachine.Proofs.Assembly.Writing
import AccumulatorMachine.Proofs.Machine.Countdown
import AccumulatorMachine.Proofs.Source.Plain

/-! A loop that counts down, as source text and as instructions. The source goes back to a label
instead of an address, and it has no comparison, so that it leaves the flags as they were. -/
namespace AccumulatorMachine

namespace Source

/-- The words of the lines of a source that loads a number and counts it down to a label. How they
are laid out, and what stands between them that is not a word, does not matter. -/
def IsCountdown (source digits : List Char) : Prop :=
  (Plain.lines source).map Prod.snd =
    [["LDM".toList, '&' :: digits, []], ["top:".toList, "OUT".toList, []],
      ["SUB".toList, "#1".toList, []], ["JPN".toList, "top".toList, []], ["END".toList, [], []]]

/-- The plain text of the loop, whatever the numeral. -/
theorem isCountdown_text {digits : List Char} {n : Nat} (denotes : Numeral.Denotes 16 digits n) :
    IsCountdown ("LDM &".toList ++ digits ++ "\ntop: OUT\nSUB #1\nJPN top\nEND".toList) digits := by
  have same : SameLetters "LDM".toList Opcode.loadImmediate.mnemonic.toList :=
    sameLetters_mnemonic_iff.mpr rfl
  have load := isWord_mnemonic same
  have numeral : IsWord ('&' :: digits) :=
    isWord_numeral ⟨by decide, by decide, by decide⟩ (Nat.le_refl 16) denotes
  have first : Plain.words ("LDM &".toList ++ digits ++ ['\n']) =
      ["LDM".toList, '&' :: digits] := by
    have split : "LDM &".toList ++ digits ++ ['\n'] =
        "LDM".toList ++ ' ' :: ('&' :: digits ++ ['\n']) := rfl
    rw [split, Plain.words_word_blank load rfl, Plain.words_word_blank numeral rfl,
      Plain.words_nil]
  have inside : '\n' ∉ "LDM &".toList ++ digits := by
    intro member
    obtain member | member := List.mem_append.mp member
    · exact absurd member (by decide)
    · have wordChar := numeral.chars _ (List.mem_cons_of_mem '&' member)
      contradiction
  have others : ((Text.segments (· == '\n') "top: OUT\nSUB #1\nJPN top\nEND".toList).zipIdx
      2).filterMap Plain.row? = [(2, ["top:".toList, "OUT".toList, []]),
        (3, ["SUB".toList, "#1".toList, []]), (4, ["JPN".toList, "top".toList, []]),
        (5, ["END".toList, [], []])] := rfl
  have whole : "LDM &".toList ++ digits ++ "\ntop: OUT\nSUB #1\nJPN top\nEND".toList =
      "LDM &".toList ++ digits ++ '\n' :: "top: OUT\nSUB #1\nJPN top\nEND".toList := rfl
  rw [IsCountdown, Plain.lines, ← segments_eq_splitBy, whole,
    Text.segments_append_cons (separates_eq_false inside) rfl, List.zipIdx_cons,
    List.filterMap_cons, others, Plain.row?, first]
  rfl

/-- A line is its texts, but for where they stand. -/
theorem Line.texts_eq_iff {line : Line} {a b c : List Char} :
    line.texts.2 = [a, b, c] ↔
      ∃ number x y z, line = ⟨number, ⟨a, x⟩, ⟨b, y⟩, ⟨c, z⟩⟩ := by
  constructor
  · intro texts
    simp only [Line.texts, Line.fields, List.map_cons, List.map_nil, List.cons.injEq, and_true]
      at texts
    obtain ⟨rfl, rfl, rfl⟩ := texts
    exact ⟨line.number, line.first.offset, line.second.offset, line.third.offset, rfl⟩
  · rintro ⟨number, x, y, z, rfl⟩
    rfl

theorem map_texts_lines (source : List Char) :
    (lines source).map (fun line => line.texts.2) = (Plain.lines source).map Prod.snd := by
  rw [Plain.lines, ← segments_eq_splitBy, ← Line.texts_ofSegments, lines, List.map_map]
  rfl

end Source

open Source

theorem assemble_countdown {source digits : List Char} {k : UInt64}
    (written : IsCountdown source digits) (denotes : Numeral.Denotes 16 digits k.toNat) :
    assemble source = .ok (.countdown k false) := by
  have texts := (map_texts_lines source).trans written
  rw [assemble, Assembly.link_eq_ok_iff, Assembly.ofSource, List.forall₂_map_left_iff]
  generalize lines source = read at texts
  simp only [List.map_eq_cons_iff, List.map_eq_nil_iff, Line.texts_eq_iff] at texts
  obtain ⟨_, _, rfl, ⟨_, _, _, _, rfl⟩, _, _, rfl, ⟨_, _, _, _, rfl⟩, _, _, rfl,
    ⟨_, _, _, _, rfl⟩, _, _, rfl, ⟨_, _, _, _, rfl⟩, _, _, rfl, ⟨_, _, _, _, rfl⟩, rfl⟩ := texts
  have one : Operand.ofToken "#1".toList = .value 1 := by decide
  have subtracts : Opcode.encode (fullMnemonic "SUB".toList "#1".toList) =
      Opcode.subImmediate.code := by decide
  refine .cons ?load (.cons ?output (.cons ?subtract (.cons ?jump (.cons ?halt .nil))))
  case load =>
    exact link_operation (by decide) (sameLetters_mnemonic_iff.mpr rfl)
      (ofToken_hexadecimal denotes) _
  case output => rfl
  case subtract =>
    rw [Statement.link_of_value one]
    exact congrArg (fun code => Except.ok (Instruction.mk code 1)) subtracts
  case jump => rfl
  case halt => rfl

namespace Machine

/-- The accumulator has come to zero, and an output device has been given words and has taken
them. -/
structure PutsOut (m : Machine) (o : OutputDevice) (words : List UInt64) (last : Machine) :
    Prop where
  acc : last.register .acc = 0
  output : last.output = some { o with calls := o.calls ++ words.toArray }
  taken : last.taken = m.taken ++ words

variable {m : Machine} {o : OutputDevice}

theorem exists_putsOut (attached : m.output = some o) (accepts : o.AcceptsAll) (k : UInt64)
    (compares : Bool) :
    ∃ last, (∀ limit, (3 + compares.toNat) * m.width.rounds k.toNat + 2 ≤ limit →
        m.execute limit (.countdown k compares) =
          .finished last (.ok ⟨(3 + compares.toNat) * m.width.rounds k.toNat + 2, true⟩)) ∧
      m.PutsOut o (m.width.countdown (m.width.rounds k.toNat)) last ∧
      last.flags = m.flags.tested compares 0 := by
  obtain ⟨last, _, rfl, ended, acc, flags, output⟩ :=
    exists_end_of_countdown attached accepts k compares
  refine ⟨last, ended, ⟨UInt64.toNat_inj.mp acc, output, ?_⟩, flags⟩
  rw [taken, output, taken, attached]
  exact accepts.taken_called _

/-- On every machine whose output device accepts everything, a loop that counts a number down puts
out the number and all words below it down to one, once round the range of the width if it is zero
there, and halts. The program with a comparison makes four steps for each word and leaves the flags
as the last comparison sets them; the one that a source writes with a label makes three for each and
leaves the flags as they were. -/
theorem execute_countdown (attached : m.output = some o)
    (accepts : ∀ earlier word, o.reply earlier word = .ok ()) (k : UInt64) :
    ∃ words, CountsDown m.width k.toNat words ∧
      (∃ last,
        (∀ limit, 4 * m.width.rounds k.toNat + 2 ≤ limit →
          m.execute limit [.ofOpcode .loadImmediate k, .ofOpcode .output 0,
              .ofOpcode .subImmediate 1, .ofOpcode .compareImmediate 0,
              .ofOpcode .jumpIfNonzero 2, .ofOpcode .halt 0] =
            .finished last (.ok ⟨4 * m.width.rounds k.toNat + 2, true⟩)) ∧
        m.PutsOut o words last ∧
        last.flags = { m.flags with carry := false, negative := false, zero := true }) ∧
      ∀ source digits, IsCountdown source digits → Numeral.Denotes 16 digits k.toNat →
        ∃ p last, assemble source = .ok p ∧
          (∀ limit, 3 * m.width.rounds k.toNat + 2 ≤ limit →
            m.execute limit p = .finished last (.ok ⟨3 * m.width.rounds k.toNat + 2, true⟩)) ∧
          m.PutsOut o words last ∧ last.flags = m.flags := by
  refine ⟨_, countsDown_countdown m.width k.toNat, exists_putsOut attached accepts k true, ?_⟩
  intro source digits written denotes
  obtain ⟨last, ended, putsOut, flags⟩ := exists_putsOut attached accepts k false
  exact ⟨_, last, assemble_countdown written denotes, ended, putsOut, flags⟩

/-- On a machine of 8 bits, a number that keeps a two of its bits, and a source of another layout;
the flags that the loop leaves alone are set. -/
theorem execute_countdown_of_narrowed_number :
    let o := OutputDevice.recorder none
    let m : Machine :=
      { width := ⟨8, by decide, by decide⟩, output := some o,
        flags := { carry := true, negative := true } }
    let source := "\n    LDM &0a02 ; from two\ntop: OUT\n    SUB #1\n    JPN top\n    END\n".toList
    m.output = some o ∧ (∀ earlier word, o.reply earlier word = .ok ()) ∧
      IsCountdown source "0a02".toList ∧ Numeral.Denotes 16 "0a02".toList (0xA02 : UInt64).toNat ∧
      m.width.rounds (0xA02 : UInt64).toNat = 2 ∧
      ∃ words last p other, CountsDown m.width 0xA02 words ∧
        m.execute 10 [⟨0x00, 0xA02⟩, ⟨0x11, 0⟩, ⟨0x23, 1⟩, ⟨0x41, 0⟩, ⟨0x32, 2⟩, ⟨0x33, 0⟩] =
          .finished last (.ok ⟨10, true⟩) ∧
        m.PutsOut o words last ∧ last.flags = { zero := true } ∧
        assemble source = .ok p ∧ m.execute 8 p = .finished other (.ok ⟨8, true⟩) ∧
        m.PutsOut o words other ∧ other.flags = { carry := true, negative := true } := by
  intro o m source
  have written : IsCountdown
      "\n    LDM &0a02 ; from two\ntop: OUT\n    SUB #1\n    JPN top\n    END\n".toList
      "0a02".toList := by
    rw [IsCountdown]
    rfl
  have denotes : Numeral.Denotes 16 "0a02".toList (0xA02 : UInt64).toNat :=
    (Numeral.read?_eq_some_iff (Nat.le_refl 16)).mp (by decide)
  obtain ⟨words, countsDown, ⟨last, ended, putsOut, flags⟩, assembled⟩ :=
    execute_countdown (m := m) (o := o) rfl (fun _ _ => rfl) 0xA02
  obtain ⟨p, other, program, ended', putsOut', flags'⟩ := assembled _ _ written denotes
  have rounds : m.width.rounds (0xA02 : UInt64).toNat = 2 := by decide
  rw [rounds] at ended ended'
  exact ⟨rfl, fun _ _ => rfl, written, denotes, rounds, words, last, p, other, countsDown,
    ended 10 (by decide), putsOut, flags, program, ended' 8 (by decide), putsOut', flags'⟩

end Machine

end AccumulatorMachine
