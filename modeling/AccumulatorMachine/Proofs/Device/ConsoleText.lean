import AccumulatorMachine.Device.Console
import AccumulatorMachine.Proofs.Device.LineStream
import AccumulatorMachine.Proofs.Machine.History
import AccumulatorMachine.Proofs.Numeral.Written
import Mathlib.Algebra.Order.Floor.Div
import Mathlib.GroupTheory.GroupAction.Ring

/-! What the console shows can be read back. A word is shown on one line, whatever its character
is, and each of the three numbers on the line is read as the word again. So the lines of a run are
the words that it put out, and machines that get one number of each line as input find these words
in the same order. -/
namespace AccumulatorMachine

open Numeral (Denotes denotes_toDigits denotes_padded)

namespace Text

/-- A newline is escaped like other controls. -/
theorem newline_notMem_quoted (c : Char) : '\n' ∉ (quoted c).toList := by
  have escaped : '\n' ∉ (escape c).toList := by
    rw [escape.eq_def]
    split
    · decide
    · decide
    · decide
    · decide
    · decide
    · decide
    · next other _ _ =>
      split
      · have digits := (denotes_toDigits (by decide : 1 < 16) c.toNat).notMem (Nat.le_refl 16)
          (c := '\n') rfl
        simpa [Numeral.written] using digits
      · simpa [eq_comm] using other
  simpa [quoted] using escaped

end Text

namespace Console

/-- The first three of the parts that commas divide a line into, without what opens the line. -/
def parts (shown : List Char) : List (List Char) :=
  ((shown.drop 1).splitOn ',').take 3

/-- A line that shows a word: in hexadecimal, decimal and binary, with a digit for each four bits
of the width and for each bit, if the word is one of the width. -/
structure Shows (w : Width) (word : UInt64) (shown : List Char) : Prop where
  oneLine : '\n' ∉ shown
  opens : shown.head? = some '('
  numbers : ∃ hexadecimal decimal binary, parts shown =
      ['0' :: 'x' :: hexadecimal, ' ' :: decimal, ' ' :: '0' :: 'b' :: binary] ∧
    Denotes 16 hexadecimal word.toNat ∧ Denotes 10 decimal word.toNat ∧
    Denotes 2 binary word.toNat ∧
    (word.toNat < 2 ^ w.bits →
      hexadecimal.length = w.bits ⌈/⌉ 4 ∧ binary.length = w.bits)

variable {w : Width} {word : UInt64} {shown part : List Char}

/-- Each of the numbers is one as lines of input have it, behind a space or none. -/
theorem Shows.exists_magnitude (shows : Shows w word shown) (member : part ∈ parts shown) :
    ∃ spaces text, part = spaces ++ text ∧ (∀ c ∈ spaces, c = ' ') ∧
      LineReader.Magnitude text word.toNat := by
  obtain ⟨hexadecimal, decimal, binary, listed, denotes, denotes', denotes'', _⟩ := shows.numbers
  have space : ∀ c ∈ [' '], c = ' ' := List.forall_mem_singleton.mpr rfl
  rw [listed] at member
  simp only [List.mem_cons, List.not_mem_nil, or_false] at member
  obtain rfl | rfl | rfl := member
  · exact ⟨[], _, rfl, List.forall_mem_nil _,
      .of_denotes LineReader.hexadecimal_mem_openings denotes word.toNat_lt⟩
  · exact ⟨[' '], _, rfl, space,
      .of_denotes LineReader.decimal_mem_openings denotes' word.toNat_lt⟩
  · exact ⟨[' '], _, rfl, space,
      .of_denotes LineReader.binary_mem_openings denotes'' word.toNat_lt⟩

theorem Shows.word_part (shows : Shows w word shown) (member : part ∈ parts shown)
    {after : List Char} (blank : ∀ c ∈ after, Text.isBlank c = true) :
    LineReader.word (Text.Utf8.encode (part ++ after)) = .ok word := by
  obtain ⟨spaces, text, rfl, space, magnitude⟩ := shows.exists_magnitude member
  have left : ∀ c ∈ spaces, Text.isBlank c = true := by
    intro c member
    obtain rfl := space c member
    decide
  rw [List.append_assoc]
  exact magnitude.word_eq left blank

theorem Shows.newline_notMem_part (shows : Shows w word shown) (member : part ∈ parts shown) :
    '\n' ∉ part := by
  obtain ⟨spaces, text, rfl, space, magnitude⟩ := shows.exists_magnitude member
  intro newline
  obtain first | second := List.mem_append.mp newline
  · exact absurd (space _ first) (by decide)
  · have visible := (LineReader.Writes.plain magnitude).isBlank_eq_false second
    rw [Text.isBlank_newline] at visible
    contradiction

/-- The pieces of a line, the numbers one by one. -/
theorem toList_format (w : Width) (word : UInt64) :
    (format w word).toList =
      '(' :: ('0' :: 'x' :: (Numeral.padded 16 ((w.bits + 3) / 4) word.toNat).toList ++ ',' ::
        (' ' :: Nat.toDigits 10 word.toNat ++ ',' ::
          (' ' :: '0' :: 'b' :: (w.binary word).toList ++ ',' ::
            (" CHAR: ".toList ++ (Text.quoted (character word)).toList ++ [')'])))) := by
  simp [format]

/-- What stands before the first comma is the first part. -/
theorem splitOn_comma {text : List Char} (none : ',' ∉ text) (rest : List Char) :
    (text ++ ',' :: rest).splitOn ',' = text :: rest.splitOn ',' := by
  rw [List.splitOn_eq_splitOnP, List.splitOn_eq_splitOnP]
  apply List.splitOnP_append_cons_of_forall_mem
  · intro c member
    rw [beq_eq_false_iff_ne]
    rintro rfl
    exact none member
  · exact beq_self_eq_true ','

theorem shows_format (w : Width) (word : UInt64) : Shows w word (format w word).toList := by
  have hexadecimal := denotes_padded (by decide : 1 < 16) ((w.bits + 3) / 4) word.toNat
  have decimal := denotes_toDigits (by decide : 1 < 10) word.toNat
  have binary : Denotes 2 (w.binary word).toList word.toNat := denotes_padded (by decide) _ _
  rw [toList_format]
  refine ⟨?_, rfl, _, _, _, ?_, hexadecimal, decimal, binary, ?_⟩
  · have quoted := Text.newline_notMem_quoted (character word)
    have first := hexadecimal.notMem (Nat.le_refl 16) (c := '\n') rfl
    have second := decimal.notMem (by decide) (c := '\n') rfl
    have third := binary.notMem (by decide) (c := '\n') rfl
    simp [first, second, third, quoted]
  · have first := hexadecimal.notMem (Nat.le_refl 16) (c := ',') rfl
    have second := decimal.notMem (by decide) (c := ',') rfl
    have third := binary.notMem (by decide) (c := ',') rfl
    rw [parts, List.drop_one, List.tail_cons, splitOn_comma (by simpa using first),
      splitOn_comma (by simpa using second), splitOn_comma (by simpa using third)]
    rfl
  · intro fits
    have wide : 2 ^ w.bits ≤ 16 ^ ((w.bits + 3) / 4) := by
      rw [show 16 = 2 ^ 4 from rfl, ← pow_mul]
      exact Nat.pow_le_pow_right (by decide) (by omega)
    have some := w.min_le_bits
    have digits : w.bits ⌈/⌉ 4 = (w.bits + 3) / 4 := by
      rw [Nat.ceilDiv_eq_add_pred_div, Nat.add_sub_assoc (by decide)]
    rw [digits]
    exact ⟨Numeral.length_padded (by decide) (by omega) (by omega),
      Numeral.length_padded (by decide) (by omega) fits⟩

/-- Without a limit every word that is put out adds its line to the text. -/
theorem transcript_append_singleton {c : Console} (unlimited : c.capacity = none)
    (words : List UInt64) (word : UInt64) :
    c.transcript (words ++ [word]) = c.transcript words ++ (format c.width word ++ "\n") := by
  have fits := fits_sinkAfter unlimited words word
  rw [Console.fits, Bool.and_eq_true] at fits
  rw [transcript, sinkAfter, List.foldl_append, List.foldl_cons, List.foldl_nil, ← sinkAfter, put]
  simp only [fits.1, if_true, Text.Sink.text_offer, fits.2]
  rw [String.append_assoc, transcript]

theorem toList_transcript_append {c : Console} (unlimited : c.capacity = none)
    (earlier words : List UInt64) :
    (c.transcript (earlier ++ words)).toList = (c.transcript earlier).toList ++
      words.flatMap fun word => (format c.width word).toList ++ ['\n'] := by
  induction words using List.reverseRecOn with
  | nil => simp
  | append_singleton words word ih =>
    rw [← List.append_assoc, transcript_append_singleton unlimited, String.toList_append, ih,
      List.flatMap_append, List.flatMap_singleton, String.toList_append, List.append_assoc]
    rfl

/-- The lines of input that have one of the numbers of each shown line. -/
def Replays (w : Width) (texts : List (List Char)) (words : List UInt64) : Prop :=
  List.Forall₂ (fun text word => text ∈ parts (format w word).toList) texts words

variable {texts : List (List Char)} {words : List UInt64}

theorem Replays.newline_notMem (replays : Replays w texts words) :
    ∀ text ∈ texts, '\n' ∉ text := by
  induction replays with
  | nil => exact List.forall_mem_nil _
  | cons first _ ih =>
    exact List.forall_mem_cons.mpr ⟨(shows_format w _).newline_notMem_part first, ih⟩

/-- Reading such lines gives the words that were shown. -/
theorem Replays.answer (replays : Replays w texts words) {i : Nat} (found : words[i]? = some word) :
    (LineReader.ofStream (texts.flatMap fun text => Text.Utf8.encode (text ++ ['\n']))).answer i =
      .ok word := by
  obtain ⟨inside, rfl⟩ := List.getElem?_eq_some_iff.mp found
  have inside' : i < texts.length := by rwa [replays.length_eq]
  have shown : texts[i] ∈ parts (format w words[i]).toList := replays.get inside' inside
  have blank : ∀ c ∈ ['\n'], Text.isBlank c = true :=
    List.forall_mem_singleton.mpr Text.isBlank_newline
  have line : (texts.map fun text => Text.Utf8.encode (text ++ ['\n']))[i]? =
      some (Text.Utf8.encode (texts[i] ++ ['\n'])) := by
    rw [List.getElem?_map, List.getElem?_eq_getElem inside', Option.map_some]
  rw [(LineReader.takes_encode replays.newline_notMem).answer line]
  exact (shows_format w _).word_part shown blank

end Console

namespace Machine

variable {stores : List Store} {m : Machine} {earlier : Array UInt64}

/-- What a run shows that puts out these words on a console of its width without a limit, and what
becomes of it as input. -/
structure Shown (limit : Nat) (m : Machine) (p : Program) (earlier : Array UInt64)
    (words : List UInt64) : Prop where
  narrow : ∀ word ∈ words, word.toNat < 2 ^ m.width.bits
  succeeds : ∀ before : Machine, before ∈ m.fetchesOf .output limit p →
    ∃ after outcome, before.step = (after, .ok outcome)
  calls : (m.execute limit p).machine.output =
    some { ({ width := m.width } : Console).device with calls := earlier ++ words.toArray }
  text : (({ width := m.width } : Console).transcript (earlier ++ words.toArray).toList).toList =
    (({ width := m.width } : Console).transcript earlier.toList).toList ++
      words.flatMap fun word => (Console.format m.width word).toList ++ ['\n']
  /-- A machine of the same width reads the words in their order, one at each of its input
  instructions. -/
  replay : ∀ texts, Console.Replays m.width texts words → ∀ (m' : Machine) p' limit',
    m'.width = m.width →
    m'.input = some (LineReader.ofStream
      (texts.flatMap fun text => Text.Utf8.encode (text ++ ['\n']))) →
    ∀ (i : Nat) (before : Machine) word, (m'.fetchesOf .input limit' p')[i]? = some before →
      words[i]? = some word →
        ∃ after outcome, before.step = (after, .ok outcome) ∧ after.register .acc = word

/-- Every word in every width is shown on one line, and each of three numbers on it is read as the
word. On a console without a limit each output instruction of a run adds the line of its
accumulator. Input that has one number of each line gives the words back. -/
theorem execute_console (history : History stores m)
    (attached : m.output =
      some { ({ width := m.width } : Console).device with calls := earlier })
    (p : Program) (limit : Nat) :
    (∀ w word, Console.Shows w word (Console.format w word).toList ∧
      ∀ part ∈ Console.parts (Console.format w word).toList, ∀ after,
        (∀ c ∈ after, Text.isBlank c = true) →
          LineReader.word (Text.Utf8.encode (part ++ after)) = .ok word) ∧
      m.Shown limit p earlier
        ((m.fetchesOf .output limit p).map fun before => before.register .acc) := by
  have bounded : ∀ word ∈ (m.fetchesOf .output limit p).map fun before => before.register .acc,
      word.toNat < m.width.modulus := by
    intro word member
    obtain ⟨before, fetched, rfl⟩ := List.mem_map.mp member
    exact history.register_lt_of_mem_fetches (mem_fetches_of_mem_fetchesOf fetched) .acc
  refine ⟨?_, bounded, ?_, output_execute attached, ?_, ?_⟩
  · intro w word
    have shows := Console.shows_format w word
    exact ⟨shows, fun part member after blank => shows.word_part member blank⟩
  · intro before member
    obtain ⟨i, found⟩ := List.getElem?_of_mem member
    exact step_of_output (fetched?_of_mem_fetchesOf member) (output_of_fetched attached found) rfl
  · rw [Array.toList_append]
    exact Console.toList_transcript_append rfl earlier.toList _
  · intro texts replays m' p' limit' width attached' i before word fetched found
    have member := List.mem_of_getElem? fetched
    have answer := replays.answer found
    rw [← Nat.zero_add i] at answer
    obtain ⟨after, outcome, step, acc⟩ := step_of_input (fetched?_of_mem_fetchesOf member)
      (input_of_fetched attached' fetched) answer
    refine ⟨after, outcome, step, ?_⟩
    rw [acc, width_of_mem_fetches (mem_fetches_of_mem_fetchesOf member), width,
      m.width.truncate_of_lt (bounded word (List.mem_of_getElem? found)), UInt64.ofNat_toNat]

/-- The newline as a character, put out by a program on a machine of 8 bits and read back from the
decimal number on its line. -/
theorem execute_console_of_newline :
    let console : Console := { width := ⟨8, by decide, by decide⟩ }
    let m := ({ width := ⟨8, by decide, by decide⟩ } : Machine).attachOutput console.device
    let p : Program := [⟨0x00, 266⟩, ⟨0x11, 0⟩, ⟨0x33, 0⟩]
    History [] m ∧ m.output = some { console.device with calls := #[] } ∧
      console.transcript [10] = "(0x0a, 10, 0b00001010, CHAR: '\\n')\n" ∧
      Console.Replays m.width [" 10".toList] [10] ∧ m.Shown 3 p #[] [10] := by
  intro console m p
  have history : History [] m :=
    (History.built (s := { bits := 8 }) (t := ⟨.unlimited, .plain⟩) rfl).attachOutput _
  have attached : m.output = some { console.device with calls := #[] } := rfl
  have words : (m.fetchesOf .output 3 p).map (fun before => before.register .acc) = [10] := by
    decide +kernel
  have shown := (execute_console history attached p 3).2
  rw [words] at shown
  refine ⟨history, attached, by decide +kernel, .cons ?_ .nil, shown⟩
  have parts : Console.parts (Console.format m.width 10).toList =
      ["0x0a".toList, " 10".toList, " 0b00001010".toList] := by decide +kernel
  rw [parts]
  decide

end Machine

end AccumulatorMachine
