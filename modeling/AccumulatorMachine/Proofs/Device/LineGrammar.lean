import AccumulatorMachine.Device.LineReader
import AccumulatorMachine.Proofs.Numeral.Denotes
import AccumulatorMachine.Proofs.Source.Row
import AccumulatorMachine.Proofs.Text.Utf8
import AccumulatorMachine.Proofs.Word.Width
import Mathlib.Data.List.TakeWhile

/-! The grammar of a line of input: which bytes are a text, which text is a number, and what is
told about a line that is none. It is said without reading the line, and reading agrees with it. -/
namespace AccumulatorMachine

namespace Text

open Source.Token (Stops dropWhile_append_of_stops stops_dropWhile)

/-- A text and what is left of it without the blanks at its ends. -/
structure Trimmed (text core : List Char) : Prop where
  around : ∃ before after, text = before ++ (core ++ after) ∧
    (∀ c ∈ before, isBlank c = true) ∧ ∀ c ∈ after, isBlank c = true
  first : ∀ c, core.head? = some c → isBlank c = false
  last : ∀ c, core.getLast? = some c → isBlank c = false

theorem trimmed_trim (text : List Char) : Trimmed text (trim text) := by
  have left := List.takeWhile_append_dropWhile (p := isBlank) (l := text)
  have right := List.takeWhile_append_dropWhile (p := isBlank)
    (l := (text.dropWhile isBlank).reverse)
  generalize dropped : text.dropWhile isBlank = middle at left right
  have whole : middle = trim text ++ (middle.reverse.takeWhile isBlank).reverse := by
    rw [trim, dropped, ← List.reverse_append, right, List.reverse_reverse]
  refine ⟨⟨_, _, by rw [← whole, left], ?_, ?_⟩, ?_, ?_⟩
  · intro c member
    exact List.mem_takeWhile_imp member
  · intro c member
    exact List.mem_takeWhile_imp (List.mem_reverse.mp member)
  · -- What is first after trimming was first before the blanks at the end went.
    intro c first
    have stops : Stops isBlank middle := dropped ▸ stops_dropWhile isBlank text
    apply stops
    rw [whole, List.head?_append, first, Option.some_or]
  · intro c last
    rw [trim, List.getLast?_reverse] at last
    exact stops_dropWhile isBlank _ c last

/-- Trimming leaves what is between the blanks, whatever it is. -/
theorem trim_eq_iff {text core : List Char} : trim text = core ↔ Trimmed text core := by
  constructor
  · rintro rfl
    exact trimmed_trim text
  · rintro ⟨⟨before, after, rfl, left, right⟩, first, last⟩
    cases core with
    | nil =>
      have blank : (before ++ ([] ++ after)).dropWhile isBlank = [] := by
        rw [List.dropWhile_eq_nil_iff]
        intro c member
        exact (List.mem_append.mp member).elim (left c) (right c)
      rw [trim, blank]
      rfl
    | cons c rest =>
      have stops : Stops isBlank (c :: rest ++ after) := by
        rintro _ ⟨⟩
        exact first c rfl
      have stops' : Stops isBlank (c :: rest).reverse := by
        intro d final
        rw [List.head?_reverse] at final
        exact last d final
      have right' : ∀ c ∈ after.reverse, isBlank c = true := by
        intro c member
        exact right c (List.mem_reverse.mp member)
      rw [trim, dropWhile_append_of_stops left stops, List.reverse_append,
        dropWhile_append_of_stops right' stops', List.reverse_reverse]

end Text

namespace LineReader

open Numeral (Denotes)

/-- What may stand before the digits of a number, and the base of the digits after it. -/
def openings : List (List Char × Nat) :=
  [([], 10), (['0', 'x'], 16), (['0', 'b'], 2)]

theorem decimal_mem_openings : ([], 10) ∈ openings := by decide

theorem hexadecimal_mem_openings : (['0', 'x'], 16) ∈ openings := by decide

theorem binary_mem_openings : (['0', 'b'], 2) ∈ openings := by decide

/-- Digits of a number, with a plus sign in front or none. -/
def Digits (base : Nat) (text : List Char) (n : Nat) : Prop :=
  ∃ plus digits, text = plus ++ digits ∧ (plus = [] ∨ plus = ['+']) ∧ Denotes base digits n

/-- A number without a minus sign that a word has room for. -/
inductive Magnitude : List Char → Nat → Prop
  | mk (listed : (opening, base) ∈ openings) (digits : Digits base text n) (fits : n < 2 ^ 64) :
      Magnitude (opening ++ text) n

/-- A number on a line, which a minus sign may stand before. -/
inductive Writes : List Char → Int → Prop
  | plain (magnitude : Magnitude text n) : Writes text n
  | negative (magnitude : Magnitude text n) : Writes ('-' :: text) (-n)

theorem readBelow?_withoutPlus_eq_some_iff {base : Nat} (small : base ≤ 16) {text : List Char}
    {n : Nat} : Numeral.readBelow? UInt64.size base (Numeral.withoutPlus text) = some n ↔
      Digits base text n ∧ n < 2 ^ 64 := by
  rw [Numeral.readBelow?_eq_some_iff small]
  refine and_congr_left fun _ => ?_
  constructor
  · intro denotes
    simp only [Numeral.withoutPlus] at denotes
    split at denotes
    · exact ⟨['+'], _, rfl, .inr rfl, denotes⟩
    · exact ⟨[], _, rfl, .inl rfl, denotes⟩
  · rintro ⟨plus, digits, rfl, rfl | rfl, denotes⟩
    · simp only [Numeral.withoutPlus]
      split
      · next rest same =>
        rw [List.nil_append] at same
        exact absurd (same ▸ List.mem_cons_self) (denotes.sign_notMem small (.inl rfl))
      · exact denotes
    · exact denotes

/-- A decimal number does not open as one of another base. -/
theorem Digits.notMem_of_letter {text : List Char} {n : Nat} (digits : Digits 10 text n)
    {c : Char} (letter : c = 'x' ∨ c = 'b') : c ∉ text := by
  obtain ⟨plus, digits, rfl, sign, denotes⟩ := digits
  intro member
  obtain inPlus | inDigits := List.mem_append.mp member
  · obtain rfl | rfl := sign
    · cases inPlus
    · obtain rfl := List.mem_singleton.mp inPlus
      simp at letter
  · obtain ⟨d, below, written⟩ := denotes.exists_isDigit c inDigits
    rw [← Numeral.digitValue?_eq_some_iff (by omega)] at written
    obtain rfl | rfl := letter
    · cases written
      contradiction
    · cases written
      contradiction

theorem magnitude?_eq_some_iff {text : List Char} {n : Nat} :
    magnitude? text = some n ↔ Magnitude text n := by
  constructor
  · intro read
    simp only [magnitude?] at read
    split at read
    · obtain ⟨digits, fits⟩ := (readBelow?_withoutPlus_eq_some_iff (by decide)).mp read
      exact .mk hexadecimal_mem_openings digits fits
    · obtain ⟨digits, fits⟩ := (readBelow?_withoutPlus_eq_some_iff (by decide)).mp read
      exact .mk binary_mem_openings digits fits
    · obtain ⟨digits, fits⟩ := (readBelow?_withoutPlus_eq_some_iff (by decide)).mp read
      exact .mk decimal_mem_openings digits fits
  · rintro ⟨listed, digits, fits⟩
    simp only [openings, List.mem_cons, List.not_mem_nil, or_false, Prod.mk.injEq] at listed
    obtain ⟨rfl, rfl⟩ | ⟨rfl, rfl⟩ | ⟨rfl, rfl⟩ := listed
    · have read := (readBelow?_withoutPlus_eq_some_iff (by decide)).mpr ⟨digits, fits⟩
      rw [List.nil_append]
      simp only [magnitude?]
      split
      · exact absurd (by simp) (digits.notMem_of_letter (.inl rfl))
      · exact absurd (by simp) (digits.notMem_of_letter (.inr rfl))
      · exact read
    · exact (readBelow?_withoutPlus_eq_some_iff (by decide)).mpr ⟨digits, fits⟩
    · exact (readBelow?_withoutPlus_eq_some_iff (by decide)).mpr ⟨digits, fits⟩

/-- A minus sign is none of the characters that a magnitude opens with. -/
theorem Magnitude.head?_ne {text : List Char} {n : Nat} (magnitude : Magnitude text n) :
    text.head? ≠ some '-' := by
  obtain ⟨listed, digits, fits⟩ := magnitude
  simp only [openings, List.mem_cons, List.not_mem_nil, or_false, Prod.mk.injEq] at listed
  obtain ⟨rfl, rfl⟩ | ⟨rfl, rfl⟩ | ⟨rfl, rfl⟩ := listed
  · obtain ⟨plus, digits, rfl, rfl | rfl, denotes⟩ := digits
    · intro first
      exact denotes.sign_notMem (by decide) (.inr rfl) (List.mem_of_mem_head? first)
    · simp
  · simp
  · simp

theorem integer?_eq_some_iff {text : List Char} {z : Int} :
    integer? text = some z ↔ Writes text z := by
  constructor
  · intro read
    simp only [integer?] at read
    split at read
    · obtain ⟨_, lifted, rfl⟩ := Option.map_eq_some_iff.mp read
      obtain ⟨n, magnitude, ⟨⟩⟩ := Option.bind_eq_some_iff.mp lifted
      exact .negative (magnitude?_eq_some_iff.mp magnitude)
    · obtain ⟨_, lifted, rfl⟩ := Option.map_eq_some_iff.mp read
      obtain ⟨n, magnitude, ⟨⟩⟩ := Option.bind_eq_some_iff.mp lifted
      exact .plain (magnitude?_eq_some_iff.mp magnitude)
  · intro writes
    cases writes with
    | plain magnitude =>
      simp only [integer?]
      split
      · exact absurd rfl magnitude.head?_ne
      · rw [magnitude?_eq_some_iff.mpr magnitude]
        rfl
    | negative magnitude =>
      simp only [integer?, magnitude?_eq_some_iff.mpr magnitude]
      rfl

theorem isBlank_of_isDigit {base : Nat} (small : base ≤ 16) {c : Char} {d : Nat}
    (digit : Numeral.IsDigit base c d) : Text.isBlank c = false := by
  obtain ⟨below, written⟩ := digit
  have bound : d < 16 := by omega
  obtain rfl | rfl := written
  · interval_cases d <;> decide
  · interval_cases d <;> decide

theorem Writes.isBlank_eq_false {text : List Char} {z : Int} (writes : Writes text z) {c : Char}
    (member : c ∈ text) : Text.isBlank c = false := by
  have magnitude : ∀ {text n}, Magnitude text n → c ∈ text → Text.isBlank c = false := by
    rintro _ n ⟨listed, ⟨plus, digits, rfl, sign, denotes⟩, fits⟩ member
    simp only [openings, List.mem_cons, List.not_mem_nil, or_false, Prod.mk.injEq] at listed
    obtain inOpening | inPlus | inDigits := by simpa only [List.mem_append] using member
    · obtain ⟨rfl, rfl⟩ | ⟨rfl, rfl⟩ | ⟨rfl, rfl⟩ := listed
      · cases inOpening
      · obtain rfl | rfl : c = '0' ∨ c = 'x' := by simpa using inOpening
        · decide
        · decide
      · obtain rfl | rfl : c = '0' ∨ c = 'b' := by simpa using inOpening
        · decide
        · decide
    · obtain rfl | rfl := sign
      · cases inPlus
      · obtain rfl := List.mem_singleton.mp inPlus
        decide
    · obtain ⟨d, digit⟩ := denotes.exists_isDigit c inDigits
      exact isBlank_of_isDigit (by omega) digit
  cases writes with
  | plain written => exact magnitude written member
  | negative written =>
    obtain rfl | inText := List.mem_cons.mp member
    · decide
    · exact magnitude written inText

/-- Blanks around a number are trimmed, and nothing of the number. -/
theorem Writes.trimmed {core before after : List Char} {z : Int} (writes : Writes core z)
    (left : ∀ c ∈ before, Text.isBlank c = true) (right : ∀ c ∈ after, Text.isBlank c = true) :
    Text.Trimmed (before ++ (core ++ after)) core where
  around := ⟨before, after, rfl, left, right⟩
  first _ first := writes.isBlank_eq_false (List.mem_of_mem_head? first)
  last _ last := writes.isBlank_eq_false (List.mem_of_getLast? last)

/-- What a line gives: a word, or what is told about it. The text of a line without a number is
told as it is without the blanks at its ends. -/
inductive LineReads (line : List UInt8) : Except String UInt64 → Prop
  | notText (none : ∀ text, Text.Utf8.encode text ≠ line) :
      LineReads line (.error "stream did not contain valid UTF-8")
  | blank (encodes : Text.Utf8.encode text = line) (trimmed : Text.Trimmed text []) :
      LineReads line (.error "no input available")
  | number {word : UInt64} (encodes : Text.Utf8.encode text = line)
      (trimmed : Text.Trimmed text core) (writes : Writes core z)
      (residue : (word.toNat : Int) = z % 2 ^ 64) : LineReads line (.ok word)
  | notANumber (encodes : Text.Utf8.encode text = line) (trimmed : Text.Trimmed text core)
      (some : core ≠ []) (none : ∀ z, ¬Writes core z) :
      LineReads line (.error ("`" ++ String.ofList core ++ "` is not a number"))

theorem Writes.ne_nil {text : List Char} {z : Int} (writes : Writes text z) : text ≠ [] := by
  rintro rfl
  rw [← integer?_eq_some_iff] at writes
  contradiction

/-- A word is known by the integers that it stands for. -/
theorem ofInt_eq_iff {z : Int} {word : UInt64} :
    UInt64.ofInt z = word ↔ (word.toNat : Int) = z % 2 ^ 64 := by
  rw [← toNat_ofInt, Int.natCast_inj, UInt64.toNat_inj, eq_comm]

theorem lineReads_word (line : List UInt8) :
    LineReads line ((word line).mapError DeviceFault.message) := by
  rw [word]
  cases decoded : Text.Utf8.decode? line with
  | none =>
    refine .notText fun text encodes => ?_
    rw [Text.Utf8.decode?_eq_some_iff.mpr encodes] at decoded
    contradiction
  | some text =>
    have encodes := Text.Utf8.decode?_eq_some_iff.mp decoded
    have trimmed := Text.trimmed_trim text
    simp only [List.isEmpty_iff]
    generalize Text.trim text = core at trimmed
    split
    · next empty =>
      subst empty
      exact .blank encodes trimmed
    · next some =>
      cases read : integer? core with
      | some z =>
        exact .number encodes trimmed (integer?_eq_some_iff.mp read) (ofInt_eq_iff.mp rfl)
      | none =>
        refine .notANumber encodes trimmed some fun z writes => ?_
        rw [integer?_eq_some_iff.mpr writes] at read
        contradiction

/-- The ways to read a line exclude each other. -/
theorem word_eq_iff {line : List UInt8} {result : Except String UInt64} :
    (word line).mapError DeviceFault.message = result ↔ LineReads line result := by
  constructor
  · rintro rfl
    exact lineReads_word line
  · intro reads
    rw [word]
    cases reads with
    | notText none =>
      have undecoded : Text.Utf8.decode? line = .none := by
        rw [Option.eq_none_iff_forall_ne_some]
        intro text decoded
        exact none text (Text.Utf8.decode?_eq_some_iff.mp decoded)
      rw [undecoded]
      rfl
    | blank encodes trimmed =>
      simp only [Text.Utf8.decode?_eq_some_iff.mpr encodes, Text.trim_eq_iff.mpr trimmed]
      rfl
    | number encodes trimmed writes residue =>
      simp only [Text.Utf8.decode?_eq_some_iff.mpr encodes, Text.trim_eq_iff.mpr trimmed,
        List.isEmpty_iff, writes.ne_nil, if_false, integer?_eq_some_iff.mpr writes,
        ofInt_eq_iff.mpr residue]
      rfl
    | @notANumber text core encodes trimmed some none =>
      have unread : integer? core = .none := by
        rw [Option.eq_none_iff_forall_ne_some]
        intro z read
        exact none z (integer?_eq_some_iff.mp read)
      simp only [Text.Utf8.decode?_eq_some_iff.mpr encodes, Text.trim_eq_iff.mpr trimmed,
        List.isEmpty_iff, some, if_false, unread]
      rfl

/-- A number with blanks around it is read as its residue. -/
theorem Writes.word_eq {core before after : List Char} {z : Int} (writes : Writes core z)
    (left : ∀ c ∈ before, Text.isBlank c = true) (right : ∀ c ∈ after, Text.isBlank c = true) :
    word (Text.Utf8.encode (before ++ (core ++ after))) = .ok (UInt64.ofInt z) := by
  simp only [word, Text.Utf8.decode?_eq_some_iff.mpr rfl,
    Text.trim_eq_iff.mpr (writes.trimmed left right), List.isEmpty_iff, writes.ne_nil, if_false,
    integer?_eq_some_iff.mpr writes]

/-- A sign is nothing that a number needs. -/
theorem Magnitude.of_denotes {opening digits : List Char} {base n : Nat}
    (listed : (opening, base) ∈ openings) (denotes : Denotes base digits n) (fits : n < 2 ^ 64) :
    Magnitude (opening ++ digits) n :=
  .mk listed ⟨[], digits, rfl, .inl rfl, denotes⟩ fits

/-- A word without a sign and with blanks around it is read as it is. -/
theorem Magnitude.word_eq {text before after : List Char} {word : UInt64}
    (magnitude : Magnitude text word.toNat) (left : ∀ c ∈ before, Text.isBlank c = true)
    (right : ∀ c ∈ after, Text.isBlank c = true) :
    LineReader.word (Text.Utf8.encode (before ++ (text ++ after))) = .ok word := by
  rw [(Writes.plain magnitude).word_eq left right, ofInt_toNat]

end LineReader

end AccumulatorMachine
