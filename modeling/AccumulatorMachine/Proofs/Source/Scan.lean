import AccumulatorMachine.Source.Line

/-! The words of a line, read off from how it is laid out: words that blanks keep apart, then
perhaps a comment. Blanks only move what comes after them, a word is as long as it can be, and
nothing comes after a semicolon. -/
namespace AccumulatorMachine.Source

namespace Token

/-- What comes next does not go on with a token of some characters. -/
def Stops (goesOn : Char → Bool) (rest : List Char) : Prop :=
  ∀ c, rest.head? = some c → goesOn c = false

theorem takeWhile_append_of_stops {goesOn : Char → Bool} {text rest : List Char}
    (inside : ∀ c ∈ text, goesOn c = true) (stops : Stops goesOn rest) :
    (text ++ rest).takeWhile goesOn = text := by
  rw [List.takeWhile_append_of_pos inside]
  cases rest with
  | nil => simp
  | cons c others => simp [stops c rfl]

theorem dropWhile_append_of_stops {goesOn : Char → Bool} {text rest : List Char}
    (inside : ∀ c ∈ text, goesOn c = true) (stops : Stops goesOn rest) :
    (text ++ rest).dropWhile goesOn = rest := by
  rw [List.dropWhile_append_of_pos inside]
  cases rest with
  | nil => rfl
  | cons c others => simp [stops c rfl]

/-- A token reaches to the first character that it does not go on with. -/
theorem scan_append {c : Char} {text rest : List Char} {kind : TokenKind}
    {goesOn : Char → Bool} (opened : opens c = (kind, goesOn))
    (inside : ∀ d ∈ text, goesOn d = true) (stops : Stops goesOn rest) :
    scan (c :: text ++ rest) = ⟨kind, c :: text⟩ :: scan rest := by
  rw [List.cons_append, scan, opened]
  simp only [takeWhile_append_of_stops inside stops, dropWhile_append_of_stops inside stops]

theorem opens_of_isBlank {c : Char} (blank : Text.isBlank c = true) :
    opens c = (.blank, Text.isBlank) := by
  have other : c ≠ ';' := by
    rintro rfl
    contradiction
  rw [opens, if_neg other, if_pos blank]

theorem opens_of_isWordChar {c : Char} (goesOn : isWordChar c = true) :
    opens c = (.word, isWordChar) := by
  simp only [isWordChar, Bool.and_eq_true, Bool.not_eq_true', bne_iff_ne] at goesOn
  rw [opens, if_neg goesOn.2, goesOn.1]
  rfl

end Token

/-- A text without blanks and semicolons. -/
structure IsWord (text : List Char) : Prop where
  ne_nil : text ≠ []
  chars : ∀ c ∈ text, Token.isWordChar c = true

theorem words_scan_blank {c : Char} (blank : Text.isBlank c = true) (offset : Nat)
    (rest : List Char) :
    words offset (Token.scan (c :: rest)) = words (offset + c.utf8Size) (Token.scan rest) := by
  have opened := Token.opens_of_isBlank blank
  have token : Token.scan (c :: rest) = ⟨.blank, c :: rest.takeWhile Text.isBlank⟩ ::
      Token.scan (rest.dropWhile Text.isBlank) := by
    rw [Token.scan, opened]
  rw [token, words]
  cases rest with
  | nil => simp [Token.scan, words]
  | cons d others =>
    by_cases more : Text.isBlank d = true
    · rw [Token.scan, Token.opens_of_isBlank more, words]
      simp [more, Nat.add_assoc]
    · simp [more]

/-- Blanks in front only move the words. -/
theorem words_scan_blanks {blanks : List Char} (blank : ∀ c ∈ blanks, Text.isBlank c = true)
    (offset : Nat) (rest : List Char) :
    words offset (Token.scan (blanks ++ rest)) =
      words (offset + Text.byteLength blanks) (Token.scan rest) := by
  induction blanks generalizing offset with
  | nil => rfl
  | cons c others ih =>
    rw [List.cons_append, words_scan_blank (blank c List.mem_cons_self),
      ih fun d member => blank d (List.mem_cons_of_mem c member), Text.byteLength_cons,
      Nat.add_assoc]

theorem words_scan_word {word rest : List Char} (isWord : IsWord word)
    (stops : Token.Stops Token.isWordChar rest) (offset : Nat) :
    words offset (Token.scan (word ++ rest)) =
      ⟨word, offset⟩ :: words (offset + Text.byteLength word) (Token.scan rest) := by
  cases word with
  | nil => exact absurd rfl isWord.ne_nil
  | cons c text =>
    have opened := Token.opens_of_isWordChar (isWord.chars c List.mem_cons_self)
    rw [Token.scan_append opened
      (fun d member => isWord.chars d (List.mem_cons_of_mem c member)) stops,
      words]

theorem words_scan_comment (offset : Nat) (text : List Char) :
    words offset (Token.scan (';' :: text)) = [] := by
  rw [Token.scan, Token.opens, if_pos rfl, words]

/-- Blanks within a line. -/
def Gap (text : List Char) : Prop :=
  ∀ c ∈ text, Text.isBlank c = true ∧ c ≠ '\n'

instance (text : List Char) : Decidable (Gap text) :=
  List.decidableBAll (fun c => Text.isBlank c = true ∧ c ≠ '\n') text

/-- Nothing, or a comment within a line. -/
inductive Remark : List Char → Prop
  | none : Remark []
  | comment {text : List Char} (inside : '\n' ∉ text) : Remark (';' :: text)

/-- The layouts of a row of words in a line: blanks keep them apart and may stand around
them, and a remark may come last. -/
inductive LaidOut : List (List Char) → List Char → Prop
  | rest (gap : Gap blanks) (remark : Remark comment) : LaidOut [] (blanks ++ comment)
  | word (gap : Gap blanks) (isWord : IsWord word) (stops : Token.Stops Token.isWordChar rest)
      (others : LaidOut texts rest) : LaidOut (word :: texts) (blanks ++ (word ++ rest))

/-- What a layout is made of is read from it, wherever it stands. -/
theorem LaidOut.words {texts : List (List Char)} {line : List Char}
    (laidOut : LaidOut texts line) (offset : Nat) :
    (words offset (Token.scan line)).map Field.text = texts := by
  induction laidOut generalizing offset with
  | rest gap remark =>
    rw [words_scan_blanks fun c member => (gap c member).1]
    cases remark with
    | none =>
      rw [Token.scan]
      rfl
    | comment inside => rw [words_scan_comment, List.map_nil]
  | word gap isWord stops others ih =>
    rw [words_scan_blanks fun c member => (gap c member).1, words_scan_word isWord stops,
      List.map_cons, ih]

theorem Token.Stops.append_newline {rest : List Char} (stops : Token.Stops Token.isWordChar rest) :
    Token.Stops Token.isWordChar (rest ++ ['\n']) := by
  intro c first
  cases rest with
  | cons d others => exact stops c first
  | nil =>
    cases first
    decide

/-- The newline after a layout says nothing. -/
theorem LaidOut.words_append_newline {texts : List (List Char)} {line : List Char}
    (laidOut : LaidOut texts line) (offset : Nat) :
    Source.words offset (Token.scan (line ++ ['\n'])) =
      Source.words offset (Token.scan line) := by
  induction laidOut generalizing offset with
  | rest gap remark =>
    rw [List.append_assoc, words_scan_blanks fun c member => (gap c member).1,
      words_scan_blanks fun c member => (gap c member).1]
    cases remark with
    | none =>
      rw [List.nil_append, words_scan_blank Text.isBlank_newline, Token.scan]
      rfl
    | comment inside => rw [List.cons_append, words_scan_comment, words_scan_comment]
  | word gap isWord stops others ih =>
    rw [List.append_assoc, words_scan_blanks fun c member => (gap c member).1, List.append_assoc,
      words_scan_word isWord stops.append_newline, ih,
      words_scan_blanks fun c member => (gap c member).1, words_scan_word isWord stops]

theorem LaidOut.newline_not_mem {texts : List (List Char)} {line : List Char}
    (laidOut : LaidOut texts line) : '\n' ∉ line := by
  have blanks : ∀ text, Gap text → '\n' ∉ text := by
    intro text gap member
    exact (gap _ member).2 rfl
  induction laidOut with
  | rest gap remark =>
    rw [List.mem_append]
    rintro (inGap | inRemark)
    · exact blanks _ gap inGap
    · cases remark with
      | none => contradiction
      | comment inside =>
        rcases List.mem_cons.mp inRemark with same | inText
        · contradiction
        · exact inside inText
  | word gap isWord stops others ih =>
    rw [List.mem_append, List.mem_append]
    rintro (inGap | inWord | inRest)
    · exact blanks _ gap inGap
    · have wordChar := isWord.chars _ inWord
      contradiction
    · exact ih inRest

end AccumulatorMachine.Source
