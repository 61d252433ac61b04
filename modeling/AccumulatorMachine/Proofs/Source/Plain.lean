import AccumulatorMachine.Proofs.Source.Line
import AccumulatorMachine.Proofs.Source.Place
import Mathlib.Data.List.SplitBy

/-! The lines of a source by a plain definition: the source is cut after its newlines, each piece
at its first semicolon, and what is left into runs of characters that are not blank. Scanning keeps
count of bytes besides, and what it counts are the places of the words. -/
namespace AccumulatorMachine.Source

namespace Plain

/-- The runs of characters that are not blank, in front of any semicolon. -/
def words (piece : List Char) : List (List Char) :=
  ((piece.takeWhile (· != ';')).splitOnP Text.isBlank).filter (· ≠ [])

/-- The number of a piece and its first three words, with empty ones for those that it lacks. -/
def row? : List Char × Nat → Option (Nat × List (List Char))
  | (piece, number) =>
    if words piece = [] then none else some (number, ((words piece).take 3).rightpad 3 [])

def lines (source : List Char) : List (Nat × List (List Char)) :=
  ((source.splitBy fun c _ => c != '\n').zipIdx 1).filterMap row?

theorem words_nil : words [] = [] := rfl

theorem words_comment (text : List Char) : words (';' :: text) = [] := rfl

theorem words_blank {c : Char} (blank : Text.isBlank c = true) (text : List Char) :
    words (c :: text) = words text := by
  have inside : (c != ';') = true := by
    rw [bne_iff_ne]
    rintro rfl
    contradiction
  rw [words, List.takeWhile_cons_of_pos (p := (· != ';')) inside,
    List.splitOnP_cons_eq_if_modifyHead, if_pos blank,
    List.filter_cons_of_neg (by simp), words]

theorem words_blanks {blanks : List Char} (blank : ∀ c ∈ blanks, Text.isBlank c = true)
    (text : List Char) : words (blanks ++ text) = words text := by
  induction blanks with
  | nil => rfl
  | cons c others ih =>
    obtain ⟨first, further⟩ := List.forall_mem_cons.mp blank
    rw [List.cons_append, words_blank first, ih further]

theorem words_word {word text : List Char} (isWord : IsWord word)
    (stops : Token.Stops Token.isWordChar text) : words (word ++ text) = word :: words text := by
  have chars : ∀ c ∈ word, Text.isBlank c = false ∧ (c != ';') = true := by
    intro c member
    have wordChar := isWord.chars c member
    rwa [Token.isWordChar, Bool.and_eq_true, Bool.not_eq_true'] at wordChar
  have kept : ∀ further, (word :: further).filter (· ≠ []) = word :: further.filter (· ≠ []) :=
    fun further => List.filter_cons_of_pos (decide_eq_true isWord.ne_nil)
  have notBlank : ∀ c ∈ word, Text.isBlank c = false := fun c member => (chars c member).1
  rw [words, List.takeWhile_append_of_pos fun c member => (chars c member).2]
  cases text with
  | nil =>
    rw [List.takeWhile_nil, List.append_nil, List.splitOnP_eq_singleton notBlank, kept]
    rfl
  | cons c rest =>
    by_cases comment : c = ';'
    · subst comment
      rw [List.takeWhile_cons_of_neg (by decide), List.append_nil,
        List.splitOnP_eq_singleton notBlank, kept]
      rfl
    · have blank : Text.isBlank c = true := by
        have stopped := stops c rfl
        simpa [Token.isWordChar, comment] using stopped
      rw [List.takeWhile_cons_of_pos (p := (· != ';')) (bne_iff_ne.mpr comment),
        List.splitOnP_append_cons_of_forall_mem notBlank c blank, kept, words_blank blank, words]

theorem words_word_blank {word text : List Char} {c : Char} (isWord : IsWord word)
    (blank : Text.isBlank c = true) : words (word ++ c :: text) = word :: words text := by
  have stops : Token.Stops Token.isWordChar (c :: text) := by
    intro d first
    cases first
    simp [Token.isWordChar, blank]
  rw [words_word isWord stops, words_blank blank]

end Plain

/-- Scanning finds the words of the plain definition, whatever characters the text has. -/
theorem words_scan_eq_plain (offset : Nat) (text : List Char) :
    (words offset (Token.scan text)).map Field.text = Plain.words text := by
  fun_induction Token.scan text generalizing offset with
  | case1 => rfl
  | case2 c rest kind goesOn opened ih =>
    have whole : c :: rest = c :: rest.takeWhile goesOn ++ rest.dropWhile goesOn := by
      rw [List.cons_append, List.takeWhile_append_dropWhile]
    have taken : ∀ d ∈ rest.takeWhile goesOn, goesOn d = true :=
      List.all_eq_true.mp List.all_takeWhile
    rw [Token.opens] at opened
    split at opened
    · next comment =>
      cases opened
      subst comment
      exact (Plain.words_comment rest).symm
    · next notComment =>
      split at opened
      · next blank =>
        cases opened
        rw [whole, Plain.words_blanks (List.forall_mem_cons.mpr ⟨blank, taken⟩)]
        exact ih _
      · next notBlank =>
        cases opened
        have isWord := isWord_takeWhile notComment notBlank rest
        rw [whole, Plain.words_word isWord (Token.stops_dropWhile _ rest), ← ih]
        rfl

/-- To cut after each newline is to cut wherever a newline is followed by anything. -/
theorem segments_eq_splitBy (source : List Char) :
    Text.segments (· == '\n') source = source.splitBy fun c _ => c != '\n' := by
  have goesOn : ∀ row : List Char, '\n' ∉ row →
      (row ++ ['\n']).Pairwise fun c _ => (c != '\n') = true := by
    intro row inside
    have other : ∀ c ∈ row, (c != '\n') = true := by
      intro c member
      rw [bne, separates_eq_false inside c member]
      rfl
    rw [List.pairwise_append]
    exact ⟨List.pairwise_of_forall_mem_list fun c member _ _ => other c member,
      List.pairwise_singleton _ _, fun c member _ _ => other c member⟩
  induction source using source_induction with
  | last row inside =>
    cases row with
    | nil => rfl
    | cons c rest =>
      have single := (List.pairwise_append.mp (goesOn _ inside)).1.isChain
      rw [Text.segments_of_forall (List.cons_ne_nil c rest) (separates_eq_false inside),
        List.splitBy_of_isChain (List.cons_ne_nil c rest) single]
  | next row rest inside ih =>
    have single := List.splitBy_of_isChain (List.concat_ne_nil '\n' row) (goesOn row inside).isChain
    rw [Text.segments_append_cons (separates_eq_false inside) rfl, ih,
      List.append_cons row '\n' rest, List.splitBy_append, single]
    · rfl
    · intro c last _ _
      rw [List.getLast?_concat] at last
      cases last
      rfl

/-- The fields of a line that are words. -/
def Line.present (line : Line) : List Field :=
  line.fields.filter (·.text ≠ [])

def Line.texts (line : Line) : Nat × List (List Char) :=
  (line.number, line.fields.map Field.text)

namespace Line

variable {number offset : Nat} {ws : List Field} {line : Line}

/-- A line has the first three of its words, and its padding starts where the last word stops. -/
theorem cases_of_ofWords? (full : ∀ f ∈ ws, f.text ≠ []) (read : ofWords? number ws = some line) :
    line.present = ws.take 3 ∧ ∀ f ∈ line.fields, f.text = [] →
      line.present.getLast?.map Field.stop = some f.offset := by
  obtain ⟨last, isLast, rfl⟩ := Option.map_eq_some_iff.mp read
  match ws, full with
  | [], _ => contradiction
  | [a], full =>
    cases isLast
    have first := full a List.mem_cons_self
    simp [present, fields, first]
  | [a, b], full =>
    cases isLast
    have first := full a (by simp)
    have second := full b (by simp)
    simp [present, fields, first, second]
  | a :: b :: c :: _, full =>
    have first := full a (by simp)
    have second := full b (by simp)
    have third := full c (by simp)
    simp [present, fields, first, second, third]

theorem texts_of_ofWords? (number : Nat) (ws : List Field) :
    (ofWords? number ws).map texts =
      if ws.map Field.text = [] then none
      else some (number, ((ws.map Field.text).take 3).rightpad 3 []) := by
  match ws with
  | [] => rfl
  | [a] => rfl
  | [a, b] => rfl
  | a :: b :: c :: rest =>
    obtain ⟨last, isLast⟩ := Option.isSome_iff_exists.mp
      (List.getLast?_isSome.mpr (List.cons_ne_nil a (b :: c :: rest)))
    rw [ofWords?, isLast]
    rfl

theorem texts_ofSegment? (number offset : Nat) (segment : List Char) :
    (ofSegment? number offset segment).map texts = Plain.row? (segment, number) := by
  rw [ofSegment?, texts_of_ofWords?, words_scan_eq_plain, Plain.row?]

theorem texts_ofSegments (number offset : Nat) (segments : List (List Char)) :
    (ofSegments number offset segments).map texts =
      (segments.zipIdx number).filterMap Plain.row? := by
  induction segments generalizing number offset with
  | nil => rfl
  | cons segment rest ih =>
    rw [ofSegments_cons, List.map_append, ih, List.zipIdx_cons, List.filterMap_cons,
      ← texts_ofSegment? number offset segment]
    cases ofSegment? number offset segment with
    | none => rfl
    | some line => rfl

end Line

theorem le_offset_of_mem_words {offset : Nat} {tokens : List Token} {f : Field}
    (member : f ∈ words offset tokens) :
    offset ≤ f.offset ∧ f.stop ≤ offset + Text.byteLength (tokens.flatMap (·.text)) := by
  obtain ⟨before, after, text, place⟩ := exists_place_of_mem_words member
  rw [Field.stop, text, Text.byteLength_append, Text.byteLength_append]
  omega

/-- Each word of a text stands behind those before it. -/
theorem ascending_words {offset : Nat} {tokens : List Token} (full : ∀ t ∈ tokens, t.text ≠ []) :
    (words offset tokens).Pairwise fun f g => f.offset < g.offset := by
  induction tokens generalizing offset with
  | nil => exact .nil
  | cons t rest ih =>
    obtain ⟨here, others⟩ := List.forall_mem_cons.mp full
    rw [words]
    cases t.kind with
    | comment => exact .nil
    | blank => exact ih others
    | word =>
      refine List.pairwise_cons.mpr ⟨?_, ih others⟩
      intro f member
      have behind := (le_offset_of_mem_words member).1
      have bytes := Text.byteLength_pos here
      change offset < f.offset
      omega

namespace Line

theorem present_of_ofSegment? {number offset : Nat} {segment : List Char} {line : Line}
    (read : ofSegment? number offset segment = some line) :
    line.present = (words offset (Token.scan segment)).take 3 ∧
      ∀ f ∈ line.fields, f.text = [] → line.present.getLast?.map Field.stop = some f.offset :=
  cases_of_ofWords? (fun _ => text_ne_nil_of_mem_words fun _ => Token.text_ne_nil_of_mem_scan) read

/-- The words of a line stand in its segment, in the order of their places. -/
theorem ascending_of_ofSegment? {number offset : Nat} {segment : List Char} {line : Line}
    (read : ofSegment? number offset segment = some line) :
    (line.present.Pairwise fun f g => f.offset < g.offset) ∧
      ∀ f ∈ line.present, offset ≤ f.offset ∧ f.offset < offset + Text.byteLength segment := by
  rw [(present_of_ofSegment? read).1]
  have full : ∀ t ∈ Token.scan segment, t.text ≠ [] := fun _ => Token.text_ne_nil_of_mem_scan
  refine ⟨(ascending_words full).sublist (List.take_sublist _ _), ?_⟩
  intro f member
  have word := List.mem_of_mem_take member
  obtain ⟨behind, inside⟩ := le_offset_of_mem_words word
  have bytes := Text.byteLength_pos (text_ne_nil_of_mem_words full word)
  rw [Token.flatMap_text_scan, Field.stop] at inside
  omega

/-- The words of all lines are in the order of their places. -/
theorem ascending_ofSegments (number offset : Nat) (segments : List (List Char)) :
    (((ofSegments number offset segments).flatMap present).Pairwise
      fun f g => f.offset < g.offset) ∧
      ∀ f ∈ (ofSegments number offset segments).flatMap present, offset ≤ f.offset := by
  induction segments generalizing number offset with
  | nil => exact ⟨.nil, List.forall_mem_nil _⟩
  | cons segment rest ih =>
    obtain ⟨ascending, behind⟩ := ih (number + 1) (offset + Text.byteLength segment)
    rw [ofSegments_cons, List.flatMap_append]
    cases read : ofSegment? number offset segment with
    | none =>
      refine ⟨ascending, ?_⟩
      intro f member
      have later := behind f member
      omega
    | some line =>
      obtain ⟨own, inside⟩ := ascending_of_ofSegment? read
      rw [Option.toList_some, List.flatMap_singleton]
      constructor
      · rw [List.pairwise_append]
        refine ⟨own, ascending, ?_⟩
        intro f first g later
        have before := (inside f first).2
        have after := behind g later
        omega
      · intro f member
        obtain first | later := List.mem_append.mp member
        · exact (inside f first).1
        · have after := behind f later
          omega

theorem exists_of_mem_ofSegments {number offset : Nat} {segments : List (List Char)} {line : Line}
    (member : line ∈ ofSegments number offset segments) :
    ∃ number offset segment, ofSegment? number offset segment = some line := by
  induction segments generalizing number offset with
  | nil => cases member
  | cons segment rest ih =>
    rw [ofSegments_cons, List.mem_append] at member
    obtain first | later := member
    · exact ⟨number, offset, segment, Option.mem_toList.mp first⟩
    · exact ih later

end Line

/-- The lines of a source are those of the plain definition. Their words stand in the source where
they are said to stand, in that order, and padding stands where the last word of its line stops. -/
theorem lines_eq_plain (source : List Char) :
    (lines source).map Line.texts = Plain.lines source ∧
    (∀ line ∈ lines source, ∀ f ∈ line.present, ∃ before after,
      source = before ++ (f.text ++ after) ∧ f.offset = Text.byteLength before ∧
        line.number = 1 + before.count '\n') ∧
    (∀ line ∈ lines source, ∀ f ∈ line.fields, f.text = [] →
      line.present.getLast?.map Field.stop = some f.offset) ∧
    ((lines source).flatMap Line.present).Pairwise fun f g => f.offset < g.offset := by
  refine ⟨?_, ?_, ?_, (Line.ascending_ofSegments _ _ _).1⟩
  · rw [lines, Line.texts_ofSegments, segments_eq_splitBy, Plain.lines]
  · intro line member f present
    obtain ⟨field, some⟩ := List.mem_filter.mp present
    obtain ⟨before, after, whole, place, number⟩ :=
      exists_place member field (of_decide_eq_true some)
    exact ⟨before, after, whole, place.trans (Nat.zero_add _), number⟩
  · intro line member f field empty
    obtain ⟨number, offset, segment, read⟩ := Line.exists_of_mem_ofSegments member
    exact (Line.present_of_ofSegment? read).2 f field empty

/-- A comment may be glued to a word, and a word may have a null character. -/
example : Plain.lines "LDM #0;x\n\n\u00a0a\x00b\u2003c d e".toList =
    [(1, ["LDM".toList, "#0".toList, []]), (3, ["a\x00b".toList, ['c'], ['d']])] := rfl

end AccumulatorMachine.Source
