import AccumulatorMachine.Proofs.Source.Row
import Mathlib.Algebra.GroupWithZero.Nat
import Mathlib.Data.List.Basic
import Mathlib.Data.List.Induction

/-! Tokens found by a cursor, which moves over a text by single characters and looks one ahead.
Where nothing is left it sees a null character, as it does where the text has one, and two of the
three kinds of token would go on with that. Only lengths in bytes are kept: a count is lost where
it would go below zero, and a slice where it would cut through a character. No text makes a cursor
lose either, so that it finds the tokens of the text and cuts out its words. -/
namespace AccumulatorMachine

namespace Text

/-- What stands before and after a place in a text, unless a character lies across the place. -/
def splitBytes? : List Char → Nat → Option (List Char × List Char)
  | text, 0 => some ([], text)
  | [], _ + 1 => none
  | c :: rest, bytes + 1 =>
    if c.utf8Size ≤ bytes + 1 then
      (splitBytes? rest (bytes + 1 - c.utf8Size)).map fun (before, after) => (c :: before, after)
    else none

/-- The slice of a text between two places. -/
def slice? (text : List Char) (start stop : Nat) : Option (List Char) :=
  if start ≤ stop then do
    let (_, rest) ← splitBytes? text start
    let (piece, _) ← splitBytes? rest (stop - start)
    some piece
  else none

theorem splitBytes?_eq_some_iff {text before after : List Char} {bytes : Nat} :
    splitBytes? text bytes = some (before, after) ↔
      text = before ++ after ∧ byteLength before = bytes := by
  fun_induction splitBytes? text bytes generalizing before with
  | case1 text =>
    rw [Option.some.injEq, Prod.mk.injEq]
    constructor
    · rintro ⟨rfl, rfl⟩
      exact ⟨rfl, rfl⟩
    · rintro ⟨rfl, none⟩
      cases before with
      | nil => exact ⟨rfl, rfl⟩
      | cons c rest =>
        have some := byteLength_pos (List.cons_ne_nil c rest)
        omega
  | case2 bytes =>
    simp only [reduceCtorEq, false_iff, not_and, List.nil_eq, List.append_eq_nil_iff]
    rintro ⟨rfl, rfl⟩
    exact (Nat.succ_ne_zero bytes).symm
  | case3 c rest bytes fits ih =>
    simp only [Option.map_eq_some_iff, Prod.exists, Prod.mk.injEq]
    constructor
    · rintro ⟨others, _, split, rfl, rfl⟩
      obtain ⟨rfl, size⟩ := ih.mp split
      exact ⟨rfl, by rw [byteLength_cons]; omega⟩
    · rintro ⟨whole, size⟩
      cases before with
      | nil => cases size
      | cons d others =>
        obtain ⟨rfl, remain⟩ := List.cons.inj whole
        rw [byteLength_cons] at size
        exact ⟨others, after, ih.mpr ⟨remain, by omega⟩, rfl, rfl⟩
  | case4 c rest bytes across =>
    simp only [reduceCtorEq, false_iff, not_and]
    rintro whole size
    cases before with
    | nil => cases size
    | cons d others =>
      obtain ⟨rfl, _⟩ := List.cons.inj whole
      rw [byteLength_cons] at size
      omega

/-- A slice lies between two characters at both ends. -/
theorem slice?_eq_some_iff {text piece : List Char} {start stop : Nat} :
    slice? text start stop = some piece ↔ ∃ before after, text = before ++ (piece ++ after) ∧
      start = byteLength before ∧ stop = start + byteLength piece := by
  simp only [slice?, Option.bind_eq_bind]
  constructor
  · intro cut
    split at cut
    · next ordered =>
      simp only [Option.bind_eq_some_iff, Prod.exists, Option.some.injEq] at cut
      obtain ⟨before, rest, first, _, after, second, rfl⟩ := cut
      obtain ⟨rfl, start⟩ := splitBytes?_eq_some_iff.mp first
      obtain ⟨rfl, size⟩ := splitBytes?_eq_some_iff.mp second
      exact ⟨before, after, rfl, start.symm, by omega⟩
    · contradiction
  · rintro ⟨before, after, rfl, rfl, rfl⟩
    have split : ∀ left right, splitBytes? (left ++ right) (byteLength left) = some (left, right) :=
      fun _ _ => splitBytes?_eq_some_iff.mpr ⟨rfl, rfl⟩
    rw [if_pos (by omega), split, Nat.add_sub_cancel_left, Option.bind_some, split]
    rfl

end Text

namespace Source

/-- A token of which only the kind and the length in bytes are known. -/
structure TokenExtent where
  kind : TokenKind
  bytes : Nat
  deriving DecidableEq, Repr

def Token.extent (t : Token) : TokenExtent :=
  ⟨t.kind, Text.byteLength t.text⟩

structure Cursor where
  /-- Bytes that were left where the current token starts. -/
  left : Nat
  /-- The characters that are left now. -/
  rest : List Char

namespace Cursor

/-- A cursor where a token starts, in front of a text. -/
def before (text : List Char) : Cursor :=
  ⟨Text.byteLength text, text⟩

/-- The next character, or a null character where there is none. -/
def peek (c : Cursor) : Char :=
  c.rest.headD '\x00'

def atEnd (c : Cursor) : Bool :=
  c.rest.isEmpty

def bump? (c : Cursor) : Option (Char × Cursor) :=
  match c.rest with
  | [] => none
  | first :: rest => some (first, { c with rest })

/-- Goes on for as long as the next character is one to go on with and the text has not ended. -/
def takeWhile (goesOn : Char → Bool) (c : Cursor) : Cursor :=
  if goesOn c.peek && !c.atEnd then
    takeWhile goesOn { c with rest := c.rest.tail }
  else c
  termination_by c.rest.length
  decreasing_by
    rename_i more
    simp only [atEnd, Bool.and_eq_true, Bool.not_eq_true', List.isEmpty_eq_false_iff] at more
    have some := List.length_pos_iff.mpr more.2
    simp only [List.length_tail]
    omega

/-- Bytes of the current token up to here. -/
def taken? (c : Cursor) : Option Nat :=
  if Text.byteLength c.rest ≤ c.left then some (c.left - Text.byteLength c.rest) else none

/-- What a cursor finds: a token, and the cursor behind it, or the end of the text. -/
inductive Found
  | token (t : TokenExtent) (behind : Cursor)
  | ended

/-- The next token. -/
def next? (c : Cursor) : Option Found :=
  match c.bump? with
  | none => some .ended
  | some (first, c) =>
    let (kind, goesOn) := Token.opens first
    let c := c.takeWhile goesOn
    c.taken?.map fun bytes => .token ⟨kind, bytes⟩ (before c.rest)

theorem takeWhile_eq (goesOn : Char → Bool) (c : Cursor) :
    c.takeWhile goesOn = { c with rest := c.rest.dropWhile goesOn } := by
  obtain ⟨left, rest⟩ := c
  induction rest with
  | nil =>
    -- A null character may be one to go on with, but the text has ended.
    rw [takeWhile]
    simp [atEnd]
  | cons d rest ih =>
    rw [takeWhile]
    by_cases more : goesOn d = true
    · simp only [peek, atEnd, List.headD_cons, List.isEmpty_cons, Bool.not_false, Bool.and_true,
        more, if_true, List.tail_cons, ih, List.dropWhile_cons_of_pos more]
    · simp [peek, more]

theorem length_rest_lt {c behind : Cursor} {t : TokenExtent}
    (found : c.next? = some (.token t behind)) : behind.rest.length < c.rest.length := by
  obtain ⟨left, rest⟩ := c
  cases rest with
  | nil => simp [next?, bump?] at found
  | cons first rest =>
    simp only [next?, bump?, takeWhile_eq, Option.map_eq_some_iff, Found.token.injEq] at found
    obtain ⟨_, _, _, rfl⟩ := found
    have shorter := (List.dropWhile_suffix (l := rest) (Token.opens first).2).length_le
    simp only [before, List.length_cons]
    omega

/-- The tokens up to the end of the text. -/
def tokens? (c : Cursor) : Option (List TokenExtent) :=
  match _found : c.next? with
  | none => none
  | some .ended => some []
  | some (.token t behind) => (tokens? behind).map (t :: ·)
  termination_by c.rest.length
  decreasing_by exact length_rest_lt ‹_›

/-- The words among tokens up to the first comment, cut out of a text that the first token starts
in at a place. -/
def wordsOf? (text : List Char) (offset : Nat) : List TokenExtent → Option (List Field)
  | [] => some []
  | t :: rest =>
    let stop := offset + t.bytes
    match t.kind with
    | .word => do
      let word ← Text.slice? text offset stop
      let others ← wordsOf? text stop rest
      some (⟨word, offset⟩ :: others)
    | .comment => some []
    | .blank => wordsOf? text stop rest

/-- The words of a text and their places in it. -/
def words? (text : List Char) : Option (List Field) := do
  let tokens ← (before text).tokens?
  wordsOf? text 0 tokens

theorem next?_cons (first : Char) (rest : List Char) :
    (before (first :: rest)).next? =
      some (.token ⟨(Token.opens first).1,
          Text.byteLength (first :: rest.takeWhile (Token.opens first).2)⟩
        (before (rest.dropWhile (Token.opens first).2))) := by
  have whole := Text.byteLength_append (rest.takeWhile (Token.opens first).2)
    (rest.dropWhile (Token.opens first).2)
  rw [List.takeWhile_append_dropWhile] at whole
  simp only [next?, before, bump?, takeWhile_eq, taken?, Text.byteLength_cons]
  rw [if_pos (by omega), Option.map_some]
  congr 3
  omega

/-- A cursor finds the tokens of the text, and no count of bytes is lost on the way. -/
theorem tokens?_before (text : List Char) :
    (before text).tokens? = some ((Token.scan text).map Token.extent) := by
  fun_induction Token.scan text with
  | case1 =>
    rw [tokens?]
    rfl
  | case2 first rest kind goesOn opened ih =>
    have found := next?_cons first rest
    rw [opened] at found
    rw [tokens?]
    split
    · next lost => simp [lost] at found
    · next ended => simp [ended] at found
    · next t behind next =>
      obtain ⟨rfl, rfl⟩ := Found.token.inj (Option.some.inj (next.symm.trans found))
      rw [ih, Option.map_some, List.map_cons]
      rfl

theorem wordsOf?_extents {text : List Char} (before : List Char) {tokens : List Token}
    (whole : text = before ++ tokens.flatMap (·.text)) :
    wordsOf? text (Text.byteLength before) (tokens.map Token.extent) =
      some (words (Text.byteLength before) tokens) := by
  induction tokens generalizing before with
  | nil => rfl
  | cons t rest ih =>
    rw [List.flatMap_cons] at whole
    have later := ih (before ++ t.text) (by rw [whole, List.append_assoc])
    rw [Text.byteLength_append] at later
    rw [List.map_cons, wordsOf?, words]
    cases kind : t.kind with
    | word =>
      have cut := Text.slice?_eq_some_iff.mpr ⟨_, _, whole, rfl, rfl⟩
      simp only [Token.extent, kind, cut, later]
      rfl
    | comment => simp only [Token.extent, kind]
    | blank =>
      simp only [Token.extent, kind]
      exact later

/-- No slice cuts through a character. -/
theorem words?_eq (text : List Char) : words? text = some (words 0 (Token.scan text)) := by
  have found := wordsOf?_extents [] (Token.flatMap_text_scan text).symm
  rw [words?, tokens?_before]
  exact found

end Cursor

/-- A token of a kind is some piece of a text, as long as it can be: neither character next to a
word goes on with it. Nor does either one next to a gap, except that what ends a comment belongs
to the comment, a blank too. -/
inductive Fits (previous : Option TokenKind) (front back : List Char) :
    TokenKind → List Char → Prop
  | word {piece : List Char} (inside : ∀ c ∈ piece, Text.isBlank c = false ∧ c ≠ ';')
      (left : ∀ c, front.getLast? = some c → Text.isBlank c = true ∨ c = ';')
      (right : ∀ c, back.head? = some c → Text.isBlank c = true ∨ c = ';') :
      Fits previous front back .word piece
  | blank {piece : List Char} (inside : ∀ c ∈ piece, Text.isBlank c = true)
      (left : previous ≠ some .comment → ∀ c, front.getLast? = some c → Text.isBlank c = false)
      (right : ∀ c, back.head? = some c → Text.isBlank c = false) :
      Fits previous front back .blank piece
  | comment {remark : List Char} (inside : '\n' ∉ remark)
      (right : back = [] ∨ back.head? = some '\n') :
      Fits previous front back .comment (';' :: remark)

namespace Token

/-- What a token is made of, and that it does not go on with what stands behind it. -/
inductive Reaches (back : List Char) : Token → Prop
  | word {piece : List Char} (isWord : IsWord piece) (stops : Stops isWordChar back) :
      Reaches back ⟨.word, piece⟩
  | blank {piece : List Char} (some : piece ≠ []) (inside : ∀ c ∈ piece, Text.isBlank c = true)
      (stops : Stops Text.isBlank back) : Reaches back ⟨.blank, piece⟩
  | comment {remark : List Char} (inside : '\n' ∉ remark) (stops : Stops isCommentChar back) :
      Reaches back ⟨.comment, ';' :: remark⟩

theorem isWordChar_iff {c : Char} : isWordChar c = true ↔ Text.isBlank c = false ∧ c ≠ ';' := by
  simp [isWordChar]

theorem isWordChar_eq_false_iff {c : Char} :
    isWordChar c = false ↔ Text.isBlank c = true ∨ c = ';' := by
  simp [isWordChar, Classical.or_iff_not_imp_left]

variable {text : List Char} {t previous : Token} {earlier later : List Token}

/-- The later tokens of a text are the tokens of what they cover. -/
theorem scan_of_scan_append (scanned : scan text = earlier ++ later) :
    scan (later.flatMap (·.text)) = later := by
  induction earlier generalizing text with
  | nil =>
    rw [List.nil_append] at scanned
    rw [← scanned, flatMap_text_scan]
  | cons t earlier ih =>
    cases text with
    | nil => simp [scan] at scanned
    | cons c rest =>
      rw [scan, List.cons_append] at scanned
      exact ih (List.cons.inj scanned).2

theorem reaches_opens (c : Char) (rest : List Char) :
    Reaches (rest.dropWhile (opens c).2) ⟨(opens c).1, c :: rest.takeWhile (opens c).2⟩ := by
  have taken : ∀ goesOn : Char → Bool, ∀ d ∈ rest.takeWhile goesOn, goesOn d = true :=
    fun _ => List.all_eq_true.mp List.all_takeWhile
  by_cases semicolon : c = ';'
  · subst semicolon
    apply Reaches.comment _ (stops_dropWhile isCommentChar rest)
    intro member
    have inside := taken isCommentChar _ member
    contradiction
  · by_cases blank : Text.isBlank c = true
    · rw [opens_of_isBlank blank]
      exact .blank (List.cons_ne_nil _ _) (List.forall_mem_cons.mpr ⟨blank, taken _⟩)
        (stops_dropWhile _ rest)
    · have isWord := isWord_takeWhile semicolon blank rest
      rw [opens_of_isWordChar (isWord.chars c List.mem_cons_self)]
      exact .word isWord (stops_dropWhile _ rest)

theorem reaches_of_scan_cons (scanned : scan text = t :: later) :
    t.Reaches (later.flatMap (·.text)) := by
  cases text with
  | nil => simp [scan] at scanned
  | cons c rest =>
    rw [scan] at scanned
    obtain ⟨same, others⟩ := List.cons.inj scanned
    rw [← same, ← others, flatMap_text_scan]
    exact reaches_opens c rest

theorem Reaches.ne_nil {back : List Char} (reaches : t.Reaches back) : t.text ≠ [] := by
  cases reaches with
  | word isWord => exact isWord.ne_nil
  | blank some => exact some
  | comment => exact List.cons_ne_nil _ _

/-- The token in front stops at the first character of the next one. -/
theorem stops_at {goesOn : Char → Bool} {piece back : List Char} (some : piece ≠ [])
    (stops : Stops goesOn (piece ++ back)) : ∃ c ∈ piece, goesOn c = false := by
  cases piece with
  | nil => contradiction
  | cons c rest => exact ⟨c, List.mem_cons_self, stops c rfl⟩

variable {front back : List Char}

theorem Reaches.fits (reaches : t.Reaches back) {kind : Option TokenKind}
    (word : IsWord t.text → ∀ c, front.getLast? = some c → isWordChar c = false)
    (blank : (∀ c ∈ t.text, Text.isBlank c = true) → kind ≠ some .comment →
      ∀ c, front.getLast? = some c → Text.isBlank c = false) :
    Fits kind front back t.kind t.text := by
  cases reaches with
  | word isWord stops =>
    apply Fits.word
    · exact fun c member => isWordChar_iff.mp (isWord.chars c member)
    · exact fun c last => isWordChar_eq_false_iff.mp (word isWord c last)
    · exact fun c first => isWordChar_eq_false_iff.mp (stops c first)
  | blank some inside stops => exact .blank inside (blank inside) stops
  | comment inside stops =>
    apply Fits.comment inside
    cases back with
    | nil => exact .inl rfl
    | cons c rest =>
      have newline := stops c rfl
      simp only [isCommentChar, bne_eq_false_iff_eq] at newline
      exact .inr (congrArg some newline)

theorem Reaches.fits_first (reaches : t.Reaches back) : Fits none [] back t.kind t.text := by
  apply reaches.fits
  · intro _ _ last
    contradiction
  · intro _ _ _ last
    contradiction

/-- Two neighbours are not both words or both gaps, and behind a comment comes a newline. -/
theorem Reaches.fits_next (reaches : t.Reaches back) (ends : previous.Reaches (t.text ++ back)) :
    Fits (some previous.kind) (front ++ previous.text) back t.kind t.text := by
  have last_mem : ∀ c, (front ++ previous.text).getLast? = some c → c ∈ previous.text := by
    intro c last
    rw [List.getLast?_append_of_ne_nil _ ends.ne_nil] at last
    exact List.mem_of_getLast? last
  apply reaches.fits
  · intro isWord c last
    have member := last_mem c last
    cases ends with
    | word _ stops =>
      obtain ⟨d, inside, ended⟩ := stops_at reaches.ne_nil stops
      exact absurd (isWord.chars d inside) (ne_true_of_eq_false ended)
    | blank _ blanks => exact isWordChar_eq_false_iff.mpr (.inl (blanks c member))
    | comment _ stops =>
      obtain ⟨d, inside, ended⟩ := stops_at reaches.ne_nil stops
      have newline : d = '\n' := bne_eq_false_iff_eq.mp ended
      subst newline
      exact absurd (isWord.chars '\n' inside) (by decide)
  · intro blanks notComment c last
    have member := last_mem c last
    cases ends with
    | word isWord => exact (isWordChar_iff.mp (isWord.chars c member)).1
    | blank _ _ stops =>
      obtain ⟨d, inside, ended⟩ := stops_at reaches.ne_nil stops
      exact absurd (blanks d inside) (ne_true_of_eq_false ended)
    | comment => exact absurd rfl notComment

/-- Where a token of a text stands, and that it is as long as it can be there. -/
theorem fits_of_scan (scanned : scan text = earlier ++ t :: later) :
    text = earlier.flatMap (·.text) ++ (t.text ++ later.flatMap (·.text)) ∧
      Fits (earlier.getLast?.map (·.kind)) (earlier.flatMap (·.text)) (later.flatMap (·.text))
        t.kind t.text := by
  constructor
  · rw [← flatMap_text_scan text, scanned, List.flatMap_append, List.flatMap_cons]
  · have reaches := reaches_of_scan_cons (scan_of_scan_append scanned)
    cases earlier using List.reverseRecOn with
    | nil => exact reaches.fits_first
    | append_singleton others previous =>
      rw [List.append_assoc, List.singleton_append] at scanned
      have ends := reaches_of_scan_cons (scan_of_scan_append scanned)
      rw [List.flatMap_append, List.flatMap_singleton, List.getLast?_concat]
      exact reaches.fits_next ends

theorem length_scan_le (text : List Char) : (scan text).length ≤ text.length := by
  fun_induction scan text with
  | case1 => exact Nat.le_refl _
  | case2 c rest kind goesOn _ ih =>
    have shorter := (List.dropWhile_suffix (l := rest) goesOn).length_le
    simp only [List.length_cons]
    omega

theorem sum_bytes_extent (tokens : List Token) :
    ((tokens.map extent).map (·.bytes)).sum = Text.byteLength (tokens.flatMap (·.text)) := by
  induction tokens with
  | nil => rfl
  | cons t rest ih =>
    rw [List.map_cons, List.map_cons, List.sum_cons, ih, List.flatMap_cons,
      Text.byteLength_append]
    rfl

end Token

/-- Tokens with nothing but their kinds and lengths cover a text: they start and end between two
of its characters, and what one of them covers is a token there. -/
structure Tiles (text : List Char) (tokens : List TokenExtent) : Prop where
  count : tokens.length ≤ text.length
  positive : ∀ t ∈ tokens, 0 < t.bytes
  total : (tokens.map (·.bytes)).sum = Text.byteLength text
  placed : ∀ earlier t later, tokens = earlier ++ t :: later →
    ∃ front piece back, text = front ++ (piece ++ back) ∧
      Text.byteLength front = (earlier.map (·.bytes)).sum ∧ Text.byteLength piece = t.bytes ∧
      Fits (earlier.getLast?.map (·.kind)) front back t.kind piece

theorem Tiles.scan (text : List Char) : Tiles text ((Token.scan text).map Token.extent) where
  count := by
    rw [List.length_map]
    exact Token.length_scan_le text
  positive := by
    rintro _ member
    obtain ⟨t, found, rfl⟩ := List.mem_map.mp member
    exact Text.byteLength_pos (Token.text_ne_nil_of_mem_scan found)
  total := by rw [Token.sum_bytes_extent, Token.flatMap_text_scan]
  placed := by
    intro earlier t later split
    obtain ⟨firsts, others, scanned, rfl, rest⟩ := List.map_eq_append_iff.mp split
    obtain ⟨t, lasts, rfl, rfl, rfl⟩ := List.map_eq_cons_iff.mp rest
    obtain ⟨whole, fits⟩ := Token.fits_of_scan scanned
    refine ⟨_, _, _, whole, (Token.sum_bytes_extent firsts).symm, rfl, ?_⟩
    rw [List.getLast?_map, Option.map_map]
    exact fits

/-- The tokens of every text tile it. A cursor finds them and cuts out the words: it neither counts
below zero nor cuts through a character. -/
theorem cursor_tiles (text : List Char) :
    (Cursor.before text).tokens? = some ((Token.scan text).map Token.extent) ∧
      Tiles text ((Token.scan text).map Token.extent) ∧
      Cursor.words? text = some (words 0 (Token.scan text)) :=
  ⟨Cursor.tokens?_before text, .scan text, Cursor.words?_eq text⟩

/-- A null character is a character of a word or of a comment like any other. -/
example : Cursor.words? "a\x00 é;\x00 b".toList =
    some [⟨"a\x00".toList, 0⟩, ⟨"é".toList, 3⟩] := by
  rw [Cursor.words?_eq]
  decide +kernel

end Source

end AccumulatorMachine
