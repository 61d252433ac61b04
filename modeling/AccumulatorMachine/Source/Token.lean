import AccumulatorMachine.Text.Blank

/-! Tokens of source text. They cover the text without a gap: a comment reaches from a
semicolon to the end of its line, blanks and words are as long as they can be. -/
namespace AccumulatorMachine.Source

inductive TokenKind
  | word
  | comment
  | blank
  deriving DecidableEq, Repr

structure Token where
  kind : TokenKind
  text : List Char
  deriving DecidableEq, Repr

namespace Token

/-- A character that a word goes on with. -/
def isWordChar (c : Char) : Bool :=
  !Text.isBlank c && c != ';'

/-- A character that a comment goes on with. -/
def isCommentChar (c : Char) : Bool :=
  c != '\n'

/-- The kind of the token that a character opens, and what the token goes on with. -/
def opens (c : Char) : TokenKind × (Char → Bool) :=
  if c = ';' then (.comment, isCommentChar)
  else if Text.isBlank c then (.blank, Text.isBlank)
  else (.word, isWordChar)

def scan : List Char → List Token
  | [] => []
  | c :: rest =>
    let (kind, goesOn) := opens c
    ⟨kind, c :: rest.takeWhile goesOn⟩ :: scan (rest.dropWhile goesOn)
  termination_by text => text.length
  decreasing_by
    have := (List.dropWhile_suffix (l := rest) goesOn).length_le
    simp
    omega

/-- Nothing of the text is lost or repeated. -/
theorem flatMap_text_scan (text : List Char) : (scan text).flatMap (·.text) = text := by
  fun_induction scan text with
  | case1 => rfl
  | case2 c rest kind goesOn _ ih => simp [ih, List.takeWhile_append_dropWhile]

theorem text_ne_nil_of_mem_scan {text : List Char} {t : Token} (h : t ∈ scan text) :
    t.text ≠ [] := by
  fun_induction scan text with
  | case1 => simp at h
  | case2 c rest kind goesOn _ ih =>
    rcases List.mem_cons.mp h with rfl | h
    · simp
    · exact ih h

end Token

end AccumulatorMachine.Source
