import AccumulatorMachine.Text.Column
import AccumulatorMachine.Text.Segment
import Mathlib.Data.List.Basic

/-! Texts that are put together from lines and columns, and what can be read from them again: the
lines of a text, where none of them has a newline inside, and the first column of a line, where no
space stands in it. -/
namespace AccumulatorMachine.Text

/-- No newline stands inside of a line. -/
def OneLine (line : String) : Prop :=
  '\n' ∉ line.toList

theorem toList_ofLines (lines : List String) :
    (ofLines lines).toList = lines.flatMap fun line => line.toList ++ ['\n'] := by
  rw [ofLines, String.toList_join, List.flatMap_map]
  simp only [String.toList_append]
  rfl

variable {lines others : List String}

/-- Cut after each newline, a text falls into the lines that it was made of. -/
theorem segments_ofLines (single : ∀ line ∈ lines, OneLine line) :
    segments (· == '\n') (ofLines lines).toList = lines.map fun line => line.toList ++ ['\n'] := by
  rw [toList_ofLines]
  induction lines with
  | nil => rfl
  | cons line rest ih =>
    obtain ⟨first, further⟩ := List.forall_mem_cons.mp single
    have inside : ∀ c ∈ line.toList, (c == '\n') = false := by
      intro c member
      apply beq_eq_false_iff_ne.mpr
      rintro rfl
      exact first member
    rw [List.flatMap_cons, List.append_assoc, List.singleton_append,
      segments_append_cons inside rfl, ih further, List.map_cons]

theorem ofLines_inj (single : ∀ line ∈ lines, OneLine line)
    (single' : ∀ line ∈ others, OneLine line) :
    ofLines lines = ofLines others ↔ lines = others := by
  constructor
  · intro same
    have cut := congrArg (fun text : String => segments (· == '\n') text.toList) same
    simp only [segments_ofLines single, segments_ofLines single'] at cut
    refine (List.map_inj_right ?_).mp cut
    intro line other ended
    exact String.toList_inj.mp (List.append_cancel_right ended)
  · rintro rfl
    rfl

/-- What stands before the first separator, and what behind it. -/
theorem cut_inj {separator : Char} {a b x y : List Char} (outside : separator ∉ a)
    (outside' : separator ∉ b) : a ++ separator :: x = b ++ separator :: y ↔ a = b ∧ x = y := by
  have before : ∀ {text rest : List Char}, separator ∉ text →
      (text ++ separator :: rest).takeWhile (· != separator) = text := by
    intro text rest outside
    have inside : ∀ c ∈ text, (c != separator) = true := by
      intro c member
      apply bne_iff_ne.mpr
      rintro rfl
      exact outside member
    rw [List.takeWhile_append_of_pos inside, List.takeWhile_cons_of_neg (by simp), List.append_nil]
  constructor
  · intro same
    have first := congrArg (List.takeWhile (· != separator)) same
    rw [before outside, before outside'] at first
    subst first
    exact ⟨rfl, List.tail_eq_of_cons_eq (List.append_cancel_left same)⟩
  · rintro ⟨rfl, rfl⟩
    rfl

variable {a b x y : String}

/-- A column that starts a line ends at the first space, however wide it is. -/
theorem toList_alignLeft_append (width : Nat) (a x : String) :
    (alignLeft width a ++ " " ++ x).toList =
      a.toList ++ ' ' :: (List.replicate (width - a.toList.length) ' ' ++ x.toList) := by
  have shifted : ∀ n, List.replicate n ' ' ++ [' '] = ' ' :: List.replicate n ' ' := fun n =>
    List.replicate_succ'.symm.trans List.replicate_succ
  simp only [String.toList_append, toList_alignLeft, List.append_assoc]
  rw [← List.cons_append, ← shifted, List.append_assoc]
  rfl

theorem alignLeft_append_inj (width : Nat) (word : ' ' ∉ a.toList) (word' : ' ' ∉ b.toList) :
    alignLeft width a ++ " " ++ x = alignLeft width b ++ " " ++ y ↔ a = b ∧ x = y := by
  constructor
  · intro same
    have texts := congrArg String.toList same
    rw [toList_alignLeft_append, toList_alignLeft_append] at texts
    obtain rfl := String.toList_inj.mp ((cut_inj word word').mp texts).1
    exact ⟨rfl, (String.append_right_inj _).mp same⟩
  · rintro ⟨rfl, rfl⟩
    rfl

end AccumulatorMachine.Text
