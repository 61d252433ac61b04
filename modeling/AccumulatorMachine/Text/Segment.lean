/-! Cutting a sequence after each of its separators. A separator stays at the end of
its segment, so the segments put together are the sequence again. -/
namespace AccumulatorMachine.Text

/-- The segments of a sequence: each ends at a separator, the last one perhaps at the
end of the sequence. No segment is empty. -/
def segments (separates : α → Bool) : List α → List (List α)
  | [] => []
  | a :: rest =>
    if separates a then
      [a] :: segments separates rest
    else
      match segments separates rest with
      | [] => [[a]]
      | first :: others => (a :: first) :: others

/-- The first separator ends the first segment. -/
theorem segments_append_cons {separates : α → Bool} {segment : List α} {separator : α}
    (inside : ∀ a ∈ segment, separates a = false) (ends : separates separator = true)
    (rest : List α) :
    segments separates (segment ++ separator :: rest) =
      (segment ++ [separator]) :: segments separates rest := by
  induction segment with
  | nil => simp [segments, ends]
  | cons a others ih =>
    have goesOn := inside a List.mem_cons_self
    have remain := ih fun b member => inside b (List.mem_cons_of_mem a member)
    simp [segments, goesOn, remain]

/-- Without a separator there is one segment, if any. -/
theorem segments_of_forall {separates : α → Bool} {segment : List α} (some : segment ≠ [])
    (inside : ∀ a ∈ segment, separates a = false) : segments separates segment = [segment] := by
  induction segment with
  | nil => exact absurd rfl some
  | cons a others ih =>
    have goesOn := inside a List.mem_cons_self
    cases others with
    | nil => simp [segments, goesOn]
    | cons b rest =>
      have remain := ih (by simp) fun c member => inside c (List.mem_cons_of_mem a member)
      rw [segments, goesOn, remain]
      rfl

end AccumulatorMachine.Text
