import AccumulatorMachine.Proofs.Source.Scan

/-! Sources row by row. A row is what stands before a newline or at the end of a source; a line
that says something is read from its row alone, whether a newline comes after it or not. -/
namespace AccumulatorMachine.Source

/-- A source is a single row, or a row and the source after its newline. -/
theorem source_induction {P : List Char → Prop} (last : ∀ row, '\n' ∉ row → P row)
    (next : ∀ row rest, '\n' ∉ row → P rest → P (row ++ '\n' :: rest)) (source : List Char) :
    P source := by
  -- The row in front has been read already; it grows until a newline ends it.
  have behind : ∀ source row, '\n' ∉ row → P (row ++ source) := by
    intro source
    induction source with
    | nil =>
      intro row inside
      rw [List.append_nil]
      exact last row inside
    | cons c rest ih =>
      intro row inside
      by_cases newline : c = '\n'
      · subst newline
        exact next row rest inside (ih [] List.not_mem_nil)
      · have longer := ih (row ++ [c]) (by simp [inside, eq_comm, newline])
        rwa [List.append_assoc, List.singleton_append] at longer
  exact behind source [] List.not_mem_nil

theorem LaidOut.append_gap {texts : List (List Char)} {blanks line : List Char}
    (gap : Gap blanks) (laidOut : LaidOut texts line) : LaidOut texts (blanks ++ line) := by
  have wider : ∀ {more}, Gap more → Gap (blanks ++ more) := by
    intro more more_gap c member
    rcases List.mem_append.mp member with first | second
    · exact gap c first
    · exact more_gap c second
  cases laidOut with
  | rest inner remark =>
    rw [← List.append_assoc]
    exact .rest (wider inner) remark
  | word inner isWord stops others =>
    rw [← List.append_assoc]
    exact .word (wider inner) isWord stops others

theorem Token.stops_dropWhile (goesOn : Char → Bool) (text : List Char) :
    Stops goesOn (text.dropWhile goesOn) := by
  intro c first
  have stopped := List.head?_dropWhile_not goesOn text
  rw [first] at stopped
  exact stopped

/-- A character that opens neither a comment nor a gap opens a word. -/
theorem isWord_takeWhile {c : Char} (notComment : c ≠ ';') (notBlank : ¬Text.isBlank c = true)
    (rest : List Char) : IsWord (c :: rest.takeWhile Token.isWordChar) := by
  have wordChar : Token.isWordChar c = true := by
    simp [Token.isWordChar, notBlank, notComment]
  exact ⟨List.cons_ne_nil _ _,
    List.forall_mem_cons.mpr ⟨wordChar, List.all_eq_true.mp List.all_takeWhile⟩⟩

/-- Every row is a layout of some words. -/
theorem exists_laidOut {row : List Char} (inside : '\n' ∉ row) : ∃ texts, LaidOut texts row := by
  have noGap : Gap [] := by decide
  fun_induction Token.scan row with
  | case1 => exact ⟨[], .rest noGap .none⟩
  | case2 c rest kind goesOn opened ih =>
    have later : '\n' ∉ rest.dropWhile goesOn := fun member =>
      inside (List.mem_cons_of_mem c ((List.dropWhile_suffix goesOn).subset member))
    obtain ⟨texts, others⟩ := ih later
    have whole : c :: rest = c :: rest.takeWhile goesOn ++ rest.dropWhile goesOn := by
      rw [List.cons_append, List.takeWhile_append_dropWhile]
    have taken : ∀ d ∈ rest.takeWhile goesOn, goesOn d = true :=
      List.all_eq_true.mp List.all_takeWhile
    rw [Token.opens] at opened
    split at opened
    · next comment =>
      subst comment
      exact ⟨[], .rest noGap (.comment fun member => inside (List.mem_cons_of_mem _ member))⟩
    · next notComment =>
      split at opened
      · next blank =>
        cases opened
        have gap : Gap (c :: rest.takeWhile Text.isBlank) := by
          intro d member
          constructor
          · rcases List.mem_cons.mp member with rfl | more
            · exact blank
            · exact taken d more
          · rintro rfl
            apply inside
            rw [whole]
            exact List.mem_append_left _ member
        rw [whole]
        exact ⟨texts, others.append_gap gap⟩
      · next notBlank =>
        cases opened
        rw [whole]
        exact ⟨_, .word noGap (isWord_takeWhile notComment notBlank rest)
          (Token.stops_dropWhile _ rest) others⟩

/-- The lines of a source that has a number and a place for its first row. -/
def linesFrom (number offset : Nat) (source : List Char) : List Line :=
  Line.ofSegments number offset (Text.segments (· == '\n') source)

theorem lines_eq (source : List Char) : lines source = linesFrom 1 0 source := rfl

theorem Line.ofSegment?_nil (number offset : Nat) : ofSegment? number offset [] = none := by
  rw [ofSegment?, Token.scan]
  rfl

theorem Line.ofSegments_cons (number offset : Nat) (segment : List Char)
    (rest : List (List Char)) :
    ofSegments number offset (segment :: rest) =
      (ofSegment? number offset segment).toList ++
        ofSegments (number + 1) (offset + Text.byteLength segment) rest := by
  rw [ofSegments]
  cases ofSegment? number offset segment with
  | none => rfl
  | some line => rfl

theorem separates_eq_false {row : List Char} (inside : '\n' ∉ row) :
    ∀ c ∈ row, (c == '\n') = false := by
  intro c member
  rw [beq_eq_false_iff_ne]
  rintro rfl
  exact inside member

theorem linesFrom_row (number offset : Nat) {row : List Char} (inside : '\n' ∉ row) :
    linesFrom number offset row = (Line.ofSegment? number offset row).toList := by
  cases row with
  | nil =>
    rw [Line.ofSegment?_nil]
    rfl
  | cons c rest =>
    rw [linesFrom, Text.segments_of_forall (List.cons_ne_nil c rest) (separates_eq_false inside),
      Line.ofSegments_cons]
    exact List.append_nil _

/-- The first row gives a line, if it says something, and the others have the rest. -/
theorem linesFrom_append (number offset : Nat) {row : List Char} (inside : '\n' ∉ row)
    (rest : List Char) :
    linesFrom number offset (row ++ '\n' :: rest) =
      (Line.ofSegment? number offset row).toList ++
        linesFrom (number + 1) (offset + Text.byteLength row + 1) rest := by
  obtain ⟨texts, laidOut⟩ := exists_laidOut inside
  have same : Line.ofSegment? number offset (row ++ ['\n']) =
      Line.ofSegment? number offset row := by
    rw [Line.ofSegment?, laidOut.words_append_newline, Line.ofSegment?]
  have newline : Text.byteLength ['\n'] = 1 := rfl
  rw [linesFrom, Text.segments_append_cons (separates_eq_false inside) rfl, Line.ofSegments_cons,
    same, Text.byteLength_append, newline, ← Nat.add_assoc, linesFrom]

end AccumulatorMachine.Source
