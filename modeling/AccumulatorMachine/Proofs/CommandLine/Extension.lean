import AccumulatorMachine.Proofs.CommandLine.Directory
import Mathlib.Data.List.Basic

/-! The last name on a path, and the path with another extension on that name. A file is
read and written only by a path that ends in a name, with nothing after it that asks for a
directory, so that its name can be told from the text. -/
namespace AccumulatorMachine.CommandLine

theorem exists_last_of_mem {α : Type*} {a : α} {l : List α} (member : a ∈ l) :
    ∃ before after, l = before ++ a :: after ∧ a ∉ after := by
  obtain ⟨after, before, reversed, last⟩ :=
    List.eq_append_cons_of_mem (List.mem_reverse.mpr member)
  refine ⟨before.reverse, after.reverse, ?_, by simpa using last⟩
  rw [← l.reverse_reverse, reversed, List.reverse_append, List.reverse_cons, List.append_assoc]
  rfl

namespace Path

/-- A way that is empty or closed by a slash, and a name behind it that is more than a dot. -/
structure EndsIn (p : Path) (way name : List Char) : Prop where
  text : p.text = way ++ name
  closed : way = [] ∨ ∃ front, way = front ++ ['/']
  plain : '/' ∉ name
  full : name ≠ []
  proper : name ≠ ['.']

/-- A name with an extension in place of its own, or, where it has none, after it. The dot
of an extension is the last one, and is not in front. -/
inductive Renamed (extension : List Char) : List Char → List Char → Prop
  | replaced {stem old : List Char} (full : stem ≠ []) (last : '.' ∉ old) :
      Renamed extension (stem ++ '.' :: old) (stem ++ '.' :: extension)
  | added {name : List Char} (plain : '.' ∉ name.tail) :
      Renamed extension name (name ++ '.' :: extension)

theorem split_ne_nil (text : List Char) : split text ≠ [] := by
  fun_induction split text <;> simp

theorem split_plain {name : List Char} (plain : '/' ∉ name) : split name = [name] := by
  induction name with
  | nil => rfl
  | cons c rest ih =>
    rw [split, ih (List.not_mem_of_not_mem_cons plain)]
    exact (List.ne_of_not_mem_cons plain).symm

theorem split_append (front rest : List Char) :
    split (front ++ '/' :: rest) = split front ++ split rest := by
  fun_induction split front with
  | case1 => rfl
  | case2 front ih => rw [List.cons_append, split, ih, List.cons_append]
  | case3 c front other none ih => exact absurd none (split_ne_nil front)
  | case4 c front other name names found ih =>
    rw [List.cons_append, split, ih, found, List.cons_append, List.cons_append]
    exact other

/-- What comes after the last slash is the last of the names. -/
theorem exists_last_name (text : List Char) :
    ∃ way name, text = way ++ name ∧ (way = [] ∨ ∃ front, way = front ++ ['/']) ∧
      '/' ∉ name ∧ (split text).getLast? = some name := by
  by_cases slash : '/' ∈ text
  · obtain ⟨front, name, rfl, plain⟩ := exists_last_of_mem slash
    refine ⟨front ++ ['/'], name, by simp, .inr ⟨front, rfl⟩, plain, ?_⟩
    rw [split_append, split_plain plain, List.getLast?_append, List.getLast?_singleton,
      Option.some_or]
  · exact ⟨[], text, rfl, .inl rfl, slash, by rw [split_plain slash, List.getLast?_singleton]⟩

theorem EndsIn.dropTail_eq {p : Path} {way name : List Char} (ends : p.EndsIn way name) :
    dropTail p.text.reverse = name.reverse ++ way.reverse := by
  rw [ends.text, List.reverse_append]
  have plain : '/' ∉ name.reverse := fun slash => ends.plain (List.mem_reverse.mp slash)
  match reversed : name.reverse with
  | [] => exact absurd (List.reverse_eq_nil_iff.mp reversed) ends.full
  | [c] =>
    have slash : c ≠ '/' := fun slash => plain (by simp [reversed, slash])
    have dot : c ≠ '.' := fun dot =>
      ends.proper (by rw [← name.reverse_reverse, reversed, dot]; rfl)
    simp [dropTail, slash, dot]
  | c :: c' :: rest =>
    have slash : c ≠ '/' := fun slash => plain (by simp [reversed, slash])
    have further : c' ≠ '/' := fun slash => plain (by simp [reversed, slash])
    simp [dropTail, slash, further]

theorem EndsIn.splitLast_eq {p : Path} {way name : List Char} (ends : p.EndsIn way name) :
    p.splitLast = (way, name) := by
  have plain : ∀ c ∈ name.reverse, (c != '/') = true := fun c member =>
    bne_iff_ne.mpr fun slash => ends.plain (slash ▸ List.mem_reverse.mp member)
  have before : way.reverse.dropWhile (· != '/') = way.reverse ∧
      way.reverse.takeWhile (· != '/') = [] := by
    rcases ends.closed with rfl | ⟨front, rfl⟩ <;> simp
  rw [splitLast, ends.dropTail_eq, List.dropWhile_append_of_pos plain,
    List.takeWhile_append_of_pos plain, before.1, before.2, List.append_nil,
    List.reverse_reverse, List.reverse_reverse]

theorem EndsIn.unique {p : Path} {way name way' name' : List Char} (ends : p.EndsIn way name)
    (ends' : p.EndsIn way' name') : way = way' ∧ name = name' :=
  Prod.mk.inj (ends.splitLast_eq.symm.trans ends'.splitLast_eq)

theorem EndsIn.fileName?_eq {p : Path} {way name : List Char} (ends : p.EndsIn way name) :
    p.fileName? = if name = ['.', '.'] then none else some name := by
  have full : name.isEmpty = false := by simp [ends.full]
  have proper : (name == ['.']) = false := beq_eq_false_iff_ne.mpr ends.proper
  simp only [fileName?, ends.splitLast_eq, full, proper, Bool.false_or, beq_iff_eq]

theorem splitExtension_replaced {stem old : List Char} (full : stem ≠ []) (last : '.' ∉ old) :
    splitExtension (stem ++ '.' :: old) = (stem, some old) := by
  have plain : ∀ c ∈ old.reverse, (c != '.') = true := fun c member =>
    bne_iff_ne.mpr fun dot => last (dot ▸ List.mem_reverse.mp member)
  have extension : ((stem ++ '.' :: old).reverse.takeWhile (· != '.')).reverse = old := by
    rw [List.reverse_append, List.reverse_cons, List.append_assoc,
      List.takeWhile_append_of_pos plain]
    simp
  have length : (stem ++ '.' :: old).length - old.length - 1 = stem.length := by
    simp only [List.length_append, List.length_cons]
    omega
  simp only [splitExtension, extension, length, List.take_left, List.isEmpty_iff, if_neg full]

theorem splitExtension_added {name : List Char} (plain : '.' ∉ name.tail) :
    splitExtension name = (name, none) := by
  have short : name.length - ((name.reverse.takeWhile (· != '.')).reverse).length - 1 = 0 := by
    cases name with
    | nil => rfl
    | cons c rest =>
      have later : ∀ c ∈ rest.reverse, (c != '.') = true := fun c member =>
        bne_iff_ne.mpr fun dot => plain (dot ▸ List.mem_reverse.mp member)
      rw [List.reverse_cons, List.takeWhile_append_of_pos later, List.length_reverse,
        List.length_append, List.length_reverse, List.length_cons]
      omega
  simp only [splitExtension, short, List.take_zero, List.isEmpty_nil, if_true]

/-- Another extension changes the name alone, unless two dots are left of it; then the path
leads up. -/
theorem EndsIn.withExtension {p : Path} {way name : List Char} (ends : p.EndsIn way name)
    (ordinary : name ≠ ['.', '.']) (extension : List Char) :
    (∃ name', Renamed extension name name' ∧ p.withExtension extension = ⟨way ++ name'⟩) ∨
      (p.withExtension extension).EndsIn way ['.', '.'] := by
  have extension? : p.extension? = (splitExtension name).2 := by
    rw [Path.extension?, ends.fileName?_eq, if_neg ordinary]
    rfl
  by_cases dotted : '.' ∈ name.tail
  · obtain ⟨stem, old, rfl, full, last⟩ : ∃ stem old, name = stem ++ '.' :: old ∧ stem ≠ [] ∧
        '.' ∉ old := by
      obtain ⟨first, rest, rfl⟩ := List.exists_cons_of_ne_nil ends.full
      obtain ⟨before, after, split, last⟩ := exists_last_of_mem dotted
      exact ⟨first :: before, after, congrArg (first :: ·) split, List.cons_ne_nil _ _, last⟩
    rw [splitExtension_replaced full last] at extension?
    have bare : p.withoutExtension.EndsIn way (stem ++ ['.']) := by
      refine ⟨?_, ends.closed, ?_, by simp, by simp [full]⟩
      · have text : p.text = (way ++ (stem ++ ['.'])) ++ old := by rw [ends.text]; simp
        rw [withoutExtension, extension?, Option.getD_some, text, List.length_append,
          Nat.add_sub_cancel, List.take_left]
      · have plain := ends.plain
        simp only [List.mem_append, List.mem_cons, not_or] at plain ⊢
        exact ⟨plain.1, by simp⟩
    by_cases lone : stem = ['.']
    · right
      subst lone
      rw [Path.withExtension, bare.fileName?_eq]
      exact bare
    · left
      refine ⟨_, .replaced full last, ?_⟩
      have ordinary' : stem ++ ['.'] ≠ ['.', '.'] := fun dots =>
        lone ((List.append_left_inj ['.']).mp dots)
      have stripped : splitExtension (stem ++ ['.']) = (stem, some []) :=
        splitExtension_replaced full List.not_mem_nil
      simp only [Path.withExtension, bare.fileName?_eq, if_neg ordinary', bare.splitLast_eq,
        stripped, List.append_assoc]
  · left
    refine ⟨_, .added dotted, ?_⟩
    rw [splitExtension_added dotted] at extension?
    have bare : p.withoutExtension = p := by
      rw [withoutExtension, extension?, Option.getD_none, List.length_nil, Nat.sub_zero,
        List.take_length]
    simp only [Path.withExtension, bare, ends.fileName?_eq, if_neg ordinary,
      ends.splitLast_eq, splitExtension_added dotted, List.append_assoc]

end Path

namespace Directory

variable {d : Directory} {p : Path} {start directory : Location} {access : Access}
  {name : List Char}

theorem walk_eq_name {names : List (List Char)}
    (found : d.walk start names = .ok (.name directory access name)) :
    names.getLast? = some name ∧ name ≠ ['.'] ∧ name ≠ ['.', '.'] := by
  induction names generalizing start with
  | nil => simp [walk] at found
  | cons first further ih =>
    rw [walk, bind_eq_ok_iff] at found
    obtain ⟨_, _, found⟩ := found
    split at found
    · next last =>
      obtain ⟨rfl, _, rfl⟩ := Target.name.inj (Except.ok.inj found)
      simp only [List.mem_cons, List.not_mem_nil, or_false, not_or, Bool.and_eq_true,
        List.isEmpty_iff, decide_eq_true_eq] at last
      obtain ⟨rfl, proper, down⟩ := last
      exact ⟨rfl, proper, down⟩
    · obtain ⟨_, _, found⟩ := bind_eq_ok_iff.mp found
      obtain ⟨last, others⟩ := ih found
      refine ⟨?_, others⟩
      rw [List.getLast?_cons, last, Option.getD_some]

/-- A path that leads to a file ends in the file's name, which is not the way up. -/
theorem LeadsTo.endsIn (leads : d.LeadsTo p directory access name) :
    (∃ way, p.EndsIn way name) ∧ name ≠ ['.', '.'] := by
  obtain ⟨_, some, walked⟩ := locate_eq_ok_iff.mp leads.located
  obtain ⟨final, proper, down⟩ := walk_eq_name walked
  obtain ⟨way, last, text, closed, plain, splitLast⟩ := Path.exists_last_name p.text
  have full : last ≠ [] := by
    rintro rfl
    rw [List.append_nil] at text
    obtain rfl | ⟨front, rfl⟩ := closed
    · exact some text
    · have slash := leads.plain
      simp [Path.endsInSlash, text] at slash
  have same : last = name := by
    obtain ⟨others, names⟩ := List.getLast?_eq_some_iff.mp splitLast
    rw [Path.names, names, List.filter_append] at final
    simpa [full] using final
  subst same
  exact ⟨⟨way, text, closed, plain, full, proper⟩, down⟩

end Directory

end AccumulatorMachine.CommandLine
