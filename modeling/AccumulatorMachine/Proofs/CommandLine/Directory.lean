import AccumulatorMachine.CommandLine.Directory

/-! What writing a file does to a tree. It changes one entry and no directory, so that paths lead
where they led before, and the same path reads what was written. -/
namespace AccumulatorMachine.CommandLine

theorem bind_eq_ok_iff {ε α β : Type} {x : Except ε α} {f : α → Except ε β} {b : β} :
    x >>= f = .ok b ↔ ∃ a, x = .ok a ∧ f a = .ok b := by
  cases x with
  | error e => simp [bind, Except.bind]
  | ok a => simp [bind, Except.bind]

theorem map_eq_ok_iff {ε α β : Type} {x : Except ε α} {f : α → β} {b : β} :
    x.map f = .ok b ↔ ∃ a, x = .ok a ∧ f a = b := by
  cases x with
  | error e => simp [Except.map]
  | ok a => simp [Except.map]

theorem Access.toChange_eq_ok_iff {access : Access} :
    access.toChange = .ok () ↔ access = .full := by
  cases access <;> simp [toChange]

namespace Directory

theorem find?_store_self (d : Directory) (l : Location) (content : List UInt8) :
    (d.store l content).find? l = some (.file .full content) := by
  rw [find?, store, List.lookup_cons_self]

theorem lookup_filter_ne (entries : List (Location × Entry)) {l other : Location}
    (differs : other ≠ l) : (entries.filter (·.1 ≠ l)).lookup other = entries.lookup other := by
  induction entries with
  | nil => rfl
  | cons entry rest ih =>
    obtain ⟨first, held⟩ := entry
    by_cases replaced : first = l
    · have apart : other ≠ first := replaced ▸ differs
      rw [List.filter_cons_of_neg (by simp [replaced]), ih, List.lookup_cons,
        beq_eq_false_iff_ne.mpr apart]
    · rw [List.filter_cons_of_pos (by simp [replaced]), List.lookup_cons, List.lookup_cons, ih]

theorem find?_store_of_ne (d : Directory) {l other : Location} (differs : other ≠ l)
    (content : List UInt8) : (d.store l content).find? other = d.find? other := by
  simp only [find?, store]
  rw [List.lookup_cons, beq_eq_false_iff_ne.mpr differs, lookup_filter_ne _ differs]
  rfl

/-- The same directory to work in, and all directories as they are in another tree. -/
structure KeepsDirectories (d d' : Directory) : Prop where
  here : d'.here = d.here
  directory : ∀ l access, d.find? l = some (.directory access) →
    d'.find? l = some (.directory access)

variable {d d' : Directory} {p : Path} {l : Location} {content : List UInt8}

theorem enter_eq_ok_iff {access : Access} :
    d.enter l = .ok access ↔ d.find? l = some (.directory access) ∧ access.toLook = .ok () := by
  rw [enter]
  split
  · next none => simp [none]
  · next file => simp [file]
  · next allowed directory =>
    simp only [directory, map_eq_ok_iff, Option.some.injEq, Entry.directory.injEq]
    constructor
    · rintro ⟨_, look, rfl⟩
      exact ⟨rfl, look⟩
    · rintro ⟨rfl, look⟩
      exact ⟨_, look, rfl⟩

/-- A way through directories stays one for as long as the directories stay. -/
theorem walk_of_keepsDirectories (kept : d.KeepsDirectories d') {names : List (List Char)}
    {target : Target} (found : d.walk l names = .ok target) : d'.walk l names = .ok target := by
  induction names generalizing l with
  | nil => exact found
  | cons name further ih =>
    rw [walk, bind_eq_ok_iff] at found ⊢
    obtain ⟨access, entered, found⟩ := found
    obtain ⟨directory, look⟩ := enter_eq_ok_iff.mp entered
    refine ⟨access, enter_eq_ok_iff.mpr ⟨kept.directory l access directory, look⟩, ?_⟩
    split at found
    · next last =>
      rw [if_pos last]
      exact found
    · next more =>
      rw [if_neg more, bind_eq_ok_iff]
      obtain ⟨l', followed, found⟩ := bind_eq_ok_iff.mp found
      exact ⟨l', followed, ih found⟩

theorem locate_eq_ok_iff {target : Target} :
    d.locate p = .ok target ↔ Text.byteLength p.text ≤ pathLimit ∧ p.text ≠ [] ∧
      d.walk (if p.isAbsolute then .root else d.here) p.names = .ok target := by
  rw [locate, ← Nat.not_lt]
  split
  · next long => simp [long]
  · next short =>
    simp only [short, not_false_eq_true, true_and, ne_eq, List.isEmpty_iff]
    split <;> simp [*]

theorem locate_of_keepsDirectories (kept : d.KeepsDirectories d') {target : Target}
    (located : d.locate p = .ok target) : d'.locate p = .ok target := by
  obtain ⟨short, some, walked⟩ := locate_eq_ok_iff.mp located
  refine locate_eq_ok_iff.mpr ⟨short, some, ?_⟩
  rw [kept.here]
  exact walk_of_keepsDirectories kept walked

/-- The name that a path ends in, where it can be a file's. -/
structure LeadsTo (d : Directory) (p : Path) (directory : Location) (access : Access)
    (name : List Char) : Prop where
  located : d.locate p = .ok (.name directory access name)
  short : Text.byteLength name ≤ nameLimit
  plain : p.endsInSlash = false

theorem target_eq_ok_iff : d.target p = .ok l ↔ ∃ directory access name,
    d.LeadsTo p directory access name ∧ l = .inside directory name ∧
      (d.find? l = none ∧ access = .full ∨
        ∃ content, d.find? l = some (.file .full content)) := by
  rw [target, bind_eq_ok_iff]
  constructor
  · rintro ⟨found, located, opened⟩
    split at opened
    · contradiction
    · next directory access name =>
      split at opened
      · contradiction
      · next plain =>
        split at opened
        · contradiction
        · next short =>
          have leads : d.LeadsTo p directory access name :=
            ⟨located, Nat.not_lt.mp short, Bool.eq_false_iff.mpr plain⟩
          split at opened
          · next missing =>
            obtain ⟨_, allowed, rfl⟩ := map_eq_ok_iff.mp opened
            exact ⟨_, _, _, leads, rfl, .inl ⟨missing, Access.toChange_eq_ok_iff.mp allowed⟩⟩
          · contradiction
          · next access' content present =>
            obtain ⟨_, allowed, rfl⟩ := map_eq_ok_iff.mp opened
            obtain rfl := Access.toChange_eq_ok_iff.mp allowed
            exact ⟨_, _, _, leads, rfl, .inr ⟨content, present⟩⟩
  · rintro ⟨directory, access, name, leads, rfl, found⟩
    refine ⟨_, leads.located, ?_⟩
    simp only [leads.plain, Bool.false_eq_true, if_false, Nat.not_lt.mpr leads.short]
    rcases found with ⟨missing, rfl⟩ | ⟨content, present⟩
    · rw [missing]
      rfl
    · rw [present]
      rfl

theorem read_eq_ok_iff : d.read p = .ok content ↔ ∃ directory access name,
    d.LeadsTo p directory access name ∧ ∃ access',
      d.find? (.inside directory name) = some (.file access' content) ∧
        access'.toLook = .ok () := by
  rw [read, bind_eq_ok_iff]
  constructor
  · rintro ⟨found, located, opened⟩
    split at opened
    · obtain ⟨_, _, refused⟩ := bind_eq_ok_iff.mp opened
      contradiction
    · next directory access name =>
      split at opened
      · contradiction
      · next short =>
        split at opened
        · contradiction
        · obtain ⟨_, _, refused⟩ := bind_eq_ok_iff.mp opened
          contradiction
        · next access' content present =>
          split at opened
          · contradiction
          · next plain =>
            obtain ⟨_, look, rfl⟩ := map_eq_ok_iff.mp opened
            exact ⟨directory, access, name,
              ⟨located, Nat.not_lt.mp short, Bool.eq_false_iff.mpr plain⟩, access', present, look⟩
  · rintro ⟨directory, access, name, leads, access', present, look⟩
    refine ⟨_, leads.located, ?_⟩
    simp only [leads.plain, Bool.false_eq_true, if_false, Nat.not_lt.mpr leads.short, present,
      look]
    rfl

/-- The file that a path can be written to is no directory. -/
theorem ne_directory_of_target (found : d.target p = .ok l) (access : Access) :
    d.find? l ≠ some (.directory access) := by
  obtain ⟨_, _, _, _, _, ⟨missing, _⟩ | ⟨content, present⟩⟩ := target_eq_ok_iff.mp found
  · simp [missing]
  · simp [present]

theorem write_eq_ok_iff :
    d.write p content = .ok d' ↔ ∃ l, d.target p = .ok l ∧ d' = d.store l content := by
  rw [write, bind_eq_ok_iff]
  constructor
  · rintro ⟨l, found, stored⟩
    exact ⟨l, found, (Except.ok.inj stored).symm⟩
  · rintro ⟨l, found, rfl⟩
    exact ⟨l, found, rfl⟩

/-- Whether a path can be written does not hang on what is to be written. -/
theorem exists_write_iff :
    (∃ d', d.write p content = .ok d') ↔ ∃ l, d.target p = .ok l := by
  simp only [write_eq_ok_iff]
  constructor
  · rintro ⟨_, l, found, _⟩
    exact ⟨l, found⟩
  · rintro ⟨l, found⟩
    exact ⟨_, l, found, rfl⟩

/-- The file at a path has new content, and all else in the tree is as before. -/
structure Changes (d d' : Directory) (p : Path) (l : Location) (content : List UInt8) :
    Prop where
  target : d.target p = .ok l
  content : d'.find? l = some (.file .full content)
  others : ∀ other ≠ l, d'.find? other = d.find? other
  here : d'.here = d.here

theorem changes_of_write (written : d.write p content = .ok d') :
    ∃ l, d.Changes d' p l content := by
  obtain ⟨l, found, rfl⟩ := write_eq_ok_iff.mp written
  exact ⟨l, found, find?_store_self .., fun _ differs => find?_store_of_ne d differs content,
    rfl⟩

theorem Changes.keepsDirectories (changes : d.Changes d' p l content) :
    d.KeepsDirectories d' where
  here := changes.here
  directory := by
    intro l' access found
    have differs : l' ≠ l := by
      rintro rfl
      exact ne_directory_of_target changes.target access found
    rw [changes.others l' differs, found]

theorem LeadsTo.of_keepsDirectories {directory : Location} {access : Access} {name : List Char}
    (kept : d.KeepsDirectories d') (leads : d.LeadsTo p directory access name) :
    d'.LeadsTo p directory access name :=
  ⟨locate_of_keepsDirectories kept leads.located, leads.short, leads.plain⟩

/-- A file that is written can be read back by its path. -/
theorem Changes.read (changes : d.Changes d' p l content) : d'.read p = .ok content := by
  obtain ⟨directory, access, name, leads, rfl, _⟩ := target_eq_ok_iff.mp changes.target
  exact read_eq_ok_iff.mpr ⟨directory, access, name,
    leads.of_keepsDirectories changes.keepsDirectories, .full, changes.content, rfl⟩

end Directory

end AccumulatorMachine.CommandLine
