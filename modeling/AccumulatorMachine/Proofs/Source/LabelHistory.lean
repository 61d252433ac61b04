import AccumulatorMachine.Proofs.Source.LabelTable
import Mathlib.Data.Finset.Card

/-! Label tables by how they were made: by insertions one after another, of which the first with a
name binds it for good. The lines of a source are such a history; their numbers grow along it, so
that they grow along the table as well. -/
namespace AccumulatorMachine.Source

/-- Among insertions of names, the first one with a name, and the number it binds the name to. -/
def FirstBinding (made : List (List Char × Nat)) (name : List Char) (index : Nat) : Prop :=
  ∃ before after, made = before ++ (name, index) :: after ∧ name ∉ before.map Prod.fst

theorem FirstBinding.mem {made : List (List Char × Nat)} {name : List Char} {index : Nat}
    (first : FirstBinding made name index) : name ∈ made.map Prod.fst := by
  obtain ⟨before, after, rfl, _⟩ := first
  simp

theorem firstBinding_concat {made : List (List Char × Nat)} {b : List Char × Nat}
    {name : List Char} {index : Nat} :
    FirstBinding (made ++ [b]) name index ↔
      FirstBinding made name index ∨ (name ∉ made.map Prod.fst ∧ b = (name, index)) := by
  constructor
  · rintro ⟨before, after, whole, new⟩
    cases after using List.reverseRecOn with
    | nil =>
      obtain ⟨rfl, last⟩ := List.append_inj' whole rfl
      exact .inr ⟨new, (List.cons.inj last).1⟩
    | append_singleton others last =>
      rw [← List.cons_append, ← List.append_assoc] at whole
      exact .inl ⟨before, others, (List.append_inj' whole rfl).1, new⟩
  · rintro (⟨before, after, rfl, new⟩ | ⟨new, rfl⟩)
    · exact ⟨before, after ++ [b], by simp, new⟩
    · exact ⟨made, [], rfl, new⟩

/-- A first binding stands where its name stands first. -/
theorem FirstBinding.getElem?_idxOf {made : List (List Char × Nat)} {name : List Char}
    {index : Nat} (first : FirstBinding made name index) :
    made[(made.map Prod.fst).idxOf name]? = some (name, index) := by
  obtain ⟨before, after, rfl, new⟩ := first
  rw [List.map_append, List.idxOf_append_of_notMem new, List.map_cons, List.idxOf_cons_self,
    List.length_map]
  simp

theorem names_concat (made : List (List Char × Nat)) (name : List Char) (index : Nat) :
    (made ++ [(name, index)]).map Prod.fst = made.map Prod.fst ++ [name] :=
  List.map_append

theorem toFinset_names_concat (made : List (List Char × Nat)) (name : List Char) (index : Nat) :
    ((made ++ [(name, index)]).map Prod.fst).toFinset =
      insert name (made.map Prod.fst).toFinset := by
  rw [names_concat, List.toFinset_append, List.toFinset_cons, List.toFinset_nil,
    Finset.union_insert, Finset.union_empty]

namespace LabelTable

/-- What a table has to do with the insertions that made it: a name is found with what was bound to
it first, and the names are listed in the order in which they came. -/
structure Records (made : List (List Char × Nat)) (t : LabelTable) : Prop where
  found : ∀ name index, t.get? name = some index ↔ FirstBinding made name index
  absent : ∀ name, t.get? name = none ↔ name ∉ made.map Prod.fst
  listed : ∀ name index, (name, index) ∈ t.bindings ↔ FirstBinding made name index
  order : t.bindings.Pairwise fun a b =>
    (made.map Prod.fst).idxOf a.1 < (made.map Prod.fst).idxOf b.1
  size : t.size = (made.map Prod.fst).toFinset.card

variable {made : List (List Char × Nat)} {t : LabelTable}

theorem insert_eq_self {name : List Char} {old : Nat} (bound : t.get? name = some old)
    (index : Nat) : t.insert name index = t := by
  rw [insert, bound]

theorem bindings_insert {name : List Char} (new : t.get? name = none) (index : Nat) :
    (t.insert name index).bindings = t.bindings ++ [(name, index)] := by
  rw [insert, new]

theorem not_firstBinding_nil {name : List Char} {index : Nat} : ¬FirstBinding [] name index :=
  fun first => List.not_mem_nil first.mem

theorem Records.empty : Records [] LabelTable.empty where
  found _ _ := iff_of_false nofun not_firstBinding_nil
  absent _ := iff_of_true rfl List.not_mem_nil
  listed _ _ := iff_of_false List.not_mem_nil not_firstBinding_nil
  order := .nil
  size := rfl

/-- Later insertions do not move the first places of names. -/
theorem Records.order_concat (records : Records made t) (name : List Char) :
    t.bindings.Pairwise fun a b =>
      (made.map Prod.fst ++ [name]).idxOf a.1 < (made.map Prod.fst ++ [name]).idxOf b.1 := by
  have same : ∀ a ∈ t.bindings,
      (made.map Prod.fst ++ [name]).idxOf a.1 = (made.map Prod.fst).idxOf a.1 :=
    fun a member => List.idxOf_append_of_mem ((records.listed a.1 a.2).mp member).mem
  apply records.order.imp_of_mem
  intro a b member member' ordered
  rwa [same a member, same b member']

theorem Records.insert_bound (records : Records made t) {name : List Char}
    (bound : name ∈ made.map Prod.fst) (index : Nat) :
    Records (made ++ [(name, index)]) t := by
  have first : ∀ other i, FirstBinding (made ++ [(name, index)]) other i ↔
      FirstBinding made other i := by
    intro other i
    rw [firstBinding_concat, or_iff_left]
    rintro ⟨new, same⟩
    cases same
    exact new bound
  refine { found := ?found, absent := ?absent, listed := ?listed, order := ?order, size := ?size }
  case found => exact fun other i => (records.found other i).trans (first other i).symm
  case listed => exact fun other i => (records.listed other i).trans (first other i).symm
  case absent =>
    intro other
    rw [records.absent, names_concat, List.mem_append, List.mem_singleton, or_iff_left_of_imp]
    rintro rfl
    exact bound
  case order =>
    rw [names_concat]
    exact records.order_concat name
  case size =>
    rw [toFinset_names_concat, Finset.insert_eq_of_mem (List.mem_toFinset.mpr bound)]
    exact records.size

theorem Records.insert_new (records : Records made t) {name : List Char}
    (new : name ∉ made.map Prod.fst) (index : Nat) :
    Records (made ++ [(name, index)]) (t.insert name index) := by
  have listed := bindings_insert ((records.absent name).mpr new) index
  refine { found := ?found, absent := ?absent, listed := ?listed, order := ?order, size := ?size }
  case found =>
    intro other i
    rw [get?_insert, Option.or_eq_some_iff, records.found, records.absent, firstBinding_concat,
      Option.ite_none_right_eq_some, Option.some.injEq, Prod.mk.injEq, eq_comm (a := other)]
  case absent =>
    intro other
    rw [get?_insert, Option.or_eq_none_iff, records.absent, names_concat, List.mem_append,
      List.mem_singleton, not_or]
    apply and_congr_right'
    by_cases same : other = name
    · simp [same]
    · simp [same]
  case listed =>
    intro other i
    rw [listed, List.mem_append, List.mem_singleton, records.listed, firstBinding_concat]
    apply or_congr_right
    rw [eq_comm, iff_and_self]
    intro same
    cases same
    exact new
  case order =>
    rw [listed, names_concat, List.pairwise_append]
    refine ⟨records.order_concat name, List.pairwise_singleton _ _, ?_⟩
    intro a member b last
    have before := ((records.listed a.1 a.2).mp member).mem
    rw [List.mem_singleton.mp last, List.idxOf_append_of_mem before,
      List.idxOf_append_of_notMem new]
    exact Nat.lt_of_lt_of_le (List.idxOf_lt_length_of_mem before) (Nat.le_add_right _ _)
  case size =>
    have other : name ∉ (made.map Prod.fst).toFinset := fun member =>
      new (List.mem_toFinset.mp member)
    rw [LabelTable.size, listed, List.length_append, toFinset_names_concat,
      Finset.card_insert_of_notMem other, ← records.size]
    rfl

/-- A name that is bound stays as it is, and nothing else changes. -/
theorem Records.insert_eq_self (records : Records made t) {name : List Char}
    (bound : name ∈ made.map Prod.fst) (index : Nat) : t.insert name index = t := by
  cases look : t.get? name with
  | none => exact absurd bound ((records.absent name).mp look)
  | some old => exact LabelTable.insert_eq_self look index

theorem Records.insert (records : Records made t) (name : List Char) (index : Nat) :
    Records (made ++ [(name, index)]) (t.insert name index) := by
  by_cases bound : name ∈ made.map Prod.fst
  · rw [records.insert_eq_self bound]
    exact records.insert_bound bound index
  · exact records.insert_new bound index

/-- The table that insertions make, one after another, from the empty one. -/
def ofBindings (made : List (List Char × Nat)) : LabelTable :=
  made.foldl (fun t b => t.insert b.1 b.2) LabelTable.empty

theorem ofBindings_concat (made : List (List Char × Nat)) (b : List Char × Nat) :
    ofBindings (made ++ [b]) = (ofBindings made).insert b.1 b.2 :=
  List.foldl_concat ..

theorem records_ofBindings (made : List (List Char × Nat)) : Records made (ofBindings made) := by
  induction made using List.reverseRecOn with
  | nil => exact .empty
  | append_singleton made b ih =>
    rw [ofBindings_concat]
    exact ih.insert b.1 b.2

/-- What a line that has a number declares. -/
def declaration? (numbered : Line × Nat) : Option (List Char × Nat) :=
  (declaredLabel? numbered.1.first.text).map (·, numbered.2)

/-- The declarations in lines, a name again for each line that declares it. -/
def declarations (lines : List Line) : List (List Char × Nat) :=
  lines.zipIdx.filterMap declaration?

theorem addLines_eq_foldl (index : Nat) (lines : List Line) (t : LabelTable) :
    addLines index lines t = ((lines.zipIdx index).filterMap declaration?).foldl
      (fun t b => t.insert b.1 b.2) t := by
  induction lines generalizing index t with
  | nil => rfl
  | cons line rest ih =>
    rw [addLines, ih, List.zipIdx_cons, List.filterMap_cons, declaration?]
    cases declaredLabel? line.first.text with
    | none => rfl
    | some name => rfl

theorem ofLines_eq_ofBindings (lines : List Line) :
    ofLines lines = ofBindings (declarations lines) :=
  addLines_eq_foldl 0 lines LabelTable.empty

theorem pairwise_declarations (lines : List Line) :
    (declarations lines).Pairwise fun a b => a.2 < b.2 := by
  have numbers : lines.zipIdx.Pairwise fun a b => a.2 < b.2 := by
    rw [← List.pairwise_map (f := Prod.snd), List.zipIdx_map_snd]
    exact List.pairwise_lt_range'
  apply numbers.filterMap
  intro a b before declared found declared' found'
  obtain ⟨_, _, rfl⟩ := Option.map_eq_some_iff.mp found
  obtain ⟨_, _, rfl⟩ := Option.map_eq_some_iff.mp found'
  exact before

/-- Where the numbers of all insertions grow, so do those that are kept. -/
theorem Records.pairwise_index (records : Records made t)
    (grow : made.Pairwise fun a b => a.2 < b.2) : t.bindings.Pairwise fun a b => a.2 < b.2 := by
  apply records.order.imp_of_mem
  intro a b member member' before
  have at_ := ((records.listed a.1 a.2).mp member).getElem?_idxOf
  have at_' := ((records.listed b.1 b.2).mp member').getElem?_idxOf
  obtain ⟨inside, same⟩ := List.getElem?_eq_some_iff.mp at_
  obtain ⟨inside', same'⟩ := List.getElem?_eq_some_iff.mp at_'
  have grown := List.pairwise_iff_getElem.mp grow _ _ inside inside' before
  rwa [same, same'] at grown

/-- What a table has to do with the lines it was made for: a name marks the first line that
declares it, and the table lists the names in the order of those lines. -/
structure Collects (lines : List Line) (t : LabelTable) : Prop where
  found : ∀ name i, t.get? name = some i ↔ FirstDeclaration lines name i
  absent : ∀ name, t.get? name = none ↔ ∀ line ∈ lines, ¬line.Declares name
  listed : ∀ name i, (name, i) ∈ t.bindings ↔ FirstDeclaration lines name i
  inside : ∀ b ∈ t.bindings, b.2 < lines.length
  increasing : t.bindings.Pairwise fun a b => a.2 < b.2

theorem collects_ofLines (lines : List Line) : Collects lines (ofLines lines) := by
  have records := records_ofBindings (declarations lines)
  rw [← ofLines_eq_ofBindings] at records
  have listed : ∀ name i, (name, i) ∈ (ofLines lines).bindings ↔ FirstDeclaration lines name i :=
    fun name i => ((records.listed name i).trans (records.found name i).symm).trans get?_ofLines
  exact {
    found := fun _ _ => get?_ofLines
    absent := fun _ => get?_ofLines_eq_none_iff
    listed := listed
    inside := fun b member => ((listed b.1 b.2).mp member).lt_length
    increasing := records.pairwise_index (pairwise_declarations lines) }

end LabelTable

/-- A table keeps the first binding of each name, whatever was inserted and in which order, and a
name that is bound has no effect any more. So the table of the lines of a source has each label at
the first line that declares it. -/
theorem labelTable_keeps_first :
    (∀ made, LabelTable.Records made (.ofBindings made) ∧
      ∀ name ∈ made.map Prod.fst, ∀ index,
        (LabelTable.ofBindings made).insert name index = .ofBindings made) ∧
      ∀ source, LabelTable.Collects (lines source) (.ofLines (lines source)) := by
  constructor
  · intro made
    have records := LabelTable.records_ofBindings made
    exact ⟨records, fun _ bound index => records.insert_eq_self bound index⟩
  · exact fun source => LabelTable.collects_ofLines (lines source)

example : (LabelTable.ofBindings [(['a'], 1), (['b'], 3), (['a'], 5)]).bindings =
    [(['a'], 1), (['b'], 3)] := by decide

end AccumulatorMachine.Source
