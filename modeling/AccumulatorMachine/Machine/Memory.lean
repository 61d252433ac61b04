import Std.Data.ExtTreeMap

/-! Memory: words at addresses. Every address of storage has a cell; the cells that were
written are kept apart from the others, which hold zero. -/
namespace AccumulatorMachine

abbrev Memory := Std.ExtTreeMap UInt64 UInt64 compare

namespace Memory

def read (m : Memory) (address : UInt64) : UInt64 :=
  m.getD address 0

def write (m : Memory) (address word : UInt64) : Memory :=
  m.insert address word

/-- The cells that were written, in the order of their addresses. -/
def cells (m : Memory) : List (UInt64 × UInt64) :=
  m.toList

theorem read_empty (address : UInt64) : read ∅ address = 0 := by
  simp [read]

theorem read_write (m : Memory) (address word other : UInt64) :
    (m.write address word).read other = if other = address then word else m.read other := by
  simp [read, write, Std.ExtTreeMap.getD_insert, eq_comm (a := other)]

/-- A cell holds what is read at its address. -/
theorem read_of_mem_cells {m : Memory} {address word : UInt64}
    (member : (address, word) ∈ m.cells) : m.read address = word := by
  rw [cells, Std.ExtTreeMap.mem_toList_iff_getElem?_eq_some] at member
  rw [read, Std.ExtTreeMap.getD_eq_getD_getElem?, member, Option.getD_some]

theorem exists_mem_cells_iff {m : Memory} {address : UInt64} :
    (∃ word, (address, word) ∈ m.cells) ↔ address ∈ m := by
  simp only [cells, Std.ExtTreeMap.mem_toList_iff_getElem?_eq_some]
  rw [Std.ExtTreeMap.mem_iff_isSome_getElem?, Option.isSome_iff_exists]

theorem mem_write {m : Memory} {address word other : UInt64} :
    other ∈ m.write address word ↔ other = address ∨ other ∈ m := by
  simp [write, Std.ExtTreeMap.mem_insert, eq_comm (a := address)]

theorem cells_ascending (m : Memory) :
    m.cells.Pairwise fun a b => a.1 < b.1 :=
  m.ordered_keys_toList.imp compareOfLessAndEq_eq_lt.mp

end Memory

end AccumulatorMachine
