import AccumulatorMachine.Machine.StateDump
import AccumulatorMachine.Proofs.Machine.History
import AccumulatorMachine.Proofs.Numeral.Written
import AccumulatorMachine.Proofs.Text.Lines

/-! The dump of a state shows all of it. The lines of the memory section are as many as its cells,
so that the sections can be told apart, and each line is the address or register that it is about
and a numeral. A machine that a host can bring about has words of its width alone, and a numeral
has then a digit for each bit. -/
namespace AccumulatorMachine

open Numeral (Denotes denotes_toDigits denotes_padded)

namespace Width

variable {w : Width} {word : UInt64}

/-- A word in binary, with a digit for each bit of the width. -/
structure Writes (w : Width) (text : String) (word : UInt64) : Prop where
  length : text.toList.length = w.bits
  denotes : Denotes 2 text.toList word.toNat

theorem denotes_binary (w : Width) (word : UInt64) :
    Denotes 2 (w.binary word).toList word.toNat :=
  denotes_padded (by decide) _ _

theorem writes_binary (fits : word.toNat < w.modulus) : w.Writes (w.binary word) word where
  length := by
    have some := w.min_le_bits
    exact Numeral.length_padded (by decide) (by omega) fits
  denotes := w.denotes_binary word

/-- Words that are too great for a width are told apart as well. -/
theorem binary_inj {a b : UInt64} : w.binary a = w.binary b ↔ a = b := by
  constructor
  · intro same
    have first := w.denotes_binary a
    rw [same] at first
    exact UInt64.toNat_inj.mp (first.unique (by decide) (w.denotes_binary b))
  · exact congrArg w.binary

theorem oneLine_binary (w : Width) (word : UInt64) : Text.OneLine (w.binary word) :=
  (w.denotes_binary word).notMem (by decide) rfl

end Width

theorem Flags.digit_inj {a b : Bool} : digit a = digit b ↔ a = b := by
  cases a <;> cases b <;> decide

theorem Flags.digit_append_inj {a b : Bool} {x y : String} :
    digit a ++ x = digit b ++ y ↔ a = b ∧ x = y := by
  simp only [← String.toList_inj, String.toList_append]
  cases a <;> cases b <;> simp [digit]

/-- The list of cells follows from what is in it. -/
theorem Memory.cells_eq_iff {a b : Memory} :
    a.cells = b.cells ↔ ∀ address word, (address, word) ∈ a.cells ↔ (address, word) ∈ b.cells := by
  constructor
  · intro same address word
    rw [same]
  · intro same
    simp only [cells, Std.ExtTreeMap.mem_toList_iff_getElem?_eq_some] at same
    have equal : a = b := by
      apply Std.ExtTreeMap.ext_getElem?
      intro address
      apply Option.ext
      exact same address
    rw [equal]

namespace Machine

theorem flagsLine_inj {f g : Flags} : flagsLine f = flagsLine g ↔ f = g := by
  constructor
  · intro same
    simp only [flagsLine, String.append_assoc, String.append_right_inj, Flags.digit_append_inj,
      Flags.digit_inj] at same
    obtain ⟨carry, negative, overflow, zero⟩ := same
    cases f
    cases g
    simp only [Flags.mk.injEq]
    exact ⟨carry, negative, overflow, zero⟩
  · exact congrArg flagsLine

/-- The line of a memory section for an address and a numeral. -/
def cellLine (cell : UInt64 × String) : String :=
  toString cell.1.toNat ++ " | " ++ cell.2

theorem toList_cellLine (cell : UInt64 × String) :
    (cellLine cell).toList =
      Nat.toDigits 10 cell.1.toNat ++ ' ' :: '|' :: ' ' :: cell.2.toList := by
  simp [cellLine]

theorem cellLine_inj {a b : UInt64 × String} : cellLine a = cellLine b ↔ a = b := by
  have decimal : ∀ n, Denotes 10 (Nat.toDigits 10 n) n := denotes_toDigits (by decide)
  have digits : ∀ n, ' ' ∉ Nat.toDigits 10 n := fun n => (decimal n).notMem (by decide) rfl
  constructor
  · intro same
    have texts := congrArg String.toList same
    rw [toList_cellLine, toList_cellLine, Text.cut_inj (digits _) (digits _)] at texts
    obtain ⟨addresses, numerals⟩ := texts
    simp only [List.cons.injEq, true_and] at numerals
    have first := decimal a.1.toNat
    rw [addresses] at first
    apply Prod.ext
    · exact UInt64.toNat_inj.mp (first.unique (by decide) (decimal b.1.toNat))
    · exact String.toList_inj.mp numerals
  · exact congrArg cellLine

variable {m m' : Machine}

/-- The occupied cells, each with its word in binary. -/
def shownCells (m : Machine) : List (UInt64 × String) :=
  m.memory.cells.map fun cell => (cell.1, m.width.binary cell.2)

theorem memoryLines_eq (m : Machine) : m.memoryLines = m.shownCells.map cellLine := by
  rw [shownCells, List.map_map]
  rfl

theorem memoryLines_inj (width : m.width = m'.width) :
    m.memoryLines = m'.memoryLines ↔ m.memory.cells = m'.memory.cells := by
  rw [memoryLines_eq, memoryLines_eq, List.map_inj_right fun _ _ => cellLine_inj.mp, shownCells,
    shownCells, width]
  apply List.map_inj_right
  intro a b same
  obtain ⟨addresses, numerals⟩ := Prod.mk.inj same
  exact Prod.ext addresses (Width.binary_inj.mp numerals)

theorem registerLines_inj (width : m.width = m'.width) :
    m.registerLines = m'.registerLines ↔ ∀ r, m.register r = m'.register r := by
  rw [registerLines, registerLines, List.map_inj_left, width]
  simp only [String.append_right_inj, Width.binary_inj]
  exact ⟨fun same r => same r r.mem_all, fun same r _ => same r⟩

/-- The sections can be told apart, however many lines the first one has. -/
theorem dumpLines_inj : m.dumpLines = m'.dumpLines ↔ m.memoryLines = m'.memoryLines ∧
    m.registerLines = m'.registerLines ∧ flagsLine m.flags = flagsLine m'.flags := by
  have six : ∀ m : Machine, m.registerLines.length = 6 := fun _ => rfl
  constructor
  · intro same
    have count : m.memoryLines.length = m'.memoryLines.length := by
      have lengths := congrArg List.length same
      simpa [dumpLines, six] using lengths
    simp only [dumpLines, List.append_assoc, List.append_cancel_left_eq] at same
    obtain ⟨memory, others⟩ := List.append_inj same count
    rw [List.append_cancel_left_eq] at others
    obtain ⟨registers, flags⟩ := List.append_inj others (by rw [six, six])
    exact ⟨memory, registers, (List.cons.inj flags).1⟩
  · rintro ⟨memory, registers, flags⟩
    rw [dumpLines, dumpLines, memory, registers, flags]

theorem oneLine_of_mem_dumpLines {line : String} (member : line ∈ m.dumpLines) :
    Text.OneLine line := by
  have cells : ∀ line ∈ m.memoryLines, Text.OneLine line := by
    intro line member
    obtain ⟨cell, _, rfl⟩ := List.mem_map.mp member
    have decimal : '\n' ∉ Nat.toDigits 10 cell.1.toNat :=
      (denotes_toDigits (by decide) _).notMem (by decide) rfl
    have binary := m.width.oneLine_binary cell.2
    simpa [Text.OneLine, decimal] using binary
  have registers : ∀ line ∈ m.registerLines, Text.OneLine line := by
    intro line member
    obtain ⟨r, _, rfl⟩ := List.mem_map.mp member
    have name : '\n' ∉ (Text.alignRight 3 r.name).toList := by
      cases r <;> decide
    have binary := m.width.oneLine_binary (m.register r)
    simpa [Text.OneLine, name] using binary
  have digits : ∀ flag, '\n' ∉ (Flags.digit flag).toList := by decide
  have flags : Text.OneLine (flagsLine m.flags) := by
    simp [Text.OneLine, flagsLine, digits]
  simp only [dumpLines, List.mem_append, List.mem_cons, List.not_mem_nil, or_false] at member
  rcases member with (((rfl | member) | rfl | rfl) | member) | rfl | rfl
  · simp [Text.OneLine]
  · exact cells line member
  · simp [Text.OneLine]
  · simp [Text.OneLine]
  · exact registers line member
  · exact flags
  · simp [Text.OneLine]

theorem dump_inj (width : m.width = m'.width) : m.dump = m'.dump ↔
    m.memory.cells = m'.memory.cells ∧ (∀ r, m.register r = m'.register r) ∧
      m.flags = m'.flags := by
  rw [dump, dump, Text.ofLines_inj (fun _ => oneLine_of_mem_dumpLines)
    (fun _ => oneLine_of_mem_dumpLines), dumpLines_inj, memoryLines_inj width,
    registerLines_inj width, flagsLine_inj]

/-- The layout of a dump: a line for each occupied cell, in the order of their addresses, and one
for each register. The numerals have a digit for each bit of the width. -/
structure DumpLayout (m : Machine) (cells : List (UInt64 × String)) (numerals : List String) :
    Prop where
  text : m.dump = Text.ofLines (
    ["---MEMORY-BEGIN---"] ++ cells.map cellLine ++
    ["----MEMORY-END----", "--REGISTER-BEGIN--"] ++
    List.zipWith (fun name numeral => name ++ ": " ++ numeral)
      ["ACC", " IX", "CIR", "MAR", "MDR", " PC"] numerals ++
    [flagsLine m.flags, "---REGISTER-END---"])
  ascending : cells.Pairwise fun a b => a.1 < b.1
  occupied : cells.map Prod.fst = m.memory.cells.map Prod.fst
  words : ∀ cell ∈ cells, m.width.Writes cell.2 (m.read cell.1)
  registers : List.Forall₂ (fun numeral r => m.width.Writes numeral (m.register r)) numerals
    Register.all

theorem dumpLayout_of_history {stores : List Store} (history : History stores m) :
    m.DumpLayout m.shownCells (Register.all.map fun r => m.width.binary (m.register r)) where
  text := by
    rw [dump, dumpLines, memoryLines_eq]
    rfl
  ascending := by
    rw [shownCells, List.pairwise_map]
    exact m.memory.cells_ascending
  occupied := by
    rw [shownCells, List.map_map]
    rfl
  words := by
    intro cell member
    obtain ⟨⟨address, word⟩, listed, rfl⟩ := List.mem_map.mp member
    have fits := history.read_lt address
    rw [Machine.read, Memory.read_of_mem_cells listed] at fits ⊢
    exact Width.writes_binary fits
  registers := by
    rw [List.forall₂_map_left_iff, List.forall₂_same]
    exact fun r _ => Width.writes_binary (history.register_lt r)

/-- A dump shows which cells are occupied and with which words, the registers and the flags, and
nothing of these is lost: machines of one width whose dumps are one text agree on all of them. -/
theorem dump_identifies_state {stores stores' : List Store} (history : History stores m)
    (history' : History stores' m') (width : m.width = m'.width) :
    (m.dump = m'.dump ↔
      (∀ address word, (address, word) ∈ m.memory.cells ↔ (address, word) ∈ m'.memory.cells) ∧
      (∀ r, m.register r = m'.register r) ∧ m.flags = m'.flags) ∧
    (∃ cells numerals, m.DumpLayout cells numerals) ∧
    ∃ cells numerals, m'.DumpLayout cells numerals := by
  rw [dump_inj width, Memory.cells_eq_iff]
  exact ⟨Iff.rfl, ⟨_, _, dumpLayout_of_history history⟩, ⟨_, _, dumpLayout_of_history history'⟩⟩

/-- Two machines of 12 bits have the same registers and flags and read the same words at all
addresses, but one of them has stored the zero that it reads at address 300: this shows. -/
theorem dump_identifies_state_of_stored_zero :
    let new : Machine := { width := ⟨12, by decide, by decide⟩ }
    let m := (new.write 10 4099).setRegister .acc 4095
    let m' := m.write 300 0
    History [⟨10, 4099⟩] m ∧ History [⟨10, 4099⟩, ⟨300, 0⟩] m' ∧ m.width = m'.width ∧
      m.memory.cells = [(10, 3)] ∧ m'.memory.cells = [(10, 3), (300, 0)] ∧ m.dump ≠ m'.dump ∧
      (∃ cells numerals, m.DumpLayout cells numerals) ∧
      ∃ cells numerals, m'.DumpLayout cells numerals := by
  intro new m m'
  have built : History [] new := .built (s := { bits := 12 }) (t := ⟨.unlimited, .plain⟩) rfl
  have history : History [⟨10, 4099⟩] m := (built.write 10 4099).setRegister .acc 4095
  have history' : History [⟨10, 4099⟩, ⟨300, 0⟩] m' := history.write 300 0
  have cells : m.memory.cells = [(10, 3)] := by decide +kernel
  have cells' : m'.memory.cells = [(10, 3), (300, 0)] := by decide +kernel
  obtain ⟨same, layout, layout'⟩ := dump_identifies_state history history' rfl
  refine ⟨history, history', rfl, cells, cells', ?_, layout, layout'⟩
  intro dumps
  have stored := ((same.mp dumps).1 300 0).mpr (by simp [cells'])
  rw [cells] at stored
  simp at stored

end Machine

end AccumulatorMachine
