import AccumulatorMachine.Proofs.Machine.Fetches
import AccumulatorMachine.Proofs.Machine.Stores
import AccumulatorMachine.Settings
import Mathlib.Control.Monad.Basic

/-! Machines that a host can bring about, by whatever calls in whatever order, and what is
true of every one of them. A history carries the stores that were made on the way, so that
memory can be compared with them. -/
namespace AccumulatorMachine

/-- The calls that made a machine, known by the stores that they made. A run counts as
followed through any number of stages, and so at each of its stages, at its end and after
it has failed. A refused load has stored what it could. -/
inductive History : List Store → Machine → Prop
  | built {s : Settings} {t : Trace} {m : Machine} (made : s.machine t = .ok m) : History [] m
  | setRegister (earlier : History stores m) (r : Register) (word : UInt64) :
      History stores (m.setRegister r word)
  | write (earlier : History stores m) (address word : UInt64) :
      History (stores ++ [⟨address, word⟩]) (m.write address word)
  | loadInstruction (earlier : History stores m) (address : UInt64) (i : Instruction) :
      History (stores ++ i.stores address) (m.loadInstruction address i).1
  | attachInput (earlier : History stores m) (d : InputDevice) :
      History stores (m.attachInput d)
  | attachOutput (earlier : History stores m) (d : OutputDevice) :
      History stores (m.attachOutput d)
  | traceTo (earlier : History stores m) (t : Trace) : History stores (m.traceTo t)
  | execute (earlier : History stores m) (p : Program) (limit : Nat) :
      History (stores ++ m.runStores limit p) (m.execute limit p).machine

/-- Flags as a comparison leaves them, or as they were at first. -/
structure Flags.Consistent (f : Flags) : Prop where
  overflow : f.overflow = false
  carry : f.carry = f.negative
  exclusive : ¬(f.carry = true ∧ f.zero = true)

theorem Flags.consistent_compare {f : Flags} (clear : f.overflow = false)
    (left right : UInt64) : (f.compare left right).Consistent where
  overflow := clear
  carry := rfl
  exclusive := by
    simp only [compare, decide_eq_true_eq, beq_iff_eq, UInt64.lt_iff_toNat_lt, not_and]
    rintro below rfl
    exact Nat.lt_irrefl _ below

namespace Machine

theorem stable_registers : Stable fun m => ∀ r, (m.register r).toNat < m.width.modulus where
  put := by
    intro m fits r value s
    rw [register_put]
    split
    · exact m.width.truncate_lt value
    · exact fits s
  write fits _ _ := fits
  compare fits _ _ := fits
  around fits _ _ _ _ := fits

theorem stable_flags : Stable fun m => m.flags.Consistent where
  put consistent _ _ := consistent
  write consistent _ _ := consistent
  compare consistent _ _ := Flags.consistent_compare consistent.overflow _ _
  around consistent _ _ _ _ := consistent

end Machine

namespace History

/-- What no store can break is true after every history if it is true of new machines. -/
theorem of_stable {P : Machine → Prop} (stable : Machine.Stable P)
    (built : ∀ w trace, P { width := w, trace }) (history : History stores m) : P m := by
  induction history with
  | built made =>
    simp only [Settings.machine] at made
    split at made
    · contradiction
    · obtain rfl := Except.ok.inj made
      exact built _ _
  | setRegister _ r word ih => exact stable.put ih r _
  | write _ address word ih => exact stable.write ih address word
  | loadInstruction _ address i ih => exact stable.loadInstruction ih address i
  | attachInput _ d ih => exact stable.attachInput ih d
  | attachOutput _ d ih => exact stable.attachOutput ih d
  | traceTo _ t ih => exact stable.traceTo ih t
  | execute _ p limit ih => exact stable.execute limit p ih

theorem register_lt (history : History stores m) (r : Register) :
    (m.register r).toNat < m.width.modulus := by
  refine history.of_stable Machine.stable_registers (fun w trace r => ?_) r
  cases r <;> exact w.modulus_pos

/-- Wherever a run fetches, the registers have words of the width that it started with. -/
theorem register_lt_of_mem_fetches (history : History stores m) {limit : Nat} {p : Program}
    {before : Machine} (fetched : before ∈ m.fetches limit p) (r : Register) :
    (before.register r).toNat < m.width.modulus := by
  have bounded := Execution.mem_fetches_of_stable Machine.stable_registers
    (Machine.stable_registers.start p history.register_lt) fetched r
  rwa [Machine.width_of_mem_fetches fetched] at bounded

theorem memory_eq (history : History stores m) :
    m.memory = Memory.receiveAll m.width ∅ stores := by
  induction history with
  | built made =>
    simp only [Settings.machine] at made
    split at made
    · contradiction
    · obtain rfl := Except.ok.inj made
      rfl
  | setRegister _ r word ih | attachInput _ _ ih | attachOutput _ _ ih | traceTo _ _ ih =>
    exact ih
  | @write stores m _ address word ih =>
    rw [Memory.receiveAll_append, Machine.width_write, ← ih]
    rfl
  | loadInstruction _ address i ih =>
    rw [Memory.receiveAll_append, Machine.memory_loadInstruction, Machine.width_loadInstruction,
      ← ih]
  | @execute stores m _ p limit ih =>
    have width := (Machine.stable_width m.width).execute limit p (m := m) rfl
    rw [Memory.receiveAll_append, Machine.memory_execute, width, ← ih]

end History

/-- The state of a machine of width N beside the stores that were made to it. -/
structure StateInvariant (stores : List Store) (m : Machine) : Prop where
  registers : ∀ r, (m.register r).toNat < 2 ^ m.width.bits
  cells : ∀ cell ∈ m.memory.cells, cell.2.toNat < 2 ^ m.width.bits
  flags : m.flags.Consistent
  ascending : m.memory.cells.Pairwise fun a b => a.1 < b.1
  /-- The cells that are listed are those that were stored to, with what is read there. -/
  listed : ∀ address word, (address, word) ∈ m.memory.cells ↔
    (∃ s ∈ stores, s.address = address) ∧ m.read address = word
  /-- What is read is the last word stored there, modulo 2 ^ N, or zero. -/
  reads : ∀ address, (m.read address).toNat =
    ((Store.last? stores address).map fun word => word.toNat % 2 ^ m.width.bits).getD 0

theorem History.read_toNat (history : History stores m) (address : UInt64) :
    (m.read address).toNat =
      ((Store.last? stores address).map fun word => word.toNat % 2 ^ m.width.bits).getD 0 := by
  rw [Machine.read, history.memory_eq, Memory.read_receiveAll, Memory.read_empty]
  cases Store.last? stores address with
  | none => rfl
  | some word => exact m.width.toNat_truncate_natCast word.toNat

theorem History.read_lt (history : History stores m) (address : UInt64) :
    (m.read address).toNat < m.width.modulus := by
  rw [history.read_toNat]
  cases Store.last? stores address with
  | none => exact m.width.modulus_pos
  | some word => exact Nat.mod_lt _ m.width.modulus_pos

/-- No call, and no run however it ends, leads out of the invariant. -/
theorem state_of_history (history : History stores m) : StateInvariant stores m where
  registers := history.register_lt
  cells := by
    rintro ⟨address, word⟩ member
    have bound := history.read_lt address
    rwa [Machine.read, Memory.read_of_mem_cells member] at bound
  flags := history.of_stable Machine.stable_flags fun _ _ => ⟨rfl, rfl, by simp⟩
  ascending := m.memory.cells_ascending
  listed address word := by
    have occupied : address ∈ m.memory ↔ ∃ s ∈ stores, s.address = address := by
      rw [history.memory_eq, Memory.mem_receiveAll]
      simp
    constructor
    · intro member
      exact ⟨occupied.mp (Memory.exists_mem_cells_iff.mp ⟨word, member⟩),
        Memory.read_of_mem_cells member⟩
    · rintro ⟨stored, rfl⟩
      obtain ⟨word, member⟩ := Memory.exists_mem_cells_iff.mpr (occupied.mpr stored)
      rwa [Machine.read, Memory.read_of_mem_cells member]
  reads := history.read_toNat

/-- A host stores 511 past the addresses of 8 bits and lets a program store over the
instruction that was to halt it: the run fails there, and the invariant holds. -/
theorem state_of_overwritten_program :
    let m := (({ width := ⟨8, by decide, by decide⟩ } : Machine).write 1000 511).setRegister
      .mar 260
    let p : Program := [⟨0x00, 300⟩, ⟨0x06, 0⟩, ⟨0x33, 0⟩]
    (m.execute 5 p).result? = some (.error (.invalidOpcode 44)) ∧
      History (⟨1000, 511⟩ :: m.runStores 5 p) (m.execute 5 p).machine ∧
      StateInvariant (⟨1000, 511⟩ :: m.runStores 5 p) (m.execute 5 p).machine := by
  intro m p
  have built : History [] { width := ⟨8, by decide, by decide⟩ } :=
    .built (s := { bits := 8 }) (t := ⟨.unlimited, .plain⟩) rfl
  have history : History (⟨1000, 511⟩ :: m.runStores 5 p) (m.execute 5 p).machine :=
    .execute (.setRegister (built.write 1000 511) .mar 260) p 5
  exact ⟨by decide +kernel, history, state_of_history history⟩

end AccumulatorMachine
