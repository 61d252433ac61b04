import AccumulatorMachine.Proofs.Machine.Checked
import AccumulatorMachine.Proofs.Machine.Control
import Mathlib.Tactic.ByContra

/-! Where a run fetches its instructions. The program counter of a machine that goes on is
inside the program although it was narrowed after it had been compared with the end, since
narrowing makes no address greater. -/
namespace AccumulatorMachine

/-- A stage that goes on has sent control to an address before the end of the program. -/
theorem Execution.pc_lt_of_next {stop : Nat} {m before : Machine} {steps k : Nat}
    (goesOn : next stop (.running m steps) = .running before k) :
    (before.register .pc).toNat < stop := by
  have follows := follows_next stop m steps
  rw [goesOn] at follows
  cases follows with
  | @goesOn m' _ successor inside step goes within =>
    -- Narrowing may lead back into the program, but never past its end.
    have narrowed : (m'.register .pc).toNat = successor % m'.width.modulus := by
      have steps := m.steps_step
      rw [step] at steps
      cases steps with
      | done fetched known carried =>
        rw [Machine.register_put, if_pos rfl, Width.toNat_truncate_natCast, Machine.width_put]
    change (m'.register .pc).toNat < stop
    rw [narrowed]
    exact Nat.lt_of_le_of_lt (Nat.mod_le _ _) within

namespace Machine

variable {m before : Machine} {p : Program}

/-- A run that goes on has its program counter inside its program, unless that is empty. -/
theorem pc_inside (nonempty : p ≠ []) {k steps : Nat}
    (stage : m.execute k p = .running before steps) :
    (before.register .pc).toNat < p.cellCount := by
  have positive : 0 < p.cellCount :=
    Nat.mul_pos (List.length_pos_iff.mpr nonempty) Nat.zero_lt_two
  cases k with
  | zero =>
    change m.start p = _ at stage
    rw [start] at stage
    split at stage
    · contradiction
    · cases stage
      have zero := m.pc_loaded p
      rw [loaded] at zero
      rwa [zero]
  | succ k =>
    rw [execute_succ] at stage
    cases earlier : m.execute k p with
    | running m' steps' =>
      rw [earlier] at stage
      exact Execution.pc_lt_of_next stage
    | finished m' result =>
      rw [earlier] at stage
      contradiction

/-- A machine of a run fetches an instruction of a program: the code from a cell of the
program and the operand from the cell after it, which has an address. The code is the
program's own or one that the run has stored there since, whatever lay there before. -/
structure FetchesInside (p : Program) (stores : List Store) (m : Machine) : Prop where
  inside : (m.register .pc).toNat < p.cellCount
  operand : (m.register .pc + 1).toNat = (m.register .pc).toNat + 1
  fetched : m.fetch? (m.register .pc) =
    some (m.read (m.register .pc), m.read (m.register .pc + 1))
  fresh : ∃ word, (Store.last? stores (m.register .pc)).or
      (p.word? (m.register .pc).toNat) = some word ∧
    m.read (m.register .pc) = m.width.truncate word.toNat

theorem fetchesInside_of_stage (room : p.cellCount < 2 ^ 64) (nonempty : p ≠ []) {k steps : Nat}
    (stage : m.execute k p = .running before steps) :
    before.FetchesInside p ((m.start p).stores p.cellCount k) := by
  have inside := pc_inside nonempty stage
  have operand : (before.register .pc + 1).toNat = (before.register .pc).toNat + 1 := by
    rw [UInt64.toNat_add, UInt64.toNat_one]
    omega
  have fits : p.cellCount ≤ m.width.modulus := by
    by_contra large
    rw [execute, start_eq_refused (Nat.lt_of_not_le large), Execution.after_finished] at stage
    contradiction
  refine ⟨inside, operand, ?_, ?_⟩
  · rw [fetch?, cellAfter?_eq_some_iff.mpr operand, Option.map_some]
  · obtain ⟨loaded, listed⟩ := Program.exists_word? inside
    have read := read_at_stage fits stage (before.register .pc)
    rw [width_of_stage stage, read, listed, read_loaded fits listed]
    cases Store.last? ((m.start p).stores p.cellCount k) (before.register .pc) with
    | none => exact ⟨loaded, rfl, rfl⟩
    | some word => exact ⟨word, rfl, rfl⟩

/-- A run stays inside its program and inside storage: its checked run is lost nowhere, and
each of its machines that goes on fetches from inside the program. An empty program ends with
no instruction fetched. -/
theorem execute_stays_inside (m : Machine) {p : Program} (room : p.cellCount < 2 ^ 64) :
    (∀ limit, m.execute? limit p = some (m.execute limit p)) ∧
      m.width.mask? = some m.width.mask ∧
      ∀ k before steps, m.execute k p = .running before steps →
        p = [] ∧ m.execute (k + 1) p = .conclude before steps false ∨
          before.FetchesInside p ((m.start p).stores p.cellCount k) := by
  refine ⟨m.execute?_eq room, m.width.mask?_eq, ?_⟩
  intro k before steps stage
  by_cases empty : p = []
  · subst empty
    have ends : Execution.Follows 0 before steps (.conclude before steps false) :=
      .outside (Nat.zero_le _)
    exact .inl ⟨rfl, by rw [execute_succ, stage]; exact ends.next_eq⟩
  · exact .inr (fetchesInside_of_stage room empty stage)

/-- A machine of 8 bits in which cells 4 and 5 are left from a longer program jumps to the
operand of its last instruction, finds a halt there and takes the left cell for its operand. -/
theorem execute_stays_inside_of_odd_jump :
    let m := (({ width := ⟨8, by decide, by decide⟩ } : Machine).write 4 0x31).write 5 6
    let p : Program := [⟨0x30, 3⟩, ⟨0x00, 0x33⟩]
    p.cellCount < 2 ^ 64 ∧ (m.execute 3 p).result? = some (.ok ⟨2, true⟩) ∧
      ((m.execute 1 p).machine.register .pc).toNat = 3 ∧
      (m.execute? 3 p).bind Execution.result? = some (.ok ⟨2, true⟩) ∧
      (m.execute 1 p).machine.FetchesInside p ((m.start p).stores p.cellCount 1) := by
  intro m p
  have room : p.cellCount < 2 ^ 64 := by decide
  obtain ⟨checked, _, inside⟩ := m.execute_stays_inside room
  have ends : (m.execute 3 p).result? = some (.ok ⟨2, true⟩) := by decide +kernel
  refine ⟨room, ends, by decide +kernel, by rw [checked]; exact ends, ?_⟩
  obtain ⟨empty, _⟩ | fetches := inside 1 (m.execute 1 p).machine 1
    (execute_eq_running (by decide +kernel))
  · exact absurd empty (List.cons_ne_nil _ _)
  · exact fetches

end Machine

end AccumulatorMachine
