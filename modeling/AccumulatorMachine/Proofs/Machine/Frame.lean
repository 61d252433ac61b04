import AccumulatorMachine.Proofs.Machine.Fetches
import AccumulatorMachine.Proofs.Machine.History
import AccumulatorMachine.Proofs.Machine.Operation
import Mathlib.Data.Int.ModEq
import Mathlib.Data.List.Basic

/-! What a run leaves alone, however it ends. Every change is the work of an instruction that was
carried out: a cell is stored in where the address register points, flags are set by comparisons,
and the registers that no instruction loads only count. -/
namespace AccumulatorMachine

/-- The operations that set flags. -/
def Opcode.comparisons : List Opcode :=
  [compareDirect, compareImmediate, compareIndirect]

/-- The registers that instructions only count in. -/
def Register.counters : List Register :=
  [mar, cir, mdr]

/-- How often instructions count a register up, less how often they count it down. -/
def Register.bumps (r : Register) (performed : List (Opcode × UInt64)) : Int :=
  performed.count (.increment, UInt64.ofNat r.index) -
    performed.count (.decrement, UInt64.ofNat r.index)

namespace Register

theorem bumps_nil (r : Register) : r.bumps [] = 0 := rfl

theorem bumps_append (r : Register) (first further : List (Opcode × UInt64)) :
    r.bumps (first ++ further) = r.bumps first + r.bumps further := by
  simp only [bumps, List.count_append]
  omega

theorem ofNat_index_eq_iff {r : Register} {operand : UInt64} :
    operand = UInt64.ofNat r.index ↔ operand.toNat = r.index := by
  have small : r.index < 2 ^ 64 := by cases r <;> decide
  rw [← UInt64.toNat_inj, UInt64.toNat_ofNat', Nat.mod_eq_of_lt small]

/-- One instruction counts once, if it is the one that is looked for. -/
theorem count_instruction (op op' : Opcode) (r : Register) (operand : UInt64) :
    [(op', operand)].count (op, UInt64.ofNat r.index) =
      if op' = op ∧ operand.toNat = r.index then 1 else 0 := by
  simp only [List.count_singleton, beq_iff_eq, Prod.mk.injEq, ofNat_index_eq_iff]

theorem bumps_increment (r : Register) (operand : UInt64) :
    r.bumps [(.increment, operand)] = if operand.toNat = r.index then 1 else 0 := by
  simp [bumps, count_instruction]

theorem bumps_decrement (r : Register) (operand : UInt64) :
    r.bumps [(.decrement, operand)] = if operand.toNat = r.index then -1 else 0 := by
  simp only [bumps, count_instruction, reduceCtorEq, true_and, false_and, if_false]
  split <;> rfl

theorem bumps_of_ne (r : Register) {op : Opcode} (up : op ≠ .increment) (down : op ≠ .decrement)
    (operand : UInt64) : r.bumps [(op, operand)] = 0 := by
  simp [bumps, up, down]

theorem ne_pc_of_counter {r : Register} (counter : r ∈ counters) : r ≠ .pc := by
  rintro rfl
  contradiction

end Register

namespace Opcode

theorem stored?_notMem_counters {op : Opcode} (up : op ≠ increment) (down : op ≠ decrement)
    {r : Register} (counter : r ∈ Register.counters) (operand : UInt64) :
    op.stored? operand ≠ some r := by
  cases op with
  | increment => exact absurd rfl up
  | decrement => exact absurd rfl down
  | loadImmediate | loadDirect | loadIndirect | loadIndexed | loadIndex | copyToIndex | input
  | addDirect | addImmediate | subDirect | subImmediate =>
    rintro ⟨⟩
    contradiction
  | _ => rintro ⟨⟩

/-- The operations that can change the index register. -/
theorem cases_of_stored?_ix {op : Opcode} {operand : UInt64}
    (stored : op.stored? operand = some .ix) :
    op = .loadIndex ∨ op = .copyToIndex ∨
      (op = .increment ∨ op = .decrement) ∧ operand.toNat = Register.ix.index := by
  cases op with
  | loadIndex => exact .inl rfl
  | copyToIndex => exact .inr (.inl rfl)
  | increment => exact .inr (.inr ⟨.inl rfl, (Register.ofIndex?_eq_some_iff.mp stored).symm⟩)
  | decrement => exact .inr (.inr ⟨.inr rfl, (Register.ofIndex?_eq_some_iff.mp stored).symm⟩)
  | _ => cases stored

end Opcode

/-- Stores that all go elsewhere leave a cell as it was, and one that was not there stays away. -/
theorem Memory.getElem?_receiveAll {stores : List Store} {address : UInt64}
    (elsewhere : ∀ s ∈ stores, s.address ≠ address) (w : Width) (m : Memory) :
    (m.receiveAll w stores)[address]? = m[address]? := by
  induction stores generalizing m with
  | nil => rfl
  | cons s rest ih =>
    obtain ⟨first, further⟩ := List.forall_mem_cons.mp elsewhere
    rw [receiveAll, List.foldl_cons, ← receiveAll, ih further, receive, write,
      Std.ExtTreeMap.getElem?_insert, if_neg]
    rwa [Std.LawfulEqCmp.compare_eq_iff_eq]

/-- Loading stores in the cells of the program only. -/
theorem Program.address_lt_of_mem_stores {first : Nat} {p : Program} {s : Store}
    (room : first + p.cellCount ≤ 2 ^ 64) (member : s ∈ Program.stores first p) :
    s.address.toNat < first + p.cellCount := by
  induction p generalizing first with
  | nil => cases member
  | cons i rest ih =>
    have count : cellCount (i :: rest) = cellCount rest + 2 := Nat.succ_mul _ _
    rw [count] at room ⊢
    obtain own | later := List.mem_append.mp member
    · have start : (UInt64.ofNat first).toNat = first := by
        rw [UInt64.toNat_ofNat']
        omega
      obtain code | operand := List.mem_cons.mp own
      · rw [code, start]
        omega
      · obtain ⟨after, found, rfl⟩ := List.mem_map.mp operand
        have next := Machine.cellAfter?_eq_some_iff.mp (Option.mem_toList.mp found)
        rw [start] at next
        change after.toNat < _
        omega
    · have inside := ih (by rw [cellsPerInstruction]; omega) later
      rw [cellsPerInstruction] at inside
      omega

namespace Machine

/-- The instruction at the program counter with its operand, unless its step fails. -/
def performed? (m : Machine) : Option (Opcode × UInt64) :=
  if m.step.2.isOk then
    (m.fetch? (m.register .pc)).bind fun (cell, operand) =>
      (decode? cell).map fun op => (op, operand)
  else none

/-- The instructions that a run carries out while it is followed through at most so many stages. -/
def performed (limit : Nat) (m : Machine) (p : Program) : List (Opcode × UInt64) :=
  (m.fetches limit p).filterMap performed?

variable {m m' : Machine} {op : Opcode} {operand : UInt64} {flow : Flow}

/-- Only the comparisons change flags. -/
theorem flags_perform (m : Machine) (other : op ∉ Opcode.comparisons) (operand : UInt64) :
    (m.perform op operand).1.flags = m.flags := by
  cases op with
  | compareDirect | compareImmediate | compareIndirect => exact absurd (by decide) other
  | input =>
    simp only [perform, readInput]
    split
    · rfl
    · split <;> rfl
  | output =>
    simp only [perform, writeOutput]
    split
    · rfl
    · split <;> rfl
  | increment | decrement =>
    simp only [perform, bump]
    split <;> rfl
  | _ => rfl

theorem counter_bump {amount : Int} (done : m.bump operand amount = (m', .ok flow))
    (r : Register) : ((m'.register r).toNat : Int) ≡
      (m.register r).toNat + (if operand.toNat = r.index then amount else 0)
      [ZMOD m.width.modulus] := by
  rw [toNat_register_bump done r]
  split
  · exact Int.mod_modEq _ _
  · rw [add_zero]

/-- A counter changes by what its instruction counts, narrowed. -/
theorem counter_perform (done : m.perform op operand = (m', .ok flow)) {r : Register}
    (counter : r ∈ Register.counters) :
    ((m'.register r).toNat : Int) ≡ (m.register r).toNat + r.bumps [(op, operand)]
      [ZMOD m.width.modulus] := by
  by_cases up : op = .increment
  · subst up
    rw [r.bumps_increment]
    exact counter_bump done r
  · by_cases down : op = .decrement
    · subst down
      rw [r.bumps_decrement]
      exact counter_bump done r
    · have kept := m.register_perform op (Opcode.stored?_notMem_counters up down counter operand)
      rw [done] at kept
      rw [kept, r.bumps_of_ne up down operand, add_zero]

/-- What a step changes, apart from memory. -/
structure ChangesBy (m : Machine) (instruction : Option (Opcode × UInt64)) (m' : Machine) :
    Prop where
  counters : ∀ r ∈ Register.counters, ((m'.register r).toNat : Int) ≡
    (m.register r).toNat + r.bumps instruction.toList [ZMOD m.width.modulus]
  index : m'.register .ix ≠ m.register .ix → ∃ op operand, instruction = some (op, operand) ∧
    op.stored? operand = some .ix
  flags : m'.flags ≠ m.flags → ∃ op ∈ Opcode.comparisons, ∃ operand,
    instruction = some (op, operand)

theorem SameState.changesBy (same : m.SameState m') : m.ChangesBy none m' where
  counters r _ := by
    rw [same.registers, Option.toList_none, Register.bumps_nil, add_zero]
  index changed := absurd (same.registers .ix) changed
  flags changed := absurd same.flags changed

theorem performed?_of_done {cell : UInt64} {address : Nat}
    (fetched : m.fetch? (m.register .pc) = some (cell, operand)) (known : decode? cell = some op)
    (step : m.step = (m', .ok (flow, address))) : m.performed? = some (op, operand) := by
  simp only [performed?, step, fetched, Option.bind_some, known]
  rfl

theorem changesBy_step (m : Machine) : m.ChangesBy m.performed? m.step.1 := by
  cases outcome : m.step with
  | mk m' result =>
    cases result with
    | error e =>
      have nothing : m.performed? = none := by
        rw [performed?, outcome]
        rfl
      rw [nothing]
      exact (failure_of_step_error outcome).sameState.changesBy
    | ok pair =>
      have steps := m.steps_step
      rw [outcome] at steps
      cases steps with
      | @done cell operand op carried flow fetched known done =>
        have kept : carried = ((m.announced cell operand op).perform op operand).1 := by rw [done]
        rw [performed?_of_done fetched known outcome]
        refine ⟨?_, ?_, ?_⟩
        · intro r counter
          rw [register_put, if_neg (Register.ne_pc_of_counter counter)]
          exact counter_perform done counter
        · intro changed
          refine ⟨op, operand, rfl, ?_⟩
          by_contra other
          apply changed
          rw [register_put, if_neg (by decide), kept, register_perform _ op other]
          rfl
        · intro changed
          refine ⟨op, ?_, operand, rfl⟩
          by_contra other
          apply changed
          change carried.flags = m.flags
          rw [kept, flags_perform _ other operand]
          rfl

/-- The store of an instruction goes where the address register points. -/
theorem performed?_of_mem_pendingStores {s : Store} (member : s ∈ m.pendingStores) :
    s.address = m.register .mar ∧ ∃ operand, m.performed? = some (.store, operand) := by
  simp only [pendingStores] at member
  split at member
  · cases member
  · next cell operand fetched =>
    split at member
    · next known =>
      obtain rfl := List.mem_singleton.mp member
      have done : (m.announced cell operand .store).perform .store operand =
        (_, .ok .next) := rfl
      exact ⟨rfl, operand, performed?_of_done fetched known (Steps.done fetched known done).step_eq⟩
    · cases member

end Machine

namespace Execution

theorem next_of_outside {stop : Nat} {m : Machine} (steps : Nat)
    (outside : ¬(m.register .pc).toNat < stop) :
    next stop (.running m steps) = .conclude m steps false :=
  (Follows.outside (Nat.le_of_not_lt outside)).next_eq

/-- A stage changes what the step of the instruction changes that it fetches. -/
theorem changesBy_next {stop : Nat} {m : Machine} (steps : Nat)
    (inside : (m.register .pc).toNat < stop) :
    m.ChangesBy m.performed? (next stop (.running m steps)).machine := by
  have changes := m.changesBy_step
  have follows := follows_next stop m steps
  generalize next stop (.running m steps) = e at follows ⊢
  cases follows with
  | outside outside => omega
  | failed _ step | halted _ step | left _ step | goesOn _ step =>
    rw [step] at changes
    obtain ⟨counters, index, flags⟩ := changes
    exact ⟨counters, index, flags⟩

/-- Every store of a run is made by an instruction that it fetches. -/
theorem exists_fetch_of_mem_stores {stop n : Nat} {e : Execution} {s : Store}
    (member : s ∈ e.stores stop n) : ∃ before ∈ e.fetches stop n, s ∈ before.pendingStores := by
  induction n generalizing e with
  | zero => cases member
  | succ n ih =>
    cases e with
    | finished m result => cases member
    | running m steps =>
      rw [stores] at member
      rw [fetches]
      split
      · next inside =>
        rw [if_pos inside] at member
        obtain now | later := List.mem_append.mp member
        · exact ⟨m, List.mem_append_left _ (List.mem_singleton_self m), now⟩
        · obtain ⟨before, fetched, makes⟩ := ih later
          exact ⟨before, List.mem_append_right _ fetched, makes⟩
      · next outside =>
        rw [if_neg outside] at member
        exact ih member

/-- A counter counts what is carried out, modulo the number of words of the width. -/
theorem counter_after {r : Register} (counter : r ∈ Register.counters) (stop n : Nat)
    (e : Execution) :
    (((e.after stop n).machine.register r).toNat : Int) ≡
      (e.machine.register r).toNat + r.bumps ((e.fetches stop n).filterMap Machine.performed?)
      [ZMOD e.machine.width.modulus] := by
  induction n generalizing e with
  | zero => rw [fetches, List.filterMap_nil, Register.bumps_nil, add_zero, after]
  | succ n ih =>
    cases e with
    | finished m result =>
      rw [fetches, List.filterMap_nil, Register.bumps_nil, add_zero, after]
    | running m steps =>
      have further := ih (next stop (.running m steps))
      have width := (Machine.stable_width m.width).next stop steps (m := m) rfl
      rw [width] at further
      rw [after_running, fetches, List.filterMap_append, Register.bumps_append, ← add_assoc]
      refine further.trans (Int.ModEq.add_right _ ?_)
      split
      · next inside =>
        have now := (changesBy_next steps inside).counters r counter
        rwa [List.filterMap_eq_flatMap_toList, List.flatMap_singleton]
      · next outside =>
        rw [next_of_outside steps outside, List.filterMap_nil, Register.bumps_nil, add_zero]
        rfl

end Execution

namespace Machine

/-- An instruction that a run has carried out was to store at an address. -/
def StoresAt (limit : Nat) (m : Machine) (p : Program) (address : UInt64) : Prop :=
  ∃ before ∈ m.fetches limit p, before.register .mar = address ∧
    ∃ operand, before.performed? = some (.store, operand)

/-- What a run has changed while it was followed through at most so many stages. -/
structure RunFrame (limit : Nat) (m : Machine) (p : Program) : Prop where
  stored : ∀ address : UInt64, (m.execute limit p).machine.memory[address]? ≠
    (m.loaded p).memory[address]? → m.StoresAt limit p address
  outside : ∀ address : UInt64, p.cellCount ≤ address.toNat →
    (m.execute limit p).machine.memory[address]? ≠ m.memory[address]? → m.StoresAt limit p address
  beyond : ∀ address : UInt64, m.width.modulus ≤ address.toNat →
    (m.execute limit p).machine.memory[address]? = m.memory[address]?
  counters : ∀ r ∈ Register.counters, (((m.execute limit p).machine.register r).toNat : Int) =
    ((m.register r).toNat + r.bumps (m.performed limit p)) % m.width.modulus
  /-- Loading changes neither the index register nor flags, and a stage only by its instruction. -/
  loaded : (m.loaded p).register .ix = m.register .ix ∧ (m.loaded p).flags = m.flags
  index : ∀ k steps before, m.execute k p = .running before steps →
    (m.execute (k + 1) p).machine.register .ix ≠ before.register .ix →
    ∃ op operand, before.performed? = some (op, operand) ∧
      (op = .loadIndex ∨ op = .copyToIndex ∨
        (op = .increment ∨ op = .decrement) ∧ operand.toNat = Register.ix.index)
  flags : ∀ k steps before, m.execute k p = .running before steps →
    (m.execute (k + 1) p).machine.flags ≠ before.flags →
    ∃ op ∈ Opcode.comparisons, ∃ operand, before.performed? = some (op, operand)

variable {stores : List Store} {m before : Machine} {p : Program} {limit : Nat} {address : UInt64}

theorem storesAt_of_ne_loaded (fits : p.cellCount ≤ m.width.modulus)
    (differs : (m.execute limit p).machine.memory[address]? ≠ (m.loaded p).memory[address]?) :
    m.StoresAt limit p address := by
  have memory := Execution.memory_after p.cellCount limit (.running (m.loaded p) 0)
  rw [← start_eq_running fits] at memory
  rw [execute, memory] at differs
  by_contra none
  apply differs
  rw [start_eq_running fits]
  apply Memory.getElem?_receiveAll
  intro s member same
  obtain ⟨before, fetched, makes⟩ := Execution.exists_fetch_of_mem_stores member
  obtain ⟨points, performed⟩ := performed?_of_mem_pendingStores makes
  rw [← start_eq_running fits] at fetched
  exact none ⟨before, fetched, points.symm.trans same, performed⟩

theorem getElem?_loaded (fits : p.cellCount ≤ m.width.modulus)
    (outside : p.cellCount ≤ address.toNat) :
    (m.loaded p).memory[address]? = m.memory[address]? := by
  have bound := m.width.modulus_le
  rw [loaded, memory_put, memory_loadFrom]
  apply Memory.getElem?_receiveAll
  rintro s member rfl
  have inside := Program.address_lt_of_mem_stores (by omega) member
  omega

/-- No address that a register holds is past the addresses of the width. -/
theorem StoresAt.lt_modulus (history : History stores m)
    (storesAt : m.StoresAt limit p address) : address.toNat < m.width.modulus := by
  obtain ⟨before, fetched, rfl, _⟩ := storesAt
  exact history.register_lt_of_mem_fetches fetched .mar

theorem register_loaded (m : Machine) (p : Program) {r : Register} (other : r ≠ .pc) :
    (m.loaded p).register r = m.register r := by
  rw [loaded, register_put, if_neg other, loadFrom_frame]
  rfl

theorem counter_execute (history : History stores m) (fits : p.cellCount ≤ m.width.modulus)
    (limit : Nat) {r : Register} (counter : r ∈ Register.counters) :
    (((m.execute limit p).machine.register r).toNat : Int) =
      ((m.register r).toNat + r.bumps (m.performed limit p)) % m.width.modulus := by
  have counts := Execution.counter_after counter p.cellCount limit (m.start p)
  have bound := (history.execute p limit).register_lt r
  rw [(stable_width m.width).execute limit p rfl] at bound
  rw [(stable_width m.width).start p rfl, start_eq_running fits] at counts
  change _ ≡ ((m.loaded p).register r).toNat + _ [ZMOD _] at counts
  rw [register_loaded m p (Register.ne_pc_of_counter counter), ← start_eq_running fits] at counts
  rw [performed, fetches, ← counts.eq, execute, Int.emod_eq_of_lt (Int.natCast_nonneg _)]
  exact_mod_cast bound

/-- A stage that is followed by a machine of other index register or flags has fetched. -/
theorem changesBy_stage {k steps : Nat} (stage : m.execute k p = .running before steps)
    (changed : (m.execute (k + 1) p).machine.registers ≠ before.registers ∨
      (m.execute (k + 1) p).machine.flags ≠ before.flags) :
    before.ChangesBy before.performed? (m.execute (k + 1) p).machine := by
  rw [execute_succ, stage] at changed ⊢
  by_cases inside : (before.register .pc).toNat < p.cellCount
  · exact Execution.changesBy_next steps inside
  · rw [Execution.next_of_outside steps inside] at changed
    obtain registers | flags := changed
    · exact absurd rfl registers
    · exact absurd rfl flags

/-- A run that is not refused changes nothing but what its instructions are for, at every stage
and however it ends. -/
theorem execute_frame (history : History stores m) (fits : p.cellCount ≤ m.width.modulus)
    (limit : Nat) : m.RunFrame limit p where
  stored _ differs := storesAt_of_ne_loaded fits differs
  outside address outside differs := by
    rw [← getElem?_loaded fits outside] at differs
    exact storesAt_of_ne_loaded fits differs
  beyond address beyond := by
    by_contra differs
    rw [← getElem?_loaded fits (fits.trans beyond)] at differs
    have inside := (storesAt_of_ne_loaded fits differs).lt_modulus history
    omega
  counters _ counter := counter_execute history fits limit counter
  loaded := ⟨m.register_loaded p (by decide), by rw [loaded_frame]⟩
  index k steps before stage changed := by
    have changes := changesBy_stage stage (.inl fun same => changed (congrArg (·.get .ix) same))
    obtain ⟨op, operand, performed, stored⟩ := changes.index changed
    exact ⟨op, operand, performed, Opcode.cases_of_stored?_ix stored⟩
  flags k steps before stage changed := (changesBy_stage stage (.inr changed)).flags changed

/-- The address register wraps around to the first cell, where the increment is stored over that
has counted it there. Then the run fails. -/
theorem execute_frame_of_overwritten_increment :
    let m := ({ width := ⟨8, by decide, by decide⟩ } : Machine).setRegister .mar 255
    let p : Program := [⟨0x24, 3⟩, ⟨0x06, 0⟩, ⟨0x41, 0⟩, ⟨0x24, 9⟩]
    p.cellCount ≤ m.width.modulus ∧
      (m.execute 5 p).result? = some (.error (.invalidRegister 9)) ∧
      m.performed 5 p = [(.increment, 3), (.store, 0), (.compareImmediate, 0)] ∧
      ((m.execute 5 p).machine.register .mar).toNat = (255 + 1 - 0) % 256 ∧
      (m.loaded p).memory[(0 : UInt64)]? = some 0x24 ∧
      (m.execute 5 p).machine.memory[(0 : UInt64)]? = some 0 ∧ m.RunFrame 5 p := by
  intro m p
  have built : History [] { width := ⟨8, by decide, by decide⟩ } :=
    .built (s := { bits := 8 }) (t := ⟨.unlimited, .plain⟩) rfl
  have fits : p.cellCount ≤ m.width.modulus := by decide
  exact ⟨fits, by decide +kernel, by decide +kernel, by decide +kernel, by decide +kernel,
    by decide +kernel, execute_frame (built.setRegister .mar 255) fits 5⟩

end Machine

end AccumulatorMachine
