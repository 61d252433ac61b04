import AccumulatorMachine.Proofs.Machine.Failure
import AccumulatorMachine.Proofs.Machine.Stores
import Mathlib.Data.Nat.Init

/-! How control passes between the instructions of a program. A run finds an instruction as
it was loaded as long as nothing is stored over it, and a jump or an instruction without
effect leaves everything but the program counter alone. -/
namespace AccumulatorMachine

/-- No store goes to a cell of the instruction of a number. -/
def Store.Spare (stores : List Store) (n : Nat) : Prop :=
  ∀ s ∈ stores, s.address.toNat / cellsPerInstruction ≠ n

theorem Store.Spare.last?_eq_none {stores : List Store} {n : Nat} (spare : Spare stores n)
    {address : UInt64} (inside : address.toNat / cellsPerInstruction = n) :
    last? stores address = none := by
  rw [last?_eq_none_iff]
  rintro s member rfl
  exact spare s member inside

namespace Machine

/-- An instruction lies, narrowed, in the cells of its number. -/
structure HasAt (m : Machine) (n : Nat) (i : Instruction) : Prop where
  code : m.read (UInt64.ofNat (2 * n)) = UInt64.ofNat i.opcode.toNat
  operand : m.read (UInt64.ofNat (2 * n + 1)) = m.width.truncate i.operand.toNat

variable {m : Machine} {p : Program}

/-- The cells of an instruction of a program that fits have addresses. -/
theorem toNat_cell (fits : p.cellCount ≤ m.width.modulus) {n : Nat} (inside : n < p.length)
    {offset : Nat} (cell : offset < 2) :
    (UInt64.ofNat (2 * n + offset)).toNat = 2 * n + offset := by
  have bound := m.width.modulus_le
  rw [Program.cellCount, cellsPerInstruction] at fits
  rw [UInt64.toNat_ofNat']
  omega

theorem HasAt.fetch? {n : Nat} {i : Instruction} (hasAt : m.HasAt n i) {address : UInt64}
    (at_ : address.toNat = 2 * n) :
    m.fetch? address =
      some (UInt64.ofNat i.opcode.toNat, m.width.truncate i.operand.toNat) := by
  have bound := address.toNat_lt
  obtain ⟨code, operand⟩ := hasAt
  have first : UInt64.ofNat (2 * n) = address := by
    rw [← at_, UInt64.ofNat_toNat]
  have second : cellAfter? address = some (UInt64.ofNat (2 * n + 1)) := by
    rw [cellAfter?_eq_some_iff, UInt64.toNat_ofNat']
    omega
  rw [Machine.fetch?, second, Option.map_some, ← first, code, operand]

theorem read_loaded (fits : p.cellCount ≤ m.width.modulus) {address word : UInt64}
    (listed : p.word? address.toNat = some word) :
    (m.loaded p).read address = m.width.truncate word.toNat := by
  have room : 0 + 2 * p.length ≤ 2 ^ 64 := by
    have bound := m.width.modulus_le
    rw [Program.cellCount, cellsPerInstruction] at fits
    omega
  have loaded := read_loadFrom (m := m) room address
  rw [if_neg (Nat.not_lt_zero _), Nat.sub_zero, listed, Option.map_some, Option.getD_some] at loaded
  exact loaded

theorem hasAt_loaded (fits : p.cellCount ≤ m.width.modulus) {n : Nat} {i : Instruction}
    (listed : p[n]? = some i) : (m.loaded p).HasAt n i := by
  obtain ⟨inside, _⟩ := List.getElem?_eq_some_iff.mp listed
  have first : (UInt64.ofNat (2 * n)).toNat = 2 * n := toNat_cell fits inside Nat.zero_lt_two
  have second := toNat_cell fits inside Nat.one_lt_two
  constructor
  · have word : p.word? (UInt64.ofNat (2 * n)).toNat = some (UInt64.ofNat i.opcode.toNat) := by
      rw [first, Program.word?_code listed]
    rw [read_loaded fits word, toNat_ofNat_byte,
      m.width.truncate_of_lt (m.width.byte_lt_modulus i.opcode)]
  · have word : p.word? (UInt64.ofNat (2 * n + 1)).toNat = some i.operand := by
      rw [second, Program.word?_operand listed]
    rw [read_loaded fits word, width_loaded]

theorem pc_loaded (m : Machine) (p : Program) : ((m.loaded p).register .pc).toNat = 0 := by
  have zero := Width.toNat_truncate_natCast (m.loadFrom 0 p).width 0
  rw [Nat.zero_mod, Int.natCast_zero] at zero
  rw [loaded, register_put, if_pos rfl, zero]

/-- A stage of a run reads what the run stored last, and what was loaded where it stored
nothing. -/
theorem read_at_stage (fits : p.cellCount ≤ m.width.modulus) {k steps : Nat} {before : Machine}
    (stage : m.execute k p = .running before steps) (address : UInt64) :
    before.read address =
      ((Store.last? ((m.start p).stores p.cellCount k) address).map fun word =>
        m.width.truncate word.toNat).getD ((m.loaded p).read address) := by
  have memory := Execution.memory_after p.cellCount k (m.start p)
  have started : (m.start p).machine = m.loaded p := by
    rw [start_eq_running fits]
    rfl
  rw [← execute, stage, started] at memory
  have read := Memory.read_receiveAll (m.loaded p).width (m.loaded p).memory
    ((m.start p).stores p.cellCount k) address
  rw [← memory, width_loaded] at read
  exact read

/-- A cell that no store of a run went to is read as it was loaded. -/
theorem read_of_stage (fits : p.cellCount ≤ m.width.modulus) {k steps : Nat} {before : Machine}
    (stage : m.execute k p = .running before steps) {address : UInt64}
    (kept : Store.last? ((m.start p).stores p.cellCount k) address = none) :
    before.read address = (m.loaded p).read address := by
  rw [read_at_stage fits stage, kept, Option.map_none, Option.getD_none]

theorem width_of_stage {k steps : Nat} {before : Machine}
    (stage : m.execute k p = .running before steps) : before.width = m.width := by
  have same := (stable_width m.width).execute k p (m := m) rfl
  rw [stage] at same
  exact same

/-- A stage of a run finds each instruction that its stores have spared. -/
theorem HasAt.of_stage (fits : p.cellCount ≤ m.width.modulus) {n k steps : Nat} {i : Instruction}
    (listed : p[n]? = some i) {before : Machine} (stage : m.execute k p = .running before steps)
    (spare : Store.Spare ((m.start p).stores p.cellCount k) n) : before.HasAt n i := by
  obtain ⟨inside, _⟩ := List.getElem?_eq_some_iff.mp listed
  have width : before.width = (m.loaded p).width := by
    rw [width_of_stage stage, width_loaded]
  have kept : ∀ offset < 2, before.read (UInt64.ofNat (2 * n + offset)) =
      (m.loaded p).read (UInt64.ofNat (2 * n + offset)) := by
    intro offset cell
    apply read_of_stage fits stage
    apply spare.last?_eq_none
    rw [toNat_cell fits inside cell, cellsPerInstruction]
    omega
  obtain ⟨code, operand⟩ := hasAt_loaded fits listed
  constructor
  · exact (kept 0 (by omega)).trans code
  · rw [width]
    exact (kept 1 (by omega)).trans operand

/-- An operation that sends control to its operand, as the accumulator is. -/
inductive Jumps (m : Machine) : Opcode → Prop
  | always : Jumps m .jump
  | zero (zero : m.register .acc = 0) : Jumps m .jumpIfZero
  | nonzero (nonzero : m.register .acc ≠ 0) : Jumps m .jumpIfNonzero

/-- Control has gone to an address, and what is not the program counter, the trace or the
journal has not changed. -/
structure MovesTo (m : Machine) (address : Nat) (m' : Machine) : Prop where
  pc : m'.register .pc = m.width.truncate address
  registers : ∀ r ≠ .pc, m'.register r = m.register r
  memory : m'.memory = m.memory
  flags : m'.flags = m.flags
  input : m'.input = m.input
  output : m'.output = m.output
  width : m'.width = m.width

theorem HasAt.of_movesTo {n address : Nat} {i : Instruction} {m' : Machine}
    (hasAt : m.HasAt n i) (moves : m.MovesTo address m') : m'.HasAt n i := by
  obtain ⟨code, operand⟩ := hasAt
  constructor
  · rw [read, moves.memory]
    exact code
  · rw [read, moves.memory, moves.width]
    exact operand

theorem movesTo_put (m : Machine) (address : Nat) : m.MovesTo address (m.put .pc address) where
  pc := by rw [register_put, if_pos rfl]
  registers r other := by rw [register_put, if_neg other]
  memory := rfl
  flags := rfl
  input := rfl
  output := rfl
  width := rfl

theorem perform_of_jumps {op : Opcode} (jumps : m.Jumps op) (target : UInt64) :
    m.perform op target = (m, .ok (.jump target)) := by
  cases jumps with
  | always => rfl
  | zero zero => rw [perform, Flow.jumpIf, zero]; rfl
  | nonzero nonzero => rw [perform, Flow.jumpIf, if_pos (bne_iff_ne.mpr nonzero)]

/-- Announcing an instruction is nothing that a move changes. -/
theorem MovesTo.of_announced {m' : Machine} {cell operand : UInt64} {op : Opcode} {address : Nat}
    (moves : (m.announced cell operand op).MovesTo address m') : m.MovesTo address m' := by
  obtain ⟨pc, registers, memory, flags, input, output, width⟩ := moves
  exact ⟨pc, registers, memory, flags, input, output, width⟩

/-- One step of an operation that only sends control somewhere. -/
theorem step_of_quiet {cell operand : UInt64} {op : Opcode} {flow : Flow}
    (fetched : m.fetch? (m.register .pc) = some (cell, operand)) (known : decode? cell = some op)
    (quiet : (m.announced cell operand op).perform op operand =
      (m.announced cell operand op, .ok flow)) :
    ∃ m', m.step = (m', .ok (flow, m.successor flow)) ∧ m.MovesTo (m.successor flow) m' := by
  have same : (m.announced cell operand op).successor flow = m.successor flow := by
    cases flow with
    | next | jump | halt => rfl
  have moves := (m.announced cell operand op).movesTo_put (m.successor flow)
  refine ⟨_, ?_, moves.of_announced⟩
  rw [(Steps.done fetched known quiet).step_eq, same]

theorem MovesTo.dumped {m' : Machine} {address : Nat} (moves : m.MovesTo address m') :
    m.MovesTo address m'.dumped := by
  obtain ⟨pc, registers, memory, flags, input, output, width⟩ := moves
  exact ⟨pc, registers, memory, flags, input, output, width⟩

theorem MovesTo.record {m' : Machine} {address : Nat} (moves : m.MovesTo address m')
    (r : LogRecord) : m.MovesTo address (m'.record r) := by
  obtain ⟨pc, registers, memory, flags, input, output, width⟩ := moves
  exact ⟨pc, registers, memory, flags, input, output, width⟩

theorem MovesTo.toNat_pc {m' : Machine} {address : Nat} (moves : m.MovesTo address m')
    (inside : address < m.width.modulus) : (m'.register .pc).toNat = address := by
  rw [moves.pc, m.width.toNat_truncate_natCast, Nat.mod_eq_of_lt inside]

end Machine

namespace Execution

/-- The run goes on at the instruction of a number after so many steps, or has ended, without
an instruction that halts, if the program has none of that number. -/
inductive Proceeds (p : Program) (n steps : Nat) : Execution → Prop
  | running (inside : n < p.length) (pc : (m.register .pc).toNat = 2 * n) :
      Proceeds p n steps (.running m steps)
  | finished (none : p.length ≤ n) : Proceeds p n steps (.finished m (.ok ⟨steps, false⟩))

theorem Proceeds.exists_running {p : Program} {n steps : Nat} {e : Execution}
    (proceeds : e.Proceeds p n steps) (inside : n < p.length) :
    ∃ m, e = .running m steps ∧ (m.register .pc).toNat = 2 * n := by
  cases proceeds with
  | running _ pc => exact ⟨_, rfl, pc⟩
  | finished none => omega

/-- An operation that succeeds takes a run to the instruction that control is sent to, with what
the operation has left. -/
theorem proceeds_of_done {p : Program} {m m' : Machine} (fits : p.cellCount ≤ m.width.modulus)
    {cell operand : UInt64} {op : Opcode} {flow : Flow} {n : Nat}
    (inside : (m.register .pc).toNat < p.cellCount)
    (fetched : m.fetch? (m.register .pc) = some (cell, operand))
    (known : Machine.decode? cell = some op)
    (done : (m.announced cell operand op).perform op operand = (m', .ok flow))
    (same : m'.width = m.width) (goes : flow ≠ .halt) (destination : m'.successor flow = 2 * n)
    (steps : Nat) :
    (next p.cellCount (.running m steps)).Proceeds p n (steps + 1) ∧
      m'.MovesTo (2 * n) (next p.cellCount (.running m steps)).machine := by
  have step := (Machine.Steps.done fetched known done).step_eq
  have moves := m'.movesTo_put (2 * n)
  rw [destination] at step
  have count : p.cellCount = p.length * 2 := rfl
  have follows := follows_next p.cellCount m steps
  generalize next p.cellCount (.running m steps) = e at follows ⊢
  cases follows with
  | outside outside => omega
  | failed _ failed =>
    rw [step] at failed
    cases failed
  | halted _ halted =>
    rw [step] at halted
    cases halted
    contradiction
  | left _ left _ past =>
    rw [step] at left
    cases left
    exact ⟨.finished (by omega), moves.dumped.record _⟩
  | goesOn _ goesOn _ within =>
    rw [step] at goesOn
    cases goesOn
    exact ⟨.running (by omega) (moves.dumped.toNat_pc (by rw [same]; omega)), moves.dumped⟩

/-- A quiet step of a run takes it to the instruction that control is sent to. -/
theorem proceeds_of_quiet {p : Program} {m : Machine} (fits : p.cellCount ≤ m.width.modulus)
    {cell operand : UInt64} {op : Opcode} {flow : Flow} {n : Nat}
    (inside : (m.register .pc).toNat < p.cellCount)
    (fetched : m.fetch? (m.register .pc) = some (cell, operand))
    (known : Machine.decode? cell = some op)
    (quiet : (m.announced cell operand op).perform op operand =
      (m.announced cell operand op, .ok flow))
    (goes : flow ≠ .halt) (destination : m.successor flow = 2 * n) (steps : Nat) :
    (next p.cellCount (.running m steps)).Proceeds p n (steps + 1) ∧
      m.MovesTo (2 * n) (next p.cellCount (.running m steps)).machine := by
  have destination' : (m.announced cell operand op).successor flow = 2 * n := by
    rw [← destination]
    cases flow with
    | next | jump | halt => rfl
  obtain ⟨proceeds, moves⟩ :=
    proceeds_of_done fits inside fetched known quiet rfl goes destination' steps
  exact ⟨proceeds, moves.of_announced⟩

end Execution

namespace Machine

variable {m : Machine} {p : Program}

theorem execute_succ (k : Nat) (m : Machine) (p : Program) :
    m.execute (k + 1) p = (m.execute k p).next p.cellCount :=
  Execution.after_succ p.cellCount k (m.start p)

/-- A run that has ended has ended the same way however much further it is followed. -/
theorem execute_of_le {k limit : Nat} {last : Machine} {result : Except MachineError RunSummary}
    (ended : m.execute k p = .finished last result) (further : k ≤ limit) :
    m.execute limit p = .finished last result := by
  induction limit, further using Nat.le_induction with
  | base => exact ended
  | succ limit _ ih => rw [execute_succ, ih, Execution.next]

/-- A jump that a stage of a run comes to takes it to the target. -/
theorem proceeds_of_jumps (fits : p.cellCount ≤ m.width.modulus) {k n : Nat} {before : Machine}
    (stage : m.execute k p = .running before k)
    (inside : (before.register .pc).toNat < p.cellCount) {cell target : UInt64} {op : Opcode}
    (fetched : before.fetch? (before.register .pc) = some (cell, target))
    (known : decode? cell = some op) (jumps : before.Jumps op) (address : target.toNat = 2 * n) :
    (m.execute (k + 1) p).Proceeds p n (k + 1) ∧
      before.MovesTo (2 * n) (m.execute (k + 1) p).machine := by
  have announced : (before.announced cell target op).Jumps op := by
    cases jumps with
    | always => exact .always
    | zero zero => exact .zero zero
    | nonzero nonzero => exact .nonzero nonzero
  rw [← width_of_stage stage] at fits
  rw [execute_succ, stage]
  exact Execution.proceeds_of_quiet fits inside fetched known (perform_of_jumps announced target)
    Flow.noConfusion address k

/-- An instruction without effect that a stage of a run comes to takes it to the one after. -/
theorem proceeds_of_pass (fits : p.cellCount ≤ m.width.modulus) {k n : Nat} {before : Machine}
    (stage : m.execute k p = .running before k) (inside : n < p.length)
    (pc : (before.register .pc).toNat = 2 * n) {cell operand : UInt64}
    (fetched : before.fetch? (before.register .pc) = some (cell, operand))
    (known : decode? cell = some .pass) :
    (m.execute (k + 1) p).Proceeds p (n + 1) (k + 1) ∧
      before.MovesTo (2 * (n + 1)) (m.execute (k + 1) p).machine := by
  have count : p.cellCount = p.length * 2 := rfl
  have after : before.successor .next = 2 * (n + 1) := by
    rw [successor, pc, cellsPerInstruction]
    omega
  rw [← width_of_stage stage] at fits
  rw [execute_succ, stage]
  exact Execution.proceeds_of_quiet fits (by omega) fetched known rfl Flow.noConfusion after k

end Machine

end AccumulatorMachine
