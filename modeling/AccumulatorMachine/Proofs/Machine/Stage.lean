import AccumulatorMachine.Proofs.Machine.Forward

/-! One stage of a run at an instruction of its program, told from what the operation of the
instruction does: whether control goes on to the next instruction, the run halts or it fails. -/
namespace AccumulatorMachine

namespace Execution

/-- A run has gone on from the instruction of a number to the next one, or has ended behind the
last one, and has left what an operation has made of the machine. -/
inductive Onwards (w : Width) (p : Program) (n steps : Nat) (m : Machine) : Execution → Prop
  | running (reaches : m'.Reaches w p (n + 1)) (moves : m.MovesTo (2 * (n + 1)) m') :
      Onwards w p n steps m (.running m' (steps + 1))
  | finished (last : n + 1 = p.length) (moves : m.MovesTo (2 * (n + 1)) m') :
      Onwards w p n steps m (.finished m' (.ok ⟨steps + 1, false⟩))

variable {w : Width} {p : Program} {n steps : Nat} {m : Machine} {e : Execution}

theorem Onwards.exists_running (onwards : e.Onwards w p n steps m) (further : n + 1 < p.length) :
    ∃ m', e = .running m' (steps + 1) ∧ m'.Reaches w p (n + 1) ∧ m.MovesTo (2 * (n + 1)) m' := by
  cases onwards with
  | running reaches moves => exact ⟨_, rfl, reaches, moves⟩
  | finished last => omega

theorem Onwards.exists_finished (onwards : e.Onwards w p n steps m) (last : n + 1 = p.length) :
    ∃ m', e = .finished m' (.ok ⟨steps + 1, false⟩) ∧ m.MovesTo (2 * (n + 1)) m' := by
  cases onwards with
  | running reaches =>
    have inside := reaches.inside
    omega
  | finished _ moves => exact ⟨_, rfl, moves⟩

end Execution

namespace Machine

open Execution

variable {w : Width} {p : Program} {m m' : Machine} {i : Instruction} {op : Opcode} {n : Nat}

/-- The machine that is about to carry out an instruction as an operation, its operand narrowed. -/
def about (m : Machine) (i : Instruction) (op : Opcode) : Machine :=
  m.announced (UInt64.ofNat i.opcode.toNat) (m.width.truncate i.operand.toNat) op

/-- What carrying out an instruction does before control goes on. -/
def carryOut (m : Machine) (i : Instruction) (op : Opcode) :
    Machine × Except MachineError Flow :=
  (m.about i op).perform op (m.width.truncate i.operand.toNat)

theorem Reaches.fetch? (reaches : m.Reaches w p n) (listed : p[n]? = some i) :
    m.fetch? (m.register .pc) =
      some (UInt64.ofNat i.opcode.toNat, m.width.truncate i.operand.toNat) :=
  (reaches.intact n i listed).fetch? reaches.pc

theorem decode?_of_code (code : i.opcode = op.code) :
    decode? (UInt64.ofNat i.opcode.toNat) = some op := by
  rw [code, decode?_code]

theorem Reaches.lt_cellCount (reaches : m.Reaches w p n) :
    (m.register .pc).toNat < p.cellCount := by
  have inside := reaches.inside
  have count : p.cellCount = p.length * 2 := rfl
  rw [reaches.pc, count]
  omega

/-- An operation that stores nowhere in the program and not in the program counter lets the run go
on. -/
theorem Reaches.onwards (fits : p.cellCount ≤ w.modulus) (reaches : m.Reaches w p n)
    (listed : p[n]? = some i) (code : i.opcode = op.code)
    (done : m.carryOut i op = (m', .ok .next)) (noStore : op ≠ .store)
    (noBump : op.stored? (m.width.truncate i.operand.toNat) ≠ some .pc) (steps : Nat) :
    (next p.cellCount (.running m steps)).Onwards w p n steps m' := by
  -- What the operation leaves alone is read off its name; where it goes is the next address.
  have carried : m' = (m.carryOut i op).1 := by rw [done]
  have memory : m'.memory = m.memory := by
    rw [carried, carryOut, memory_perform, if_neg noStore]
    rfl
  have pc : m'.register .pc = m.register .pc := by
    rw [carried, carryOut, register_perform _ op noBump]
    rfl
  have width : m'.width = m.width := by
    have stable := stable_width m.width
    rw [carried, carryOut]
    exact stable.perform (stable.announced rfl ..) op _
  have destination : m'.successor .next = 2 * (n + 1) := by
    rw [successor, pc, reaches.pc, cellsPerInstruction, Nat.mul_add]
  rw [← reaches.width] at fits
  obtain ⟨proceeds, moves⟩ := proceeds_of_done fits reaches.lt_cellCount (reaches.fetch? listed)
    (decode?_of_code code) done width Flow.noConfusion destination steps
  generalize next p.cellCount (.running m steps) = e at proceeds moves
  cases proceeds with
  | running inside pc =>
    refine .running ⟨moves.width.trans (width.trans reaches.width), inside, pc, ?_⟩ moves
    intro k j there
    exact (reaches.intact k j there).of_memory (moves.memory.trans memory)
      (moves.width.trans width)
  | finished none => exact .finished (Nat.le_antisymm reaches.inside none) moves

theorem Reaches.next_of_halt (reaches : m.Reaches w p n) (listed : p[n]? = some i)
    (code : i.opcode = Opcode.halt.code) (steps : Nat) :
    ∃ last, next p.cellCount (.running m steps) = .finished last (.ok ⟨steps + 1, true⟩) ∧
      m.MovesTo (2 * (n + 1)) last := by
  have halts := (Steps.done (reaches.fetch? listed) (decode?_of_code code) rfl).step_eq
  have destination : (m.about i .halt).successor .halt = 2 * (n + 1) := by
    have pc : ((m.about i .halt).register .pc).toNat = 2 * n := reaches.pc
    rw [successor, pc, cellsPerInstruction, Nat.mul_add]
  rw [← about, destination] at halts
  have moves := (m.about i .halt).movesTo_put (2 * (n + 1))
  exact ⟨_, (Follows.halted reaches.lt_cellCount halts).next_eq,
    moves.of_announced.dumped.record _⟩

/-- A jump lets the run go on at the instruction that it is to, if the program has it. -/
theorem Reaches.next_of_jumps (fits : p.cellCount ≤ w.modulus) (reaches : m.Reaches w p n)
    (listed : p[n]? = some i) (code : i.opcode = op.code) (jumps : m.Jumps op) {target : Nat}
    (inside : target < p.length) (address : i.operand.toNat % w.modulus = 2 * target)
    (steps : Nat) :
    ∃ m', next p.cellCount (.running m steps) = .running m' (steps + 1) ∧
      m'.Reaches w p target ∧ m.MovesTo (2 * target) m' := by
  have jumps' : (m.about i op).Jumps op := by
    cases jumps with
    | always => exact .always
    | zero zero => exact .zero zero
    | nonzero nonzero => exact .nonzero nonzero
  have width := reaches.width
  have destination : (m.width.truncate i.operand.toNat).toNat = 2 * target := by
    rw [m.width.toNat_truncate_natCast, width, address]
  rw [← width] at fits
  obtain ⟨proceeds, moves⟩ := proceeds_of_quiet fits reaches.lt_cellCount (reaches.fetch? listed)
    (decode?_of_code code) (perform_of_jumps jumps' _) Flow.noConfusion destination steps
  obtain ⟨m', goesOn, pc⟩ := proceeds.exists_running inside
  rw [goesOn] at moves
  exact ⟨m', goesOn, ⟨moves.width.trans width, inside, pc,
    fun k j there => (reaches.intact k j there).of_movesTo moves⟩, moves⟩

theorem Reaches.next_of_failed {e : MachineError} (reaches : m.Reaches w p n)
    (listed : p[n]? = some i) (code : i.opcode = op.code)
    (failed : m.carryOut i op = (m', .error e)) (steps : Nat) :
    next p.cellCount (.running m steps) = .finished m' (.error e) := by
  have fails := (Steps.failed (reaches.fetch? listed) (decode?_of_code code) failed).step_eq
  exact (Follows.failed reaches.lt_cellCount fails).next_eq

/-- An instruction that is a program by itself is carried out, and the run is over. -/
theorem execute_alone (code : i.opcode = op.code)
    (done : (m.loaded [i]).carryOut i op = (m', .ok .next)) (noStore : op ≠ .store)
    (noBump : op.stored? (m.width.truncate i.operand.toNat) ≠ some .pc) :
    ∃ last, m'.MovesTo 2 last ∧
      ∀ limit, 1 ≤ limit → m.execute limit [i] = .finished last (.ok ⟨1, false⟩) := by
  have fits : Program.cellCount [i] ≤ m.width.modulus :=
    Nat.le_of_lt (m.width.byte_lt_modulus 2)
  have reaches := reaches_loaded fits Nat.one_pos
  rw [← m.width_loaded [i]] at noBump
  obtain ⟨last, ended, moves⟩ :=
    (reaches.onwards fits rfl code done noStore noBump 0).exists_finished rfl
  refine ⟨last, moves, fun limit some => execute_of_le ?_ some⟩
  rw [execute_succ, execute, start_eq_running fits]
  exact ended

end Machine

end AccumulatorMachine
