import AccumulatorMachine.Proofs.Machine.Bounds
import AccumulatorMachine.Proofs.Machine.Operation

/-! Where control goes from an instruction. The address is compared with the end of the program
before it is narrowed, so that a run is over just if the address lies past the last instruction. A
bump of the program counter wraps around on its own, ahead of that comparison: from the lowest and
from the highest address control does not go where the integers would lead it. -/
namespace AccumulatorMachine

theorem Opcode.stored?_ne_pc {op : Opcode} (up : op ≠ increment) (down : op ≠ decrement)
    (operand : UInt64) : op.stored? operand ≠ some .pc := by
  cases op with
  | increment => exact absurd rfl up
  | decrement => exact absurd rfl down
  | _ => simp [stored?]

namespace Machine

/-- The address that control goes to from the program counter, not narrowed. It is two cells past
the program counter as the operation leaves it, unless the operation jumps. -/
def nextAddress (m : Machine) (op : Opcode) (operand : UInt64) : Nat :=
  let address := (m.register .pc).toNat
  match op with
  | .jump => operand.toNat
  | .jumpIfZero => if m.register .acc = 0 then operand.toNat else address + 2
  | .jumpIfNonzero => if m.register .acc = 0 then address + 2 else operand.toNat
  | .increment =>
    if operand.toNat = Register.pc.index then (address + 1) % m.width.modulus + 2
    else address + 2
  | .decrement =>
    if operand.toNat = Register.pc.index then
      (address + m.width.modulus - 1) % m.width.modulus + 2
    else address + 2
  | _ => address + 2

variable {m m' : Machine} {op : Opcode} {operand : UInt64} {flow : Flow}

theorem nextAddress_of_jumps (jumps : m.Jumps op) (operand : UInt64) :
    m.nextAddress op operand = operand.toNat := by
  cases jumps with
  | always => rfl
  | zero zero => exact if_pos zero
  | nonzero nonzero => exact if_neg nonzero

/-- The automatic advance comes after the bump. -/
theorem successor_bump {amount : Int} {bumped : Nat}
    (done : m.bump operand amount = (m', .ok flow))
    (wraps : ((m.register .pc).toNat + amount) % m.width.modulus = bumped) :
    m'.successor .next =
      if operand.toNat = Register.pc.index then bumped + 2 else (m.register .pc).toNat + 2 := by
  have counter := toNat_register_bump done .pc
  rw [wraps] at counter
  simp only [successor, cellsPerInstruction]
  split
  · next names =>
    rw [if_pos names] at counter
    rw [Int.ofNat_inj.mp counter]
  · next other =>
    rw [if_neg other] at counter
    rw [Int.ofNat_inj.mp counter]

/-- The flow of an operation that succeeds leads where control goes. -/
theorem successor_perform (done : m.perform op operand = (m', .ok flow)) :
    m'.successor flow = m.nextAddress op operand := by
  have onwards : op ≠ .increment → op ≠ .decrement →
      (m'.register .pc).toNat + 2 = (m.register .pc).toNat + 2 := by
    intro up down
    have kept := m.register_perform op (Opcode.stored?_ne_pc up down operand)
    rw [done] at kept
    rw [kept]
  cases sends_perform done with
  | jump jumps => rw [nextAddress_of_jumps jumps, successor]
  | halt => exact onwards (by decide) (by decide)
  | next stays goes =>
    cases op with
    | jump => exact absurd .always stays
    | jumpIfZero =>
      have nonzero : m.register .acc ≠ 0 := fun zero => stays (.zero zero)
      exact (onwards (by decide) (by decide)).trans (if_neg nonzero).symm
    | jumpIfNonzero =>
      have zero : m.register .acc = 0 := by
        by_contra nonzero
        exact stays (.nonzero nonzero)
      exact (onwards (by decide) (by decide)).trans (if_pos zero).symm
    | halt => exact absurd rfl goes
    | increment => exact successor_bump done (Int.natCast_emod _ _).symm
    | decrement =>
      have positive := m.width.modulus_pos
      have wraps : ((m.register .pc).toNat : Int) + -1 + m.width.modulus =
          ((m.register .pc).toNat + m.width.modulus - 1 : Nat) := by omega
      apply successor_bump done
      rw [← Int.add_emod_right, wraps]
      exact (Int.natCast_emod _ _).symm
    | _ => exact onwards (by decide) (by decide)

theorem nextAddress_announced (m : Machine) (cell operand : UInt64) (op : Opcode) :
    (m.announced cell operand op).nextAddress op operand = m.nextAddress op operand := by
  cases op <;> rfl

/-- A step that succeeds sends control to the destination of its instruction, narrowed. -/
structure SendsTo (m : Machine) (op : Opcode) (destination : Nat) (m' : Machine) (flow : Flow) :
    Prop where
  halts : flow = .halt ↔ op = .halt
  pc : (m'.register .pc).toNat = destination % m.width.modulus

theorem sendsTo_step {cell : UInt64} {address : Nat}
    (fetched : m.fetch? (m.register .pc) = some (cell, operand)) (known : decode? cell = some op)
    (succeeds : m.step = (m', .ok (flow, address))) :
    address = m.nextAddress op operand ∧ m.SendsTo op address m' flow := by
  have steps := m.steps_step
  rw [succeeds] at steps
  cases steps with
  | @done cell' operand' op' carried flow fetched' known' done =>
    rw [fetched] at fetched'
    cases fetched'
    rw [known] at known'
    cases known'
    have same := (stable_width m.width).perform
      ((stable_width m.width).announced (m := m) rfl cell operand op) op operand
    rw [done] at same
    refine ⟨(successor_perform done).trans (nextAddress_announced m cell operand op), ?_, ?_⟩
    · cases sends_perform done with
      | jump jumps => cases jumps <;> simp
      | halt => simp
      | next stays goes => simp [goes]
    · rw [register_put, if_pos rfl, Width.toNat_truncate_natCast, same]

end Machine

namespace Execution

/-- A run goes on at an address inside its program, and is over at any other, although no
instruction has halted it. -/
inductive Arrives (stop destination steps : Nat) : Execution → Prop
  | goesOn (inside : destination < stop) (pc : (m.register .pc).toNat = destination) :
      Arrives stop destination steps (.running m steps)
  | left (past : stop ≤ destination) :
      Arrives stop destination steps (.finished m (.ok ⟨steps, false⟩))

theorem arrives_next {stop : Nat} {m : Machine} {cell operand : UInt64} {op : Opcode}
    (fits : stop ≤ m.width.modulus) (inside : (m.register .pc).toNat < stop)
    (fetched : m.fetch? (m.register .pc) = some (cell, operand))
    (known : Machine.decode? cell = some op) (goes : op ≠ .halt)
    (succeeds : m.step.2.isOk) (steps : Nat) :
    (next stop (.running m steps)).Arrives stop (m.nextAddress op operand) (steps + 1) := by
  have follows := follows_next stop m steps
  generalize next stop (.running m steps) = e at follows ⊢
  cases follows with
  | outside outside => omega
  | failed _ step =>
    rw [step] at succeeds
    contradiction
  | halted _ step =>
    obtain ⟨_, halts, _⟩ := Machine.sendsTo_step fetched known step
    exact absurd (halts.mp rfl) goes
  | left _ step _ past =>
    obtain ⟨rfl, _⟩ := Machine.sendsTo_step fetched known step
    exact .left past
  | goesOn _ step _ within =>
    obtain ⟨rfl, _, pc⟩ := Machine.sendsTo_step fetched known step
    exact .goesOn within (pc.trans (Nat.mod_eq_of_lt (by omega)))

/-- All the addresses that a run arrives at are on the same side of the end of its program. -/
theorem Arrives.inside_iff {stop destination other steps steps' : Nat} {e : Execution}
    (here : e.Arrives stop destination steps) (there : e.Arrives stop other steps') :
    destination < stop ↔ other < stop := by
  cases here with
  | goesOn inside =>
    cases there with
    | goesOn inside' => exact iff_of_true inside inside'
  | left past =>
    cases there with
    | left past' => exact iff_of_false (Nat.not_lt.mpr past) (Nat.not_lt.mpr past')

/-- A quiet step that sends control to an address of the program only moves the run there. -/
theorem goesOn_of_quiet {stop : Nat} {m : Machine} {cell operand : UInt64} {op : Opcode}
    {flow : Flow} (inside : (m.register .pc).toNat < stop)
    (fetched : m.fetch? (m.register .pc) = some (cell, operand))
    (known : Machine.decode? cell = some op)
    (quiet : (m.announced cell operand op).perform op operand =
      (m.announced cell operand op, .ok flow))
    (goes : flow ≠ .halt) (within : m.successor flow < stop) (steps : Nat) :
    ∃ m', next stop (.running m steps) = .running m' (steps + 1) ∧
      m.MovesTo (m.successor flow) m' := by
  obtain ⟨m', step, moves⟩ := Machine.step_of_quiet fetched known quiet
  exact ⟨m'.dumped, (Follows.goesOn inside step goes within).next_eq, moves.dumped⟩

end Execution

namespace Machine

/-- What lies past a program is not touched by loading it. -/
theorem read_past_loaded {m : Machine} {p : Program} (fits : p.cellCount ≤ m.width.modulus)
    {address : UInt64} (past : p.cellCount ≤ address.toNat) :
    (m.loaded p).read address = m.read address := by
  have bound := m.width.modulus_le
  have none : p.word? address.toNat = none := by
    rw [Program.cellCount, cellsPerInstruction] at past
    rw [Program.word?, List.getElem?_eq_none (by omega), Option.map_none]
  rw [Program.cellCount, cellsPerInstruction] at fits
  have room : 0 + 2 * p.length ≤ 2 ^ 64 := by omega
  have read := read_loadFrom (m := m) room address
  rw [if_neg (Nat.not_lt_zero _), Nat.sub_zero, none] at read
  exact read

theorem isOk_step_of_perform {m m' : Machine} {cell operand : UInt64} {op : Opcode} {flow : Flow}
    (fetched : m.fetch? (m.register .pc) = some (cell, operand)) (known : decode? cell = some op)
    (done : (m.announced cell operand op).perform op operand = (m', .ok flow)) :
    m.step.2.isOk := by
  rw [(Steps.done fetched known done).step_eq]
  rfl

/-- An increment of the program counter in the last cell of all goes on at the second instruction
of a program that takes up every address. It has its operand past them. -/
theorem exists_increment_of_full {m : Machine} {p : Program} {last past : UInt64}
    (full : p.cellCount = m.width.modulus) (highest : last.toNat + 1 = p.cellCount)
    (jump : p[0]? = some ⟨Opcode.jump.code, last⟩)
    (bump : p.word? last.toNat = some (UInt64.ofNat Opcode.increment.code.toNat))
    (after : cellAfter? last = some past) (names : (m.read past).toNat = Register.pc.index) :
    ∃ before, m.execute 1 p = .running before 1 ∧ before.register .pc = last ∧
      before.fetch? last = some (UInt64.ofNat Opcode.increment.code.toNat, m.read past) ∧
      before.step.2.isOk ∧ (m.execute 2 p).Arrives p.cellCount 2 2 := by
  have fits : p.cellCount ≤ m.width.modulus := Nat.le_of_eq full
  have fetched := (hasAt_loaded fits jump).fetch? (m.pc_loaded p)
  have operand : m.width.truncate last.toNat = last := by
    rw [m.width.truncate_of_lt (by omega), UInt64.ofNat_toNat]
  rw [width_loaded, operand] at fetched
  have inside : ((m.loaded p).register .pc).toNat < p.cellCount := by
    rw [pc_loaded]
    omega
  obtain ⟨before, next, moves⟩ := Execution.goesOn_of_quiet inside fetched (decode?_code .jump) rfl
    Flow.noConfusion (show last.toNat < p.cellCount by omega) 0
  have stage : m.execute 1 p = .running before 1 := by
    rw [execute_succ, execute, start_eq_running fits]
    exact next
  have width : before.width = m.width := by
    rw [moves.width, width_loaded]
  have pc : before.register .pc = last := by
    rw [moves.pc, width_loaded]
    exact operand
  have code : before.read last = UInt64.ofNat Opcode.increment.code.toNat := by
    rw [read, moves.memory]
    refine (read_loaded fits bump).trans ?_
    rw [toNat_ofNat_byte, m.width.truncate_of_lt (m.width.byte_lt_modulus _)]
  have index : before.read past = m.read past := by
    have beyond := cellAfter?_eq_some_iff.mp after
    rw [read, moves.memory]
    exact read_past_loaded fits (by omega)
  have found : before.fetch? last =
      some (UInt64.ofNat Opcode.increment.code.toNat, m.read past) := by
    rw [fetch?, after, Option.map_some, code, index]
  have wraps : before.nextAddress .increment (m.read past) = 2 := by
    simp only [nextAddress, pc, names, if_true, width]
    rw [highest, full, Nat.mod_self]
  have named : Register.ofIndex? (m.read past).toNat = some .pc :=
    Register.ofIndex?_eq_some_iff.mpr names.symm
  subst last
  have succeeds : before.step.2.isOk := by
    apply isOk_step_of_perform found (decode?_code .increment)
    rw [perform, Machine.bump, named]
  rw [← width] at fits
  have arrives := Execution.arrives_next fits (by omega) found (decode?_code .increment)
    Opcode.noConfusion succeeds 1
  rw [wraps] at arrives
  refine ⟨before, stage, rfl, found, succeeds, ?_⟩
  rw [execute_succ, stage]
  exact arrives

/-- A run that an instruction does not halt goes on just if the address that control goes to lies
inside the program, and goes on there. -/
theorem execute_arrives {m before : Machine} {p : Program} {k : Nat} {cell operand : UInt64}
    {op : Opcode} (fits : p.cellCount ≤ m.width.modulus) (nonempty : p ≠ [])
    (stage : m.execute k p = .running before k)
    (fetched : before.fetch? (before.register .pc) = some (cell, operand))
    (known : decode? cell = some op) (goes : op ≠ .halt)
    (succeeds : before.step.2.isOk) :
    (m.execute (k + 1) p).Arrives p.cellCount (before.nextAddress op operand) (k + 1) := by
  rw [← width_of_stage stage] at fits
  have inside := pc_inside nonempty stage
  rw [execute_succ, stage]
  exact Execution.arrives_next fits inside fetched known goes succeeds k

/-- On a machine of 8 bits an increment leads to the last cell of the program. The decrement that it
holds has its operand past the program and leads there too. -/
theorem execute_arrives_of_bumped_counter :
    let m := ({ width := ⟨8, by decide, by decide⟩ } : Machine).write 4 5
    let p : Program := [⟨0x24, 5⟩, ⟨0x00, 0x25⟩]
    p.cellCount ≤ m.width.modulus ∧ p ≠ [] ∧ ∃ first second,
      m.execute 0 p = .running first 0 ∧ first.nextAddress .increment 5 = 3 ∧
      (m.execute 1 p).Arrives 4 3 1 ∧ m.execute 1 p = .running second 1 ∧
      second.nextAddress .decrement 5 = 4 ∧ (m.execute 2 p).Arrives 4 4 2 := by
  intro m p
  have fits : p.cellCount ≤ m.width.modulus := by decide
  have nonempty : p ≠ [] := List.cons_ne_nil _ _
  have first : m.execute 0 p = .running (m.execute 0 p).machine 0 := execute_eq_running rfl
  have second : m.execute 1 p = .running (m.execute 1 p).machine 1 :=
    execute_eq_running (by decide +kernel)
  have up : (m.execute 0 p).machine.nextAddress .increment 5 = 3 := by decide +kernel
  have down : (m.execute 1 p).machine.nextAddress .decrement 5 = 4 := by decide +kernel
  have increments : (m.execute 0 p).machine.fetch? ((m.execute 0 p).machine.register .pc) =
      some (0x24, 5) := by decide +kernel
  have decrements : (m.execute 1 p).machine.fetch? ((m.execute 1 p).machine.register .pc) =
      some (0x25, 5) := by decide +kernel
  have inside := execute_arrives fits nonempty first increments (decode?_code .increment)
    Opcode.noConfusion (by decide +kernel)
  have past := execute_arrives fits nonempty second decrements (decode?_code .decrement)
    Opcode.noConfusion (by decide +kernel)
  rw [up] at inside
  rw [down] at past
  exact ⟨fits, nonempty, _, _, first, up, inside, second, down, past⟩

/-- On a machine of 8 bits, a decrement at the lowest address is taken to lead past the program,
though the next address is inside it. An increment at the highest leads back into the program. -/
theorem execute_of_wrapped_counter :
    let m : Machine := { width := ⟨8, by decide, by decide⟩ }
    let low : Program := [⟨0x25, 5⟩, ⟨0x00, 0x33⟩]
    let full : Program :=
      ⟨0x30, 255⟩ :: ⟨0x33, 0⟩ :: (List.replicate 125 ⟨0x07, 0⟩ ++ [⟨0x07, 0x24⟩])
    (low.cellCount ≤ m.width.modulus ∧ ∃ before,
      m.execute 0 low = .running before 0 ∧ (before.register .pc).toNat = 0 ∧
      before.fetch? 0 = some (0x25, 5) ∧ before.step.2.isOk ∧
      ¬(m.execute 1 low).Arrives low.cellCount (0 + 1) 1) ∧
    full.cellCount ≤ m.width.modulus ∧ ∃ before,
      (m.write 256 5).execute 1 full = .running before 1 ∧ (before.register .pc).toNat = 255 ∧
      before.fetch? 255 = some (0x24, 5) ∧ before.step.2.isOk ∧
      ¬((m.write 256 5).execute 2 full).Arrives full.cellCount (255 + 3) 2 := by
  intro m low full
  constructor
  · have stage : m.execute 0 low = .running (m.execute 0 low).machine 0 :=
      execute_eq_running rfl
    have ended : (m.execute 1 low).result? = some (.ok ⟨1, false⟩) := by decide +kernel
    refine ⟨by decide, _, stage, by decide +kernel, by decide +kernel, by decide +kernel, ?_⟩
    rw [Execution.eq_finished_of_result? ended]
    rintro ⟨past⟩
    contradiction
  · have count : full.cellCount = 256 := by
      simp only [full, Program.cellCount, List.length_cons, List.length_append,
        List.length_replicate, List.length_nil, cellsPerInstruction]
    have bump : full.word? 255 = some 0x24 := by
      simp only [full, Program.word?]
      rfl
    have after : cellAfter? 255 = some 256 := rfl
    have five : (m.write 256 5).read 256 = 5 := by decide +kernel
    have highest : (255 : UInt64).toNat + 1 = full.cellCount := count.symm
    obtain ⟨before, stage, pc, found, succeeds, arrives⟩ := exists_increment_of_full
      (m := m.write 256 5) (p := full) count highest rfl bump after (congrArg UInt64.toNat five)
    rw [five] at found
    refine ⟨Nat.le_of_eq count, before, stage, congrArg UInt64.toNat pc, found, succeeds, ?_⟩
    intro claimed
    have same := arrives.inside_iff claimed
    omega

end Machine

end AccumulatorMachine
