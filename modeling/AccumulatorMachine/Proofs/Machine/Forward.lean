import AccumulatorMachine.Proofs.Machine.Fetches
import AccumulatorMachine.Proofs.Machine.Operation

/-! Programs that send control only ahead. Such a program stays as it was loaded, and each of its
instructions is carried out at most once, in the order of their addresses: the distance to the
end of the program is what shrinks. Narrowing cannot bring control back, since the address that
lies past the last instruction is compared with the end before it is narrowed. -/
namespace AccumulatorMachine

namespace Program

/-- No instruction stores or bumps the program counter, and every jump is to an instruction
further on, on a machine of a width. -/
structure Forward (w : Width) (p : Program) : Prop where
  noStore : ∀ i ∈ p, i.opcode ≠ Opcode.store.code
  noBump : ∀ i ∈ p, i.opcode = Opcode.increment.code ∨ i.opcode = Opcode.decrement.code →
    i.operand.toNat % w.modulus ≠ Register.pc.index
  ahead : ∀ n i, p[n]? = some i → (∃ op ∈ Opcode.jumps, i.opcode = op.code) →
    2 ∣ i.operand.toNat % w.modulus ∧ 2 * n < i.operand.toNat % w.modulus

/-- No instruction jumps or halts. -/
def Straight (p : Program) : Prop :=
  ∀ i ∈ p, ∀ op ∈ Opcode.halt :: Opcode.jumps, i.opcode ≠ op.code

instance (p : Program) : Decidable p.Straight :=
  inferInstanceAs (Decidable (∀ i ∈ p, ∀ op ∈ Opcode.halt :: Opcode.jumps, i.opcode ≠ op.code))

/-- The numbers of the instructions to which one of a number can send control. -/
inductive Leads (w : Width) (p : Program) (n : Nat) : Nat → Prop
  | onwards : Leads w p n (n + 1)
  | jump (listed : p[n]? = some i) (member : op ∈ Opcode.jumps) (code : i.opcode = op.code)
      (address : i.operand.toNat % w.modulus = 2 * n') : Leads w p n n'

variable {w : Width} {p : Program} {n n' : Nat}

theorem Leads.lt (forward : p.Forward w) (leads : p.Leads w n n') : n < n' := by
  cases leads with
  | onwards => exact Nat.lt_succ_self n
  | jump listed member code address =>
    have ahead := (forward.ahead n _ listed ⟨_, member, code⟩).2
    omega

theorem Leads.eq_succ (straight : p.Straight) (leads : p.Leads w n n') : n' = n + 1 := by
  cases leads with
  | onwards => rfl
  | jump listed member code address =>
    exact absurd code (straight _ (List.mem_of_getElem? listed) _ (List.mem_cons_of_mem _ member))

end Program

namespace Machine

/-- Control is at the instruction of a number, and the program lies as it was loaded. -/
structure Reaches (w : Width) (p : Program) (n : Nat) (m : Machine) : Prop where
  width : m.width = w
  inside : n < p.length
  pc : (m.register .pc).toNat = 2 * n
  intact : ∀ k i, p[k]? = some i → m.HasAt k i

/-- What a step does at the instruction of a number. -/
inductive StepsAhead (w : Width) (p : Program) (n : Nat) :
    Machine × Except MachineError (Flow × Nat) → Prop
  | failed : StepsAhead w p n (m', .error e)
  | halted (listed : p[n]? = some i) (code : i.opcode = Opcode.halt.code) :
      StepsAhead w p n (m', .ok (.halt, destination))
  | goes (leads : p.Leads w n n') (goes : flow ≠ .halt) (width : m'.width = w)
      (pc : (m'.register .pc).toNat = 2 * n' % w.modulus)
      (intact : ∀ k i, p[k]? = some i → m'.HasAt k i) :
      StepsAhead w p n (m', .ok (flow, 2 * n'))

variable {w : Width} {p : Program} {m m' : Machine} {n : Nat}

theorem HasAt.of_memory {i : Instruction} (hasAt : m.HasAt n i) (memory : m'.memory = m.memory)
    (width : m'.width = m.width) : m'.HasAt n i := by
  obtain ⟨code, operand⟩ := hasAt
  rw [read, ← memory] at code operand
  rw [← width] at operand
  exact ⟨code, operand⟩

theorem stored?_ne_pc (forward : p.Forward w) {i : Instruction} (member : i ∈ p) {op : Opcode}
    (code : i.opcode = op.code) :
    op.stored? (w.truncate i.operand.toNat) ≠ some .pc := by
  have noBump := forward.noBump i member
  rw [code] at noBump
  cases op with
  | increment | decrement =>
    intro named
    apply noBump (by decide)
    rw [← w.toNat_truncate_natCast]
    exact (Register.ofIndex?_eq_some_iff.mp named).symm
  | _ => simp [Opcode.stored?]

theorem stepsAhead_step (forward : p.Forward w) (reaches : m.Reaches w p n) :
    StepsAhead w p n m.step := by
  obtain ⟨width, inside, pc, intact⟩ := reaches
  have listed : p[n]? = some p[n] := List.getElem?_eq_getElem inside
  have member : p[n] ∈ p := List.getElem_mem inside
  have found := (intact n _ listed).fetch? pc
  rw [width] at found
  have steps := m.steps_step
  generalize m.step = outcome at steps ⊢
  cases steps with
  | outOfStorage | unknown | failed => exact .failed
  | @done cell operand op m' flow fetched known done =>
    obtain ⟨sameCell, sameOperand⟩ := Prod.mk.inj (Option.some.inj (found.symm.trans fetched))
    have code : p[n].opcode = op.code := by
      rw [decode?_eq_some_iff, ← sameCell, toNat_ofNat_byte] at known
      exact (UInt8.toNat_inj.mp known).symm
    have carried : m' = ((m.announced cell operand op).perform op operand).1 := by rw [done]
    have counter : (m'.register .pc).toNat = 2 * n := by
      have other := stored?_ne_pc forward member code
      rw [sameOperand] at other
      rw [carried, register_perform _ op other]
      exact pc
    have kept : m'.memory = m.memory := by
      have noStore : op ≠ .store := fun same => forward.noStore _ member (same ▸ code)
      rw [carried, memory_perform, if_neg noStore]
      rfl
    have same : m'.width = m.width := by
      rw [carried]
      exact (stable_width m.width).perform ((stable_width m.width).announced rfl ..) op operand
    -- Where control goes is the only thing that hangs on the operation.
    have ahead : ∀ n', p.Leads w n n' → flow ≠ .halt → m'.successor flow = 2 * n' →
        StepsAhead w p n (m'.put .pc (m'.successor flow), .ok (flow, m'.successor flow)) := by
      intro n' leads goes address
      rw [address]
      refine .goes leads goes (same.trans width) ?_ ?_
      · rw [register_put, if_pos rfl, Width.toNat_truncate_natCast, same, width]
      · intro k i there
        exact (intact k i there).of_memory kept same
    cases sends_perform done with
    | halt => exact .halted listed code
    | next stays goes =>
      apply ahead (n + 1) .onwards Flow.noConfusion
      rw [successor, counter, cellsPerInstruction, Nat.mul_add]
    | jump jumps =>
      obtain ⟨n', address⟩ := (forward.ahead n _ listed ⟨op, jumps.mem_jumps, code⟩).1
      apply ahead n' (.jump listed jumps.mem_jumps code address) Flow.noConfusion
      rw [successor, ← sameOperand, w.toNat_truncate_natCast, address]

end Machine

namespace Execution

open Machine

/-- How a run goes on from the instruction of a number. -/
inductive GoesAhead (w : Width) (p : Program) (n steps : Nat) : Execution → Prop
  | failed : GoesAhead w p n steps (.finished m (.error e))
  | halted (listed : p[n]? = some i) (code : i.opcode = Opcode.halt.code) :
      GoesAhead w p n steps (.finished m (.ok ⟨steps + 1, true⟩))
  | left (leads : p.Leads w n n') (past : p.length ≤ n')
      (pc : (m.register .pc).toNat = 2 * n' % w.modulus) :
      GoesAhead w p n steps (.finished m (.ok ⟨steps + 1, false⟩))
  | goesOn (leads : p.Leads w n n') (reaches : m.Reaches w p n') :
      GoesAhead w p n steps (.running m (steps + 1))

variable {w : Width} {p : Program} {m : Machine} {n : Nat}

theorem goesAhead_next (fits : p.cellCount ≤ w.modulus) (forward : p.Forward w)
    (reaches : m.Reaches w p n) (steps : Nat) :
    GoesAhead w p n steps (next p.cellCount (.running m steps)) := by
  have count : p.cellCount = p.length * 2 := rfl
  have ahead := stepsAhead_step forward reaches
  obtain ⟨width, inside, pc, intact⟩ := reaches
  have follows := follows_next p.cellCount m steps
  generalize next p.cellCount (.running m steps) = e at follows ⊢
  cases follows with
  | outside outside => omega
  | failed _ step => exact .failed
  | halted _ step =>
    rw [step] at ahead
    cases ahead with
    | halted listed code => exact .halted listed code
    | goes leads goes => contradiction
  | left _ step goes past =>
    rw [step] at ahead
    cases ahead with
    | halted => contradiction
    | goes leads _ width pc => exact .left leads (by omega) pc
  | goesOn _ step goes within =>
    rw [step] at ahead
    cases ahead with
    | halted => contradiction
    | goes leads _ width pc intact =>
      refine .goesOn leads ⟨width, by omega, ?_, ?_⟩
      · exact pc.trans (Nat.mod_eq_of_lt (by omega))
      · intro k i there
        exact (intact k i there).of_memory rfl rfl

/-- From the instruction of a number on, the addresses that are fetched from are even and each
is greater than those before, so that there are no more of them than instructions are left. -/
structure Ascends (p : Program) (n : Nat) (addresses : List Nat) : Prop where
  ascending : addresses.Pairwise (· < ·)
  even : ∀ address ∈ addresses, 2 ∣ address ∧ 2 * n ≤ address ∧ address < p.cellCount
  count : addresses.length + n ≤ p.length

theorem ascends_fetches (fits : p.cellCount ≤ w.modulus) (forward : p.Forward w)
    (reaches : m.Reaches w p n) (limit steps : Nat) :
    Ascends p n ((fetches p.cellCount limit (.running m steps)).map
      fun m => (m.register .pc).toNat) := by
  have count : p.cellCount = p.length * 2 := rfl
  induction limit generalizing m n steps with
  | zero => exact ⟨.nil, by simp [fetches], by simpa [fetches] using Nat.le_of_lt reaches.inside⟩
  | succ limit ih =>
    have inside := reaches.inside
    have pc := reaches.pc
    rw [fetches, if_pos (by omega), List.singleton_append, List.map_cons, pc]
    have alone : Ascends p n [2 * n] := by
      refine ⟨List.pairwise_singleton _ _, ?_, by rw [List.length_singleton]; omega⟩
      rintro _ (_ | ⟨_, ⟨⟩⟩)
      omega
    have ahead := goesAhead_next fits forward reaches steps
    generalize next p.cellCount (.running m steps) = e at ahead ⊢
    cases ahead with
    | failed | halted | left =>
      rw [fetches_finished]
      exact alone
    | @goesOn n' after leads reaches' =>
      have further := leads.lt forward
      obtain ⟨ascending, even, count⟩ := ih reaches' (steps + 1)
      refine ⟨List.pairwise_cons.mpr ⟨?_, ascending⟩, ?_, ?_⟩
      · intro address member
        have beyond := (even address member).2.1
        omega
      · intro address member
        cases member with
        | head => exact (alone.even _ List.mem_cons_self)
        | tail _ member =>
          obtain ⟨two, beyond, before⟩ := even address member
          exact ⟨two, by omega, before⟩
      · rw [List.length_cons]
        omega

end Execution

namespace Machine

open Execution

variable {m before last : Machine} {p : Program}

theorem reaches_loaded (fits : p.cellCount ≤ m.width.modulus) (inside : 0 < p.length) :
    (m.loaded p).Reaches m.width p 0 where
  width := m.width_loaded p
  inside := inside
  pc := m.pc_loaded p
  intact _ _ listed := hasAt_loaded fits listed

/-- Every stage that goes on is at an instruction, one further on than the stage before at least. -/
theorem reaches_of_stage (fits : p.cellCount ≤ m.width.modulus) (forward : p.Forward m.width)
    (inside : 0 < p.length) {k steps : Nat} (stage : m.execute k p = .running before steps) :
    ∃ n, k ≤ n ∧ before.Reaches m.width p n ∧ (p.Straight → n = k) := by
  induction k generalizing before steps with
  | zero =>
    rw [execute, start_eq_running fits] at stage
    cases stage
    exact ⟨0, Nat.le_refl 0, reaches_loaded fits inside, fun _ => rfl⟩
  | succ k ih =>
    rw [execute_succ] at stage
    cases earlier : m.execute k p with
    | finished m' result =>
      rw [earlier] at stage
      contradiction
    | running m' steps' =>
      obtain ⟨n, least, reaches, straight⟩ := ih earlier
      have ahead := goesAhead_next fits forward reaches steps'
      rw [← earlier, stage] at ahead
      cases ahead with
      | @goesOn n' _ leads reaches' =>
        have further := leads.lt forward
        refine ⟨n', by omega, reaches', ?_⟩
        intro plain
        rw [leads.eq_succ plain, straight plain]

/-- A run is over after as many stages as there are instructions. -/
theorem exists_finished (fits : p.cellCount ≤ m.width.modulus) (forward : p.Forward m.width)
    (inside : 0 < p.length) : ∃ last result, m.execute p.length p = .finished last result := by
  cases stage : m.execute p.length p with
  | finished last result => exact ⟨last, result, rfl⟩
  | running before steps =>
    obtain ⟨n, least, reaches, _⟩ := reaches_of_stage fits forward inside stage
    have further := reaches.inside
    omega

theorem execute_nil (m : Machine) :
    m.execute 1 [] = .conclude (m.loaded []) 0 false := by
  have fits : Program.cellCount [] ≤ m.width.modulus := Nat.zero_le _
  have ends : Follows 0 (m.loaded []) 0 (.conclude (m.loaded []) 0 false) :=
    .outside (Nat.zero_le _)
  rw [execute_succ, execute, start_eq_running fits]
  exact ends.next_eq

theorem fetches_nil (limit : Nat) (m : Machine) : m.fetches limit [] = [] := by
  have started : m.start [] = .running (m.loaded []) 0 := start_eq_running (Nat.zero_le _)
  have counted : (m.execute limit []).steps? = some 0 := by
    cases limit with
    | zero => rw [execute, started]; rfl
    | succ limit => rw [execute_of_le (execute_nil m) (Nat.succ_pos limit)]; rfl
  rw [execute, started] at counted
  have none := steps?_after counted
  rw [Nat.zero_add] at none
  rw [Machine.fetches, started]
  exact List.length_eq_zero_iff.mp none.symm

/-- The addresses that a whole run fetches from. -/
theorem ascends_run (fits : p.cellCount ≤ m.width.modulus) (forward : p.Forward m.width)
    (limit : Nat) : Ascends p 0 ((m.fetches limit p).map fun m => (m.register .pc).toNat) := by
  obtain empty | inside := p.length.eq_zero_or_pos
  · obtain rfl := List.length_eq_zero_iff.mp empty
    rw [fetches_nil]
    exact ⟨.nil, List.forall_mem_nil _, Nat.le_refl 0⟩
  · rw [Machine.fetches, start_eq_running fits]
    exact ascends_fetches fits forward (reaches_loaded fits inside) limit 0

theorem steps_le_length (fits : p.cellCount ≤ m.width.modulus) (forward : p.Forward m.width)
    {limit : Nat} {summary : RunSummary}
    (ended : m.execute limit p = .finished last (.ok summary)) : summary.steps ≤ p.length := by
  have started := start_eq_running fits
  have counted : (m.execute limit p).steps? = some summary.steps := by rw [ended]; rfl
  rw [execute, started] at counted
  have made := steps?_after counted
  have few := (ascends_run fits forward limit).count
  rw [Machine.fetches, started, List.length_map] at few
  omega

/-- The last stage of a run that is over as it should be is at the last instruction. -/
theorem ends_of_straight (fits : p.cellCount ≤ m.width.modulus) (forward : p.Forward m.width)
    (inside : 0 < p.length) (straight : p.Straight) {limit : Nat} {summary : RunSummary}
    (ended : m.execute limit p = .finished last (.ok summary)) :
    summary = ⟨p.length, false⟩ ∧
      (last.register .pc).toNat = p.cellCount % m.width.modulus := by
  have started := start_eq_running fits
  rw [execute, started] at ended
  obtain ⟨k, before, stage, next⟩ := exists_last_stage ended
  obtain ⟨n, _, reaches, same⟩ := reaches_of_stage fits forward inside
    (show m.execute k p = _ by rw [execute, started, stage])
  obtain rfl := same straight
  have ahead := goesAhead_next fits forward reaches n
  rw [next] at ahead
  cases ahead with
  | halted listed code =>
    exact absurd code (straight _ (List.mem_of_getElem? listed) _ List.mem_cons_self)
  | left leads past pc =>
    obtain rfl := leads.eq_succ straight
    have last : n + 1 = p.length := Nat.le_antisymm reaches.inside past
    rw [pc, last, Program.cellCount, cellsPerInstruction, Nat.mul_comm]
    exact ⟨rfl, rfl⟩

/-- A program that is no longer than the addresses reach and that sends control only ahead comes
to an end, in no more steps than it has instructions. The addresses that it fetches from are even
and ascend. If nothing in it jumps or halts and no step fails, each instruction is carried out once
and the program counter is left at the end of the program, narrowed. -/
theorem execute_forward (fits : p.cellCount ≤ m.width.modulus) (forward : p.Forward m.width) :
    ∃ last result,
      (∀ limit, 0 < limit → p.length ≤ limit → m.execute limit p = .finished last result) ∧
      (∀ limit, Ascends p 0 ((m.fetches limit p).map fun m => (m.register .pc).toNat)) ∧
      (∀ summary, result = .ok summary → summary.steps ≤ p.length) ∧
      (p.Straight → ∀ summary, result = .ok summary → summary = ⟨p.length, false⟩ ∧
        (last.register .pc).toNat = p.cellCount % m.width.modulus) := by
  have ascends := ascends_run fits forward
  obtain empty | inside := p.length.eq_zero_or_pos
  · obtain rfl := List.length_eq_zero_iff.mp empty
    have ended := execute_nil m
    refine ⟨_, _, fun limit some _ => execute_of_le ended some, ascends, ?_, ?_⟩
    · rintro summary ⟨⟩
      exact Nat.le_refl 0
    · rintro _ summary ⟨⟩
      exact ⟨rfl, m.pc_loaded []⟩
  · obtain ⟨last, result, ended⟩ := exists_finished fits forward inside
    refine ⟨last, result, fun limit _ long => execute_of_le ended long, ascends, ?_, ?_⟩
    · rintro summary rfl
      exact steps_le_length fits forward ended
    · rintro straight summary rfl
      exact ends_of_straight fits forward inside straight ended

/-- On a machine of 8 bits, a program that takes up every address and jumps to its last
instruction, and three instructions in a row. -/
theorem execute_forward_of_full_address_space :
    let m : Machine := { width := ⟨8, by decide, by decide⟩ }
    let full : Program := ⟨0x30, 254⟩ :: List.replicate 127 ⟨0x07, 0⟩
    let row : Program := [⟨0x21, 0x1FF⟩, ⟨0x11, 0⟩, ⟨0x24, 0⟩]
    (full.cellCount = m.width.modulus ∧ full.Forward m.width ∧
      (∃ last result, ∀ limit, 128 ≤ limit → m.execute limit full = .finished last result) ∧
      ∀ limit, Ascends full 0 ((m.fetches limit full).map fun m => (m.register .pc).toNat)) ∧
    row.cellCount ≤ m.width.modulus ∧ row.Forward m.width ∧ row.Straight ∧
      ∃ last, (∀ limit, 3 ≤ limit → m.execute limit row = .finished last (.ok ⟨3, false⟩)) ∧
        (last.register .pc).toNat = 6 := by
  intro m full row
  have size : full.cellCount = m.width.modulus := by
    rw [Program.cellCount, List.length_cons, List.length_replicate]
    decide
  have forward : full.Forward m.width := by
    have pass : ∀ i ∈ full, i = ⟨0x30, 254⟩ ∨ i = ⟨0x07, 0⟩ := by
      intro i member
      obtain rfl | rest := List.mem_cons.mp member
      · exact .inl rfl
      · exact .inr (List.eq_of_mem_replicate rest)
    refine ⟨?_, ?_, ?_⟩
    · intro i member
      obtain rfl | rfl := pass i member
      · decide
      · decide
    · intro i member
      obtain rfl | rfl := pass i member
      · decide
      · decide
    · intro n i listed jumps
      cases n with
      | zero =>
        cases listed
        decide
      | succ n =>
        obtain rfl := List.eq_of_mem_replicate (List.mem_of_getElem? listed)
        obtain ⟨op, member, code⟩ := jumps
        have plain : ∀ op ∈ Opcode.jumps, (⟨0x07, 0⟩ : Instruction).opcode ≠ op.code := by decide
        exact absurd code (plain op member)
  have straight : row.Straight := by decide
  have ahead : row.Forward m.width := by
    refine ⟨by decide, by decide, ?_⟩
    rintro n i listed ⟨op, member, code⟩
    exact absurd code (straight i (List.mem_of_getElem? listed) op (List.mem_cons_of_mem _ member))
  have fits : row.cellCount ≤ m.width.modulus := by decide
  obtain ⟨last, result, ended, ascends, _⟩ := execute_forward (Nat.le_of_eq size) forward
  obtain ⟨last', result', ended', _, _, onwards⟩ := execute_forward fits ahead
  have done : (m.execute 3 row).result? = some (.ok ⟨3, false⟩) := by decide +kernel
  have succeeds : result' = .ok ⟨3, false⟩ := by
    rw [ended' 3 (by decide) (by decide)] at done
    exact Option.some.inj done
  subst succeeds
  refine ⟨⟨size, forward, ⟨last, result, ?_⟩, ascends⟩, fits, ahead, straight, last', ?_, ?_⟩
  · intro limit long
    apply ended limit (by omega)
    rwa [List.length_cons, List.length_replicate]
  · intro limit long
    exact ended' limit (by omega) long
  · exact (onwards straight _ rfl).2

end Machine

end AccumulatorMachine
