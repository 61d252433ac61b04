import AccumulatorMachine.Proofs.Ideal.Represents
import AccumulatorMachine.Proofs.Machine.History
import AccumulatorMachine.Proofs.Machine.Loading

/-! The machine computes what the ideal machine computes: stage by stage, for every program
that its addresses can hold and from every state that a host can bring about. The bound on
the program counter is what lets the ideal run do without looking at it. -/
namespace AccumulatorMachine

variable {w : Width}

inductive Simulates : Ideal.Run w → Execution → Prop
  | running {s : Ideal w} {m : Machine} (state : Represents s m) (steps : Nat) :
      Simulates (.running s steps) (.running m steps)
  | finished {s : Ideal w} {m : Machine} (state : Represents s m)
      (result : Except MachineError RunSummary) :
      Simulates (.finished s result) (.finished m result)

/-- While a run goes on, its program counter is inside the program, if that has any cells. -/
def Execution.Inside (stop : Nat) : Execution → Prop
  | running m _ => 0 < stop → (m.register .pc).toNat < stop
  | finished .. => True

theorem Simulates.next {r : Ideal.Run w} {e : Execution} (simulates : Simulates r e)
    {stop : Nat} (fits : stop ≤ 2 ^ w.bits) (inside : e.Inside stop) :
    Simulates (r.next stop) (e.next stop) ∧ (e.next stop).Inside stop := by
  cases simulates with
  | finished state result => exact ⟨.finished state result, trivial⟩
  | @running s m state steps =>
    have agrees := state.step
    have follows := Execution.follows_next stop m steps
    generalize Execution.next stop (.running m steps) = e at follows ⊢
    cases follows with
    | outside outside =>
      have empty : stop = 0 := by
        by_contra some
        have := inside (by omega)
        omega
      rw [Ideal.Run.next, if_pos empty]
      exact ⟨.finished (state.around _ _) _, trivial⟩
    | failed inside step =>
      rw [Ideal.Run.next, if_neg (by omega)]
      rw [step] at agrees
      generalize s.step = outcome at agrees ⊢
      cases agrees with
      | error state e => exact ⟨.finished state _, trivial⟩
    | halted inside step =>
      rw [Ideal.Run.next, if_neg (by omega)]
      rw [step] at agrees
      generalize s.step = outcome at agrees ⊢
      cases agrees with
      | ok state leads =>
        cases leads with
        | halt => exact ⟨.finished (state.around _ _) _, trivial⟩
    | left inside step goes past =>
      rw [Ideal.Run.next, if_neg (by omega)]
      rw [step] at agrees
      generalize s.step = outcome at agrees ⊢
      cases agrees with
      | ok state leads =>
        cases leads with
        | halt => contradiction
        | next | jump =>
          simp only [if_pos past]
          exact ⟨.finished (state.around _ _) _, trivial⟩
    | @goesOn m' _ _ inside step goes within =>
      rw [Ideal.Run.next, if_neg (by omega)]
      rw [step] at agrees
      generalize s.step = outcome at agrees ⊢
      cases agrees with
      | ok state leads pc =>
        have inside : (Execution.running m'.dumped (steps + 1)).Inside stop := by
          intro _
          change (m'.register .pc).toNat < stop
          rw [pc, Nat.mod_eq_of_lt (by omega)]
          exact within
        cases leads with
        | halt => contradiction
        | next | jump =>
          simp only [if_neg (Nat.not_le.mpr within)]
          exact ⟨.running (state.around _ _) _, inside⟩

theorem Simulates.after {r : Ideal.Run w} {e : Execution} (simulates : Simulates r e)
    {stop : Nat} (fits : stop ≤ 2 ^ w.bits) (inside : e.Inside stop) (n : Nat) :
    Simulates ((Ideal.Run.next stop)^[n] r) (e.after stop n) := by
  induction n generalizing r e with
  | zero => exact simulates
  | succ n ih =>
    obtain ⟨stage, inside⟩ := simulates.next fits inside
    rw [Function.iterate_succ_apply]
    cases e with
    | running m steps => exact ih stage inside
    | finished m result =>
      rw [Execution.after_finished]
      have stopped := ih stage inside
      rwa [Execution.next, Execution.after_finished] at stopped

theorem Represents.loaded {s : Ideal w} {m : Machine} (h : Represents s m) {p : Program}
    (fits : 2 * p.length ≤ 2 ^ w.bits) :
    Represents (s.load p) ((m.loadFrom 0 p).put .pc 0) := by
  have room : 0 + 2 * p.length ≤ 2 ^ 64 := by
    have bound := w.modulus_le
    rw [Width.modulus_eq] at bound
    omega
  have reads := Machine.read_loadFrom (m := m) room
  rw [m.loadFrom_frame 0 p] at reads ⊢
  have started : Represents (s.set .pc 0) (m.put .pc 0) := h.put .pc (by push_cast; rfl)
  refine ⟨h.width, started.registers, fun address => ?_, h.flags, h.input, h.output⟩
  refine Eq.trans ?_ (congrArg UInt64.toNat (reads address)).symm
  simp only [if_neg (Nat.not_lt_zero _), Nat.sub_zero, Program.word?, Ideal.load]
  cases p[address.toNat / 2]? with
  | none => exact h.memory address
  | some i =>
    have code : (UInt64.ofNat i.opcode.toNat).toNat = i.opcode.toNat := by
      have bound := i.opcode.toNat_lt
      rw [UInt64.toNat_ofNat']
      omega
    simp only [Option.map_some, Option.getD_some, h.width, Width.toNat_truncate_natCast,
      Width.modulus_eq]
    split
    · rw [code, ZMod.val_natCast]
    · rw [ZMod.val_natCast]

/-- Every machine that a host can bring about stands for an ideal one. -/
theorem History.exists_represents (history : History stores m) :
    ∃ s : Ideal m.width, Represents s m := by
  have val : ∀ word : UInt64, word.toNat < m.width.modulus →
      ((word.toNat : Residue m.width)).val = word.toNat := fun word bound =>
    ZMod.val_natCast_of_lt bound
  refine ⟨{
    registers := fun r => (m.register r).toNat
    memory := fun address => (m.read (UInt64.ofNat address)).toNat
    flags := m.flags
    input := m.input
    output := m.output }, rfl, fun r => val _ (history.register_lt r), fun address => ?_,
    rfl, rfl, rfl⟩
  simp only [UInt64.ofNat_toNat]
  exact val _ (history.read_lt address)

/-- After any number of steps of a program that fits, the machine stands for what the ideal
machine is after as many, and a run of one ends where and how a run of the other does. -/
theorem execute_simulates (history : History stores m) {p : Program}
    (fits : 2 * p.length ≤ 2 ^ m.width.bits) :
    (∃ s : Ideal m.width, Represents s m) ∧
      ∀ s : Ideal m.width, Represents s m →
        ∀ limit, Simulates (s.execute p limit) (m.execute limit p) := by
  refine ⟨history.exists_represents, fun s state limit => ?_⟩
  have cells : p.cellCount = 2 * p.length := Nat.mul_comm _ _
  have started : m.start p = .running ((m.loadFrom 0 p).put .pc 0) 0 := by
    rw [Machine.start, Width.modulus_eq, if_neg (by omega)]
  rw [Ideal.execute, Machine.execute, cells, started]
  refine (Simulates.running (state.loaded fits) 0).after fits (fun some => ?_) limit
  have zero := (m.loadFrom 0 p).width.toNat_truncate_natCast 0
  rw [Nat.zero_mod, Nat.cast_zero] at zero
  rwa [Machine.register_put, if_pos rfl, zero]

/-- A sum of 255 and 1 wraps to zero in 8 bits, and the jump over the output is taken. -/
theorem execute_simulates_of_wrapping_sum :
    let m : Machine := { width := ⟨8, by decide, by decide⟩ }
    let p : Program := [⟨0x00, 255⟩, ⟨0x21, 1⟩, ⟨0x31, 8⟩, ⟨0x11, 0⟩, ⟨0x33, 0⟩]
    2 * p.length ≤ 2 ^ m.width.bits ∧
      (m.execute 4 p).result? = some (.ok ⟨4, true⟩) ∧
      (∃ s : Ideal m.width, Represents s m) ∧
      ∀ s : Ideal m.width, Represents s m →
        ∀ limit, Simulates (s.execute p limit) (m.execute limit p) := by
  intro m p
  have built : History [] m :=
    .built (s := { bits := 8 }) (t := ⟨.unlimited, .plain⟩) rfl
  exact ⟨by decide, by decide +kernel, execute_simulates built (by decide)⟩

end AccumulatorMachine
