import AccumulatorMachine.Proofs.Machine.Adding
import AccumulatorMachine.Proofs.Machine.Echo

/-! Loops that count down: the accumulator is put out, one is taken from it, and a jump goes back
until it is zero. Since one is taken before the jump looks, a count of zero goes round the whole
range of the width. -/
namespace AccumulatorMachine

/-- Every word is accepted, whatever calls came before. -/
def OutputDevice.AcceptsAll (o : OutputDevice) : Prop :=
  ∀ earlier word, o.reply earlier word = .ok ()

namespace Width

/-- How often one is to be taken from a number until it is zero, taken once at least. -/
def rounds (w : Width) (k : Nat) : Nat :=
  if k % 2 ^ w.bits = 0 then 2 ^ w.bits else k % 2 ^ w.bits

/-- The words from a number down to one. -/
def countdown (w : Width) : Nat → List UInt64
  | 0 => []
  | r + 1 => w.truncate (r + 1 : Nat) :: w.countdown r

variable {w : Width} {k r n : Nat}

theorem rounds_pos (w : Width) (k : Nat) : 0 < w.rounds k := by
  have modulus := w.modulus_pos
  rw [modulus_eq] at modulus
  rw [rounds]
  split <;> omega

theorem rounds_le (w : Width) (k : Nat) : w.rounds k ≤ w.modulus := by
  have remainder := Nat.mod_lt k w.modulus_pos
  rw [modulus_eq] at remainder ⊢
  rw [rounds]
  split <;> omega

theorem rounds_mod (w : Width) (k : Nat) : w.rounds k % w.modulus = k % w.modulus := by
  rw [rounds, modulus_eq]
  split
  · next zero => rw [zero, Nat.mod_self]
  · rw [Nat.mod_mod]

theorem length_countdown (w : Width) (r : Nat) : (w.countdown r).length = r := by
  induction r with
  | zero => rfl
  | succ r ih => rw [countdown, List.length_cons, ih]

theorem getElem?_countdown (inside : n < r) :
    (w.countdown r)[n]? = some (w.truncate (r - n : Nat)) := by
  induction r generalizing n with
  | zero => omega
  | succ r ih =>
    rw [countdown]
    cases n with
    | zero => rfl
    | succ n => rw [List.getElem?_cons_succ, ih (by omega), Nat.add_sub_add_right]

end Width

/-- Words that start from a number, narrowed, of which each next one is one less, narrowed, until
the last is one. -/
structure CountsDown (w : Width) (k : Nat) (words : List UInt64) : Prop where
  length : words.length = w.rounds k
  first : words[0]?.map UInt64.toNat = some (k % 2 ^ w.bits)
  next : ∀ n word next, words[n]? = some word → words[n + 1]? = some next →
    (next.toNat : Int) = (word.toNat - 1) % 2 ^ w.bits
  last : words.getLast? = some 1

theorem countsDown_countdown (w : Width) (k : Nat) : CountsDown w k (w.countdown (w.rounds k)) := by
  have length := w.length_countdown (w.rounds k)
  have some := w.rounds_pos k
  refine ⟨length, ?_, ?_, ?_⟩
  · rw [Width.getElem?_countdown some, Option.map_some, w.toNat_truncate_natCast, Nat.sub_zero,
      w.rounds_mod]
    rfl
  · intro n word next listed listed'
    have inside := (List.getElem?_eq_some_iff.mp listed').1
    rw [length] at inside
    rw [Width.getElem?_countdown (by omega)] at listed listed'
    cases listed
    cases listed'
    have less : ((w.rounds k - (n + 1) : Nat) : Int) = (w.rounds k - n : Nat) - 1 := by omega
    rw [w.toNat_truncate, w.toNat_truncate, less, w.modulus_eq, Nat.cast_pow]
    exact (Int.emod_sub_emod _ _ _).symm
  · have one : w.truncate (1 : Nat) = 1 := w.truncate_of_lt (w.byte_lt_modulus 1)
    rw [List.getLast?_eq_getElem?, length, Width.getElem?_countdown (by omega),
      Nat.sub_sub_self some]
    exact congrArg Option.some one

/-- What a comparison of a number with zero makes of the flags, where one is made. -/
def Flags.tested (f : Flags) (compares : Bool) (n : Nat) : Flags :=
  if compares then { f with carry := false, negative := false, zero := n = 0 } else f

theorem Flags.tested_tested (f : Flags) (compares : Bool) (n n' : Nat) :
    (f.tested compares n).tested compares n' = f.tested compares n' := by
  cases compares with
  | false | true => rfl

theorem Flags.compare_zero (f : Flags) (word : UInt64) :
    f.compare word 0 = f.tested true word.toNat := by
  have notLess : ¬word < 0 := by simp
  have zero : (word == 0) = decide (word.toNat = 0) := by
    rw [Bool.eq_iff_iff, beq_iff_eq, decide_eq_true_iff, ← UInt64.toNat_inj]
    rfl
  simp [compare, tested, zero]

/-- All that a device is given is taken if it accepts everything. -/
theorem OutputDevice.AcceptsAll.taken_called {o : OutputDevice} (accepts : o.AcceptsAll)
    (words : List UInt64) : (o.called words).taken = o.taken ++ words := by
  induction words using List.reverseRecOn with
  | nil => simp [called]
  | append_singleton words word ih =>
    have reply : (o.called words).next word = .ok () := accepts _ _
    rw [o.called_append_singleton, taken_write, reply, ih, List.append_assoc]
    rfl

namespace Program

/-- Loads a number, puts it out and takes one from it, and goes back as long as it is not zero,
after a comparison with zero or without one. -/
def countdown (k : UInt64) (compares : Bool) : Program :=
  [.ofOpcode .loadImmediate k, .ofOpcode .output 0, .ofOpcode .subImmediate 1] ++
    (if compares then [.ofOpcode .compareImmediate 0] else []) ++
    [.ofOpcode .jumpIfNonzero 2, .ofOpcode .halt 0]

theorem length_countdown (k : UInt64) (compares : Bool) :
    (countdown k compares).length = 5 + compares.toNat := by
  cases compares with
  | false | true => rfl

theorem countdown_fits (w : Width) (k : UInt64) (compares : Bool) :
    (countdown k compares).cellCount ≤ w.modulus := by
  have small : 12 < w.modulus := w.byte_lt_modulus 12
  have few := compares.toNat_le
  rw [cellCount, length_countdown, cellsPerInstruction]
  omega

end Program

namespace Machine

open Execution

/-- A machine at the instruction of a number, with a number in the accumulator, flags, and calls
made to its output device. -/
structure Counts (w : Width) (p : Program) (o : OutputDevice) (n acc : Nat) (flags : Flags)
    (calls : List UInt64) (m : Machine) : Prop where
  reaches : m.Reaches w p n
  acc : (m.register .acc).toNat = acc
  flags : m.flags = flags
  output : m.output = some (o.called calls)

variable {w : Width} {p : Program} {o : OutputDevice} {n acc acc' : Nat} {flags flags' : Flags}
  {calls calls' : List UInt64} {m m' : Machine} {op : Opcode} {operand : UInt64}

/-- An instruction that does not send control anywhere hands on what it leaves. -/
theorem Counts.onwards (fits : p.cellCount ≤ w.modulus) (counts : m.Counts w p o n acc flags calls)
    (listed : p[n]? = some (.ofOpcode op operand)) (further : n + 1 < p.length)
    (done : m.carryOut (.ofOpcode op operand) op = (m', .ok .next)) (noStore : op ≠ .store)
    (noBump : op.stored? (m.width.truncate operand.toNat) ≠ some .pc)
    (holds : (m'.register .acc).toNat = acc') (shows : m'.flags = flags')
    (called : m'.output = some (o.called calls')) (steps : Nat) :
    ∃ after, next p.cellCount (.running m steps) = .running after (steps + 1) ∧
      after.Counts w p o (n + 1) acc' flags' calls' := by
  obtain ⟨after, goesOn, reaches, moves⟩ :=
    (counts.reaches.onwards fits listed rfl done noStore noBump steps).exists_running further
  refine ⟨after, goesOn, reaches, ?_, moves.flags.trans shows, moves.output.trans called⟩
  rw [moves.registers .acc (by decide), holds]

theorem Counts.next_of_load (fits : p.cellCount ≤ w.modulus)
    (counts : m.Counts w p o n acc flags calls)
    (listed : p[n]? = some (.ofOpcode .loadImmediate operand)) (further : n + 1 < p.length)
    (steps : Nat) :
    ∃ after, next p.cellCount (.running m steps) = .running after (steps + 1) ∧
      after.Counts w p o (n + 1) (operand.toNat % w.modulus) flags calls := by
  refine counts.onwards fits listed further rfl (by decide) (by simp [Opcode.stored?]) ?_
    counts.flags counts.output steps
  have width : (m.about (.ofOpcode .loadImmediate operand) .loadImmediate).width = w :=
    counts.reaches.width
  rw [register_put, if_pos rfl, Width.toNat_truncate_natCast, Width.toNat_truncate_natCast, width,
    counts.reaches.width]
  exact Nat.mod_mod _ _

theorem Counts.next_of_output (fits : p.cellCount ≤ w.modulus) (accepts : o.AcceptsAll)
    (counts : m.Counts w p o n acc flags calls)
    (listed : p[n]? = some (.ofOpcode .output operand)) (further : n + 1 < p.length)
    (steps : Nat) :
    ∃ after, next p.cellCount (.running m steps) = .running after (steps + 1) ∧
      after.Counts w p o (n + 1) acc flags (calls ++ [m.register .acc]) := by
  have attached : (m.about (.ofOpcode .output operand) .output).output = some (o.called calls) :=
    counts.output
  have done := perform_output attached (accepts _ _) (m.width.truncate operand.toNat)
  refine counts.onwards fits listed further done (by decide) (by simp [Opcode.stored?]) counts.acc
    counts.flags ?_ steps
  rw [o.called_append_singleton]
  rfl

theorem Counts.next_of_subtract (fits : p.cellCount ≤ w.modulus)
    (counts : m.Counts w p o n ((acc + 1) % w.modulus) flags calls) (small : acc < w.modulus)
    (listed : p[n]? = some (.ofOpcode .subImmediate 1)) (further : n + 1 < p.length)
    (steps : Nat) :
    ∃ after, next p.cellCount (.running m steps) = .running after (steps + 1) ∧
      after.Counts w p o (n + 1) acc flags calls := by
  obtain ⟨op, after, code, done, noStore, _, gains⟩ :=
    exists_carryOut_of_adds (.subtract 1) m
  obtain rfl : Opcode.subImmediate = op := Opcode.code_injective code
  have less : (after.register .acc).toNat = acc := by
    have one : ((1 : UInt64).toNat : Int) = 1 := rfl
    have inside := Int.emod_eq_of_lt (Int.natCast_nonneg acc) (Int.ofNat_lt.mpr small)
    have sum := gains.acc
    rw [counts.acc, counts.reaches.width, Int.natCast_emod, Int.emod_add_emod, one,
      Nat.cast_succ, add_neg_cancel_right, inside] at sum
    exact_mod_cast sum
  have output : after.output = some (o.called calls) := by
    obtain rfl := (Prod.mk.inj done).1
    exact counts.output
  exact counts.onwards fits listed further done noStore (by simp [Opcode.stored?]) less
    (gains.flags.trans counts.flags) output steps

/-- Where the accumulator is compared with zero, the flags say how; otherwise no step is made. -/
theorem Counts.next_of_compare (fits : p.cellCount ≤ w.modulus)
    (counts : m.Counts w p o n acc flags calls)
    (listed : p[n]? = some (.ofOpcode .compareImmediate 0)) (further : n + 1 < p.length)
    (steps : Nat) :
    ∃ after, next p.cellCount (.running m steps) = .running after (steps + 1) ∧
      after.Counts w p o (n + 1) acc (flags.tested true acc) calls := by
  have zero : m.width.truncate ((0 : UInt64).toNat : Int) = 0 := m.width.truncate_zero
  have compared : m.flags.compare (m.register .acc) (m.width.truncate (0 : UInt64).toNat) =
      flags.tested true acc := by
    rw [zero, Flags.compare_zero, counts.flags, counts.acc]
  exact counts.onwards fits listed further rfl (by decide) (by simp [Opcode.stored?]) counts.acc
    compared counts.output steps

theorem Counts.next_of_jump (fits : p.cellCount ≤ w.modulus)
    (counts : m.Counts w p o n acc flags calls) {target : Nat}
    (listed : p[n]? = some (.ofOpcode .jumpIfNonzero operand)) (inside : target < p.length)
    (address : operand.toNat % w.modulus = 2 * target) (more : acc ≠ 0) (steps : Nat) :
    ∃ after, next p.cellCount (.running m steps) = .running after (steps + 1) ∧
      after.Counts w p o target acc flags calls := by
  have nonzero : m.register .acc ≠ 0 := by
    intro zero
    rw [← counts.acc, zero] at more
    exact more rfl
  obtain ⟨after, goesOn, reaches, moves⟩ :=
    counts.reaches.next_of_jumps fits listed rfl (.nonzero nonzero) inside address steps
  refine ⟨after, goesOn, reaches, ?_, moves.flags.trans counts.flags,
    moves.output.trans counts.output⟩
  rw [moves.registers .acc (by decide), counts.acc]

theorem Counts.next_of_no_jump (fits : p.cellCount ≤ w.modulus)
    (counts : m.Counts w p o n 0 flags calls)
    (listed : p[n]? = some (.ofOpcode .jumpIfNonzero operand)) (further : n + 1 < p.length)
    (steps : Nat) :
    ∃ after, next p.cellCount (.running m steps) = .running after (steps + 1) ∧
      after.Counts w p o (n + 1) 0 flags calls := by
  have zero : m.register .acc = 0 := UInt64.toNat_inj.mp counts.acc
  have stays : m.carryOut (.ofOpcode .jumpIfNonzero operand) .jumpIfNonzero =
      (m.about (.ofOpcode .jumpIfNonzero operand) .jumpIfNonzero, .ok .next) := by
    have same : (m.about (.ofOpcode .jumpIfNonzero operand) .jumpIfNonzero).register .acc = 0 :=
      zero
    rw [carryOut, perform, Flow.jumpIf, same]
    rfl
  exact counts.onwards fits listed further stays (by decide) (by simp [Opcode.stored?]) counts.acc
    counts.flags counts.output steps

section Loop

variable {before : Machine} {k r : Nat} {compares : Bool}

/-- A round up to its jump: the accumulator is put out, one is taken from it, and the flags tell of
the comparison if there is one. -/
theorem exists_stage_of_round (accepts : o.AcceptsAll) (small : r < m.width.modulus)
    (stage : m.execute k (.countdown operand compares) = .running before k)
    (counts : before.Counts m.width (.countdown operand compares) o 1 acc flags calls)
    (left : acc = (r + 1) % m.width.modulus) :
    ∃ after, m.execute (k + 2 + compares.toNat) (.countdown operand compares) =
        .running after (k + 2 + compares.toNat) ∧
      after.Counts m.width (.countdown operand compares) o (3 + compares.toNat) r
        (flags.tested compares r) (calls ++ [m.width.truncate (r + 1 : Nat)]) := by
  have fits := Program.countdown_fits m.width operand compares
  have length := Program.length_countdown operand compares
  have word : before.register .acc = m.width.truncate (r + 1 : Nat) := by
    rw [← UInt64.toNat_inj, counts.acc, left, Width.toNat_truncate_natCast]
  rw [left] at counts
  obtain ⟨written, first, counts⟩ := counts.next_of_output fits accepts rfl (by omega) k
  rw [word] at counts
  obtain ⟨less, second, counts⟩ := counts.next_of_subtract fits small rfl (by omega) (k + 1)
  have stage' : m.execute (k + 2) (.countdown operand compares) = .running less (k + 2) := by
    rw [execute_succ, execute_succ, stage, first, second]
  cases compares with
  | false => exact ⟨less, stage', counts⟩
  | true =>
    obtain ⟨after, third, counts⟩ :=
      counts.next_of_compare fits rfl (by rw [length]; decide) (k + 2)
    exact ⟨after, by rw [Bool.toNat_true, execute_succ, stage', third], counts⟩

/-- What is left of the rounds is made, down to one, and then the run halts. -/
theorem exists_end_of_rounds (accepts : o.AcceptsAll) (small : r < m.width.modulus)
    (stage : m.execute k (.countdown operand compares) = .running before k)
    (counts : before.Counts m.width (.countdown operand compares) o 1 acc flags calls)
    (left : acc = (r + 1) % m.width.modulus) :
    ∃ last steps, steps = k + (3 + compares.toNat) * (r + 1) + 1 ∧
      m.execute steps (.countdown operand compares) = .finished last (.ok ⟨steps, true⟩) ∧
      (last.register .acc).toNat = 0 ∧ last.flags = flags.tested compares 0 ∧
      last.output = some (o.called (calls ++ m.width.countdown (r + 1))) := by
  have fits := Program.countdown_fits m.width operand compares
  have length := Program.length_countdown operand compares
  have jump : (Program.countdown operand compares)[3 + compares.toNat]? =
      some (.ofOpcode .jumpIfNonzero 2) := by
    cases compares with
    | false | true => rfl
  -- The rounds that are left are what shrinks; the accumulator holds their number, narrowed.
  induction r generalizing before k acc flags calls with
  | zero =>
    obtain ⟨round, stage, counts⟩ := exists_stage_of_round accepts small stage counts left
    obtain ⟨past, onwards, counts⟩ := counts.next_of_no_jump fits jump (by omega) _
    have halt : (Program.countdown operand compares)[3 + compares.toNat + 1]? =
        some (.ofOpcode .halt 0) := by
      cases compares with
      | false | true => rfl
    obtain ⟨last, ended, moves⟩ := counts.reaches.next_of_halt halt rfl _
    refine ⟨last, k + 2 + compares.toNat + 1 + 1, by omega, ?_, ?_,
      moves.flags.trans counts.flags, moves.output.trans counts.output⟩
    · rw [execute_succ, execute_succ, stage, onwards, ended]
    · rw [moves.registers .acc (by decide), counts.acc]
  | succ r ih =>
    obtain ⟨round, stage, counts⟩ := exists_stage_of_round accepts small stage counts left
    have address : (2 : UInt64).toNat % m.width.modulus = 2 * 1 :=
      Nat.mod_eq_of_lt (m.width.byte_lt_modulus 2)
    obtain ⟨back, jumps, counts⟩ :=
      counts.next_of_jump fits jump (by omega) address (Nat.succ_ne_zero r) _
    have stage' : m.execute (k + 2 + compares.toNat + 1) (.countdown operand compares) =
        .running back (k + 2 + compares.toNat + 1) := by
      rw [execute_succ, stage, jumps]
    obtain ⟨last, steps, count, ended, acc, flags, output⟩ :=
      ih (by omega) stage' counts (Nat.mod_eq_of_lt small).symm
    refine ⟨last, steps, ?_, ended, acc, flags.trans (Flags.tested_tested _ _ _ _), ?_⟩
    · rw [count]
      ring
    · rw [output, List.append_assoc]
      rfl

/-- The whole run: a step that loads, the rounds, and a step that halts. -/
theorem exists_end_of_countdown (attached : m.output = some o) (accepts : o.AcceptsAll)
    (operand : UInt64) (compares : Bool) :
    ∃ last steps, steps = (3 + compares.toNat) * m.width.rounds operand.toNat + 2 ∧
      (∀ limit, steps ≤ limit →
        m.execute limit (.countdown operand compares) = .finished last (.ok ⟨steps, true⟩)) ∧
      (last.register .acc).toNat = 0 ∧ last.flags = m.flags.tested compares 0 ∧
      last.output =
        some (o.called (m.width.countdown (m.width.rounds operand.toNat))) := by
  have fits := Program.countdown_fits m.width operand compares
  have length := Program.length_countdown operand compares
  have some := m.width.rounds_pos operand.toNat
  have within := m.width.rounds_le operand.toNat
  have start : (m.loaded (.countdown operand compares)).Counts m.width
      (.countdown operand compares) o 0
      ((m.loaded (.countdown operand compares)).register .acc).toNat m.flags [] := by
    refine ⟨reaches_loaded fits (by omega), rfl, by rw [loaded_frame], ?_⟩
    rw [loaded_frame, OutputDevice.called]
    simpa using attached
  obtain ⟨first, loads, counts⟩ := start.next_of_load fits rfl (by omega) 0
  have stage : m.execute 1 (.countdown operand compares) = .running first 1 := by
    rw [execute_succ, execute, start_eq_running fits]
    exact loads
  have left : operand.toNat % m.width.modulus =
      (m.width.rounds operand.toNat - 1 + 1) % m.width.modulus := by
    rw [Nat.sub_add_cancel some, Width.rounds_mod]
  obtain ⟨last, steps, count, ended, acc, flags, output⟩ :=
    exists_end_of_rounds accepts (by omega) stage counts left
  rw [Nat.sub_add_cancel some] at count output
  exact ⟨last, steps, by omega, fun limit => execute_of_le ended, acc, flags, output⟩

end Loop

end Machine

end AccumulatorMachine
