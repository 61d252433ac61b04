import AccumulatorMachine.Proofs.Machine.Stage
import Mathlib.Data.List.Induction

/-! Programs that put out each word that they have read. A word that the input device answers is
put out before the next is read, so that the devices stand at the same word whenever a pair of
instructions is done, and a failure leaves them one call apart at most. -/
namespace AccumulatorMachine

/-- So many times an instruction that reads and one that puts out, and then one that halts. -/
inductive Program.Echo : Nat → Program → Prop
  | halt (code : i.opcode = Opcode.halt.code) : Echo 0 [i]
  | pair (read : i.opcode = Opcode.input.code) (write : j.opcode = Opcode.output.code)
      (rest : Echo pairs p) : Echo (pairs + 1) (i :: j :: p)

namespace Program.Echo

variable {pairs n : Nat} {p : Program}

theorem length (echo : Echo pairs p) : p.length = 2 * pairs + 1 := by
  induction echo with
  | halt code => rfl
  | pair read write rest ih =>
    rw [List.length_cons, List.length_cons, ih]
    omega

theorem reads (echo : Echo pairs p) (inside : n < pairs) :
    ∃ i, p[2 * n]? = some i ∧ i.opcode = Opcode.input.code := by
  induction echo generalizing n with
  | halt code => omega
  | pair read write rest ih =>
    cases n with
    | zero => exact ⟨_, rfl, read⟩
    | succ n => exact ih (by omega)

theorem writes (echo : Echo pairs p) (inside : n < pairs) :
    ∃ i, p[2 * n + 1]? = some i ∧ i.opcode = Opcode.output.code := by
  induction echo generalizing n with
  | halt code => omega
  | pair read write rest ih =>
    cases n with
    | zero => exact ⟨_, rfl, write⟩
    | succ n => exact ih (by omega)

theorem halts (echo : Echo pairs p) :
    ∃ i, p[2 * pairs]? = some i ∧ i.opcode = Opcode.halt.code := by
  induction echo with
  | halt code => exact ⟨_, rfl, code⟩
  | pair read write rest ih => exact ih

end Program.Echo

/-- Words that an input device answers one after the other, narrowed, and that an output device
takes in the same order. -/
structure Relayed (w : Width) (d : InputDevice) (o : OutputDevice) (words : List UInt64) :
    Prop where
  answered : ∀ n word, words[n]? = some word →
    ∃ read, d.answer (d.reads + n) = .ok read ∧ word.toNat = read.toNat % w.modulus
  accepted : ∀ n word, words[n]? = some word →
    o.reply (o.calls ++ (words.take n).toArray) word = .ok ()

/-- What comes of so many pairs: the words that are relayed, how often the one device is read, the
words that the other is called with, and the result. -/
inductive Relays (w : Width) (d : InputDevice) (o : OutputDevice) (pairs : Nat) :
    List UInt64 → Nat → List UInt64 → Except MachineError RunSummary → Prop
  | done (relayed : Relayed w d o words) (all : words.length = pairs) :
      Relays w d o pairs words pairs words (.ok ⟨2 * pairs + 1, true⟩)
  | readFails (relayed : Relayed w d o words) (more : words.length < pairs)
      (fails : d.answer (d.reads + words.length) = .error fault) :
      Relays w d o pairs words (words.length + 1) words (.error (.device fault))
  | writeFails {read word : UInt64} (relayed : Relayed w d o words) (more : words.length < pairs)
      (answer : d.answer (d.reads + words.length) = .ok read)
      (narrowed : word.toNat = read.toNat % w.modulus)
      (fails : o.reply (o.calls ++ words.toArray) word = .error fault) :
      Relays w d o pairs words (words.length + 1) (words ++ [word]) (.error (.device fault))

section Relaying

variable {w : Width} {d : InputDevice} {o : OutputDevice} {words : List UInt64} {word : UInt64}

theorem relayed_nil (w : Width) (d : InputDevice) (o : OutputDevice) : Relayed w d o [] where
  answered _ _ found := by cases found
  accepted _ _ found := by cases found

/-- One more word is relayed if both devices go on from where the others have left them. -/
theorem relayed_append_singleton_iff : Relayed w d o (words ++ [word]) ↔ Relayed w d o words ∧
    (∃ read, d.answer (d.reads + words.length) = .ok read ∧
      word.toNat = read.toNat % w.modulus) ∧
    o.reply (o.calls ++ words.toArray) word = .ok () := by
  constructor
  · rintro ⟨answered, accepted⟩
    refine ⟨⟨?_, ?_⟩, answered _ _ List.getElem?_concat_length, ?_⟩
    · intro n earlier found
      have inside := (List.getElem?_eq_some_iff.mp found).1
      exact answered n earlier (by rwa [List.getElem?_append_left inside])
    · intro n earlier found
      have inside := (List.getElem?_eq_some_iff.mp found).1
      have reply := accepted n earlier (by rwa [List.getElem?_append_left inside])
      rwa [List.take_append_of_le_length (Nat.le_of_lt inside)] at reply
    · have reply := accepted _ _ List.getElem?_concat_length
      rwa [List.take_left] at reply
  · rintro ⟨⟨answered, accepted⟩, answer, reply⟩
    have split : ∀ n found, (words ++ [word])[n]? = some found →
        words[n]? = some found ∧ n < words.length ∨ n = words.length ∧ found = word := by
      intro n found listed
      by_cases inside : n < words.length
      · rw [List.getElem?_append_left inside] at listed
        exact .inl ⟨listed, inside⟩
      · have last := (List.getElem?_eq_some_iff.mp listed).1
        rw [List.length_append, List.length_singleton] at last
        obtain rfl : n = words.length := by omega
        rw [List.getElem?_concat_length] at listed
        exact .inr ⟨rfl, (Option.some.inj listed).symm⟩
    constructor
    · intro n found listed
      obtain ⟨earlier, _⟩ | ⟨rfl, rfl⟩ := split n found listed
      · exact answered n found earlier
      · exact answer
    · intro n found listed
      obtain ⟨earlier, inside⟩ | ⟨rfl, rfl⟩ := split n found listed
      · rw [List.take_append_of_le_length (Nat.le_of_lt inside)]
        exact accepted n found earlier
      · rwa [List.take_left]

/-- An output device after further calls. -/
def OutputDevice.called (o : OutputDevice) (words : List UInt64) : OutputDevice :=
  { o with calls := o.calls ++ words.toArray }

theorem OutputDevice.called_append_singleton (o : OutputDevice) (words : List UInt64)
    (word : UInt64) : o.called (words ++ [word]) = (o.called words).write word := by
  simp [called, write]

/-- The words that are relayed are those that the output device takes. -/
theorem Relayed.taken_called (relayed : Relayed w d o words) :
    (o.called words).taken = o.taken ++ words := by
  induction words using List.reverseRecOn with
  | nil => simp [OutputDevice.called]
  | append_singleton words word ih =>
    obtain ⟨earlier, _, reply⟩ := relayed_append_singleton_iff.mp relayed
    have accepts : (o.called words).next word = .ok () := reply
    rw [o.called_append_singleton, OutputDevice.taken_write, accepts, ih earlier,
      List.append_assoc]
    rfl

/-- What is relayed has been taken also if the last call was refused. -/
theorem Relays.taken_called {pairs reads : Nat} {calls : List UInt64}
    {result : Except MachineError RunSummary}
    (relays : Relays w d o pairs words reads calls result) :
    (o.called calls).taken = o.taken ++ words := by
  cases relays with
  | done relayed | readFails relayed => exact relayed.taken_called
  | writeFails relayed _ _ _ fails =>
    have refused : (o.called words).next _ = .error _ := fails
    rw [o.called_append_singleton, OutputDevice.taken_write, refused, relayed.taken_called]
    exact List.append_nil _

/-- Something comes of every number of pairs. -/
theorem exists_relays (w : Width) (d : InputDevice) (o : OutputDevice) (pairs : Nat) :
    ∃ words reads calls result, Relays w d o pairs words reads calls result := by
  induction pairs with
  | zero => exact ⟨_, _, _, _, .done (relayed_nil w d o) rfl⟩
  | succ pairs ih =>
    obtain ⟨words, reads, calls, result, relays⟩ := ih
    cases relays with
    | readFails relayed more fails => exact ⟨_, _, _, _, .readFails relayed (by omega) fails⟩
    | writeFails relayed more answer narrowed fails =>
      exact ⟨_, _, _, _, .writeFails relayed (by omega) answer narrowed fails⟩
    | done relayed all =>
      cases answer : d.answer (d.reads + words.length) with
      | error fault => exact ⟨_, _, _, _, .readFails relayed (by omega) answer⟩
      | ok read =>
        have narrowed := w.toNat_truncate_natCast read.toNat
        cases reply : o.reply (o.calls ++ words.toArray) (w.truncate read.toNat) with
        | error fault => exact ⟨_, _, _, _, .writeFails relayed (by omega) answer narrowed reply⟩
        | ok =>
          have further := relayed_append_singleton_iff.mpr ⟨relayed, ⟨_, answer, narrowed⟩, reply⟩
          exact ⟨_, _, _, _, .done further (by rw [List.length_append, all]; rfl)⟩

end Relaying

namespace Machine

open Execution

/-- A machine at the instruction of a number, after so many reads and these calls. -/
structure Stands (w : Width) (p : Program) (d : InputDevice) (o : OutputDevice) (n reads : Nat)
    (calls : List UInt64) (m : Machine) : Prop where
  reaches : m.Reaches w p n
  input : m.input = some { d with reads := d.reads + reads }
  output : m.output = some (o.called calls)

variable {w : Width} {p : Program} {d : InputDevice} {o : OutputDevice} {pairs steps n reads : Nat}
  {words calls : List UInt64} {read word : UInt64} {m : Machine} {i : Instruction}

/-- A read that succeeds leaves its word in the accumulator. -/
theorem Stands.next_of_read (fits : p.cellCount ≤ w.modulus)
    (stands : m.Stands w p d o n reads calls) (listed : p[n]? = some i)
    (code : i.opcode = Opcode.input.code) (further : n + 1 < p.length)
    (answer : d.answer (d.reads + reads) = .ok read) (steps : Nat) :
    ∃ after, next p.cellCount (.running m steps) = .running after (steps + 1) ∧
      after.Stands w p d o (n + 1) (reads + 1) calls ∧
      (after.register .acc).toNat = read.toNat % w.modulus := by
  obtain ⟨reaches, input, output⟩ := stands
  have attached : (m.about i .input).input = some { d with reads := d.reads + reads } := input
  have done := perform_input attached answer (m.width.truncate i.operand.toNat)
  obtain ⟨after, onwards, reaches', moves⟩ :=
    (reaches.onwards fits listed code done (by decide) (by simp [Opcode.stored?])
      steps).exists_running further
  refine ⟨after, onwards, ⟨reaches', moves.input, moves.output.trans output⟩, ?_⟩
  have width : (m.about i .input).width = w := reaches.width
  rw [moves.registers .acc (by decide), register_put, if_pos rfl, Width.toNat_truncate_natCast,
    width]

theorem Stands.next_of_read_fault {fault : DeviceFault} (stands : m.Stands w p d o n reads calls)
    (listed : p[n]? = some i) (code : i.opcode = Opcode.input.code)
    (answer : d.answer (d.reads + reads) = .error fault) (steps : Nat) :
    ∃ last, next p.cellCount (.running m steps) = .finished last (.error (.device fault)) ∧
      last.input = some { d with reads := d.reads + (reads + 1) } ∧
      last.output = some (o.called calls) := by
  obtain ⟨reaches, input, output⟩ := stands
  have attached : (m.about i .input).input = some { d with reads := d.reads + reads } := input
  have failed := perform_input_fault attached answer (m.width.truncate i.operand.toNat)
  exact ⟨_, reaches.next_of_failed listed code failed steps, rfl, output⟩

/-- A call that succeeds is made with the word in the accumulator. -/
theorem Stands.next_of_write (fits : p.cellCount ≤ w.modulus)
    (stands : m.Stands w p d o n reads calls) (listed : p[n]? = some i)
    (code : i.opcode = Opcode.output.code) (further : n + 1 < p.length)
    (reply : o.reply (o.calls ++ calls.toArray) (m.register .acc) = .ok ()) (steps : Nat) :
    ∃ after, next p.cellCount (.running m steps) = .running after (steps + 1) ∧
      after.Stands w p d o (n + 1) reads (calls ++ [m.register .acc]) := by
  obtain ⟨reaches, input, output⟩ := stands
  have attached : (m.about i .output).output = some (o.called calls) := output
  have done := perform_output attached reply (m.width.truncate i.operand.toNat)
  obtain ⟨after, onwards, reaches', moves⟩ :=
    (reaches.onwards fits listed code done (by decide) (by simp [Opcode.stored?])
      steps).exists_running further
  refine ⟨after, onwards, ⟨reaches', moves.input.trans input, moves.output.trans ?_⟩⟩
  rw [o.called_append_singleton]
  rfl

theorem Stands.next_of_write_fault {fault : DeviceFault} (stands : m.Stands w p d o n reads calls)
    (listed : p[n]? = some i) (code : i.opcode = Opcode.output.code)
    (reply : o.reply (o.calls ++ calls.toArray) (m.register .acc) = .error fault) (steps : Nat) :
    ∃ last, next p.cellCount (.running m steps) = .finished last (.error (.device fault)) ∧
      last.input = some { d with reads := d.reads + reads } ∧
      last.output = some (o.called (calls ++ [m.register .acc])) := by
  obtain ⟨reaches, input, output⟩ := stands
  have attached : (m.about i .output).output = some (o.called calls) := output
  have failed := perform_output_fault attached reply (m.width.truncate i.operand.toNat)
  rw [o.called_append_singleton]
  exact ⟨_, reaches.next_of_failed listed code failed steps, input, rfl⟩

/-- After each word that is relayed the run stands at the next pair. -/
theorem exists_stage_of_relayed (echo : p.Echo pairs) (fits : p.cellCount ≤ m.width.modulus)
    (attached : m.input = some d) (attached' : m.output = some o)
    (relayed : Relayed m.width d o words) (few : words.length ≤ pairs) :
    ∃ before, m.execute (2 * words.length) p = .running before (2 * words.length) ∧
      before.Stands m.width p d o (2 * words.length) words.length words := by
  have length := echo.length
  -- The last word goes through the last pair, so it is the one to take off.
  induction words using List.reverseRecOn with
  | nil =>
    refine ⟨m.loaded p, ?_, reaches_loaded fits (by omega), ?_, ?_⟩
    · rw [List.length_nil, execute, start_eq_running fits]
      rfl
    · rw [loaded_frame]
      exact attached
    · rw [loaded_frame]
      simpa [OutputDevice.called] using attached'
  | append_singleton words word ih =>
    obtain ⟨earlier, ⟨read, answer, narrowed⟩, reply⟩ := relayed_append_singleton_iff.mp relayed
    rw [List.length_append, List.length_singleton] at few ⊢
    obtain ⟨before, stage, stands⟩ := ih earlier (by omega)
    obtain ⟨i, listed, code⟩ := echo.reads (n := words.length) (by omega)
    obtain ⟨j, listed', code'⟩ := echo.writes (n := words.length) (by omega)
    obtain ⟨between, first, stands', acc⟩ :=
      stands.next_of_read fits listed code (by omega) answer (2 * words.length)
    obtain rfl : between.register .acc = word := UInt64.toNat_inj.mp (acc.trans narrowed.symm)
    obtain ⟨after, second, stands''⟩ :=
      stands'.next_of_write fits listed' code' (by omega) reply (2 * words.length + 1)
    refine ⟨after, ?_, stands''⟩
    rw [Nat.mul_add, Nat.mul_one, execute_succ, execute_succ, stage, first, second]

/-- What comes of the pairs is what the run ends with, after at most a stage for each
instruction. -/
theorem exists_end_of_relays {result : Except MachineError RunSummary} (echo : p.Echo pairs)
    (fits : p.cellCount ≤ m.width.modulus) (attached : m.input = some d)
    (attached' : m.output = some o) (relays : Relays m.width d o pairs words reads calls result) :
    ∃ k last, k ≤ 2 * pairs + 1 ∧ m.execute k p = .finished last result ∧
      last.input = some { d with reads := d.reads + reads } ∧
      last.output = some (o.called calls) := by
  have length := echo.length
  cases relays with
  | done relayed all =>
    obtain ⟨before, stage, stands⟩ :=
      exists_stage_of_relayed echo fits attached attached' relayed (Nat.le_of_eq all)
    obtain ⟨i, listed, code⟩ := echo.halts
    rw [all] at stage stands
    obtain ⟨last, ended, moves⟩ := stands.reaches.next_of_halt listed code (2 * pairs)
    refine ⟨2 * pairs + 1, last, Nat.le_refl _, ?_, moves.input.trans stands.input,
      moves.output.trans stands.output⟩
    rw [execute_succ, stage, ended]
  | readFails relayed more fails =>
    obtain ⟨before, stage, stands⟩ :=
      exists_stage_of_relayed echo fits attached attached' relayed (Nat.le_of_lt more)
    obtain ⟨i, listed, code⟩ := echo.reads more
    obtain ⟨last, ended, input, output⟩ :=
      stands.next_of_read_fault listed code fails (2 * words.length)
    refine ⟨2 * words.length + 1, last, by omega, ?_, input, output⟩
    rw [execute_succ, stage, ended]
  | @writeFails fault read word relayed more answer narrowed fails =>
    obtain ⟨before, stage, stands⟩ :=
      exists_stage_of_relayed echo fits attached attached' relayed (Nat.le_of_lt more)
    obtain ⟨i, listed, code⟩ := echo.reads more
    obtain ⟨j, listed', code'⟩ := echo.writes more
    obtain ⟨between, first, stands', acc⟩ :=
      stands.next_of_read fits listed code (by omega) answer (2 * words.length)
    obtain rfl : between.register .acc = word := UInt64.toNat_inj.mp (acc.trans narrowed.symm)
    obtain ⟨last, ended, input, output⟩ :=
      stands'.next_of_write_fault listed' code' fails (2 * words.length + 1)
    refine ⟨2 * words.length + 1 + 1, last, by omega, ?_, input, output⟩
    rw [execute_succ, execute_succ, stage, first, ended]

/-- The words of a program that puts out what it reads are neither lost nor repeated nor put in
another order. Something always comes of its pairs, and the run ends with it: after a step for
each instruction if no call fails, or else with the fault of the first call that does, which is
the last call that is made to a device. -/
theorem execute_echo (echo : p.Echo pairs) (fits : 2 * (2 * pairs + 1) ≤ 2 ^ m.width.bits)
    (attached : m.input = some d) (attached' : m.output = some o) :
    (∃ words reads calls result, Relays m.width d o pairs words reads calls result) ∧
      ∀ words reads calls result, Relays m.width d o pairs words reads calls result →
        ∃ last,
          (∀ limit, 2 * pairs + 1 ≤ limit → m.execute limit p = .finished last result) ∧
          last.input = some { d with reads := d.reads + reads } ∧
          last.output = some { o with calls := o.calls ++ calls.toArray } ∧
          last.taken = m.taken ++ words := by
  have room : p.cellCount ≤ m.width.modulus := by
    rw [Program.cellCount, cellsPerInstruction, echo.length, Nat.mul_comm]
    exact fits
  refine ⟨exists_relays m.width d o pairs, ?_⟩
  intro words reads calls result relays
  obtain ⟨k, last, early, ended, input, output⟩ :=
    exists_end_of_relays echo room attached attached' relays
  refine ⟨last, fun limit long => execute_of_le ended (Nat.le_trans early long), input, output, ?_⟩
  rw [taken, output, taken, attached']
  exact relays.taken_called

/-- On a machine of 8 bits, two pairs of which the second finds the recorder full. -/
theorem execute_echo_of_full_recorder :
    let d := InputDevice.ofQueue [.ok 300, .ok 7, .ok 8]
    let o := OutputDevice.recorder (some 1)
    let m : Machine :=
      { width := ⟨8, by decide, by decide⟩, input := some d, output := some o }
    let p : Program := [⟨0x10, 0⟩, ⟨0x11, 0⟩, ⟨0x10, 0⟩, ⟨0x11, 0⟩, ⟨0x33, 0⟩]
    p.Echo 2 ∧ 2 * (2 * 2 + 1) ≤ 2 ^ m.width.bits ∧ m.input = some d ∧ m.output = some o ∧
      Relays m.width d o 2 [44] 2 [44, 7] (.error (.device .recorderFull)) ∧
      ∃ last,
        (∀ limit, 5 ≤ limit →
          m.execute limit p = .finished last (.error (.device .recorderFull))) ∧
        last.input = some { d with reads := 2 } ∧
        last.output = some { o with calls := #[44, 7] } ∧ last.taken = [44] := by
  intro d o m p
  have echo : p.Echo 2 := .pair rfl rfl (.pair rfl rfl (.halt rfl))
  have fits : 2 * (2 * 2 + 1) ≤ 2 ^ m.width.bits := by decide
  have relayed : Relayed m.width d o ([] ++ [44]) :=
    relayed_append_singleton_iff.mpr ⟨relayed_nil _ _ _, ⟨300, rfl, by decide⟩, rfl⟩
  have narrowed : (7 : UInt64).toNat = (7 : UInt64).toNat % m.width.modulus := by decide
  have relays : Relays m.width d o 2 [44] 2 [44, 7] (.error (.device .recorderFull)) :=
    .writeFails relayed (by decide) rfl narrowed rfl
  obtain ⟨last, ended, input, output, taken⟩ :=
    (execute_echo echo fits (d := d) (o := o) rfl rfl).2 _ _ _ _ relays
  exact ⟨echo, fits, rfl, rfl, relays, last, ended, input, output, taken⟩

end Machine

end AccumulatorMachine
