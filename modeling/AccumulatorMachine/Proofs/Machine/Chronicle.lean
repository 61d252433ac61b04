import AccumulatorMachine.Proofs.Machine.Operation

/-! What a run tells of itself. The trace, the journal and the count of steps are written at
different places of the loop and of the step; they agree on which instructions were carried out,
in which order, and how the run ended. -/
namespace AccumulatorMachine

namespace Machine

/-- The operation that the cell at the program counter stands for. -/
def operation? (m : Machine) : Option Opcode :=
  Opcode.all.find? fun op => op.code.toNat = (m.read (m.register .pc)).toNat

/-- The two lines of the trace for the instruction at the program counter. -/
def fetchLines (m : Machine) : String :=
  let address := m.register .pc
  Text.ofLines [
    "Fetching instruction at address " ++ toString address.toNat,
    "Decoded: [OPCODE:" ++ (m.operation?.map Opcode.mnemonic).getD "UNKNOWN" ++ "(" ++
      Numeral.padded 2 8 (m.read address).toNat ++ "), OPERAND:" ++
      m.width.binary (m.read (address + 1)) ++ "]"]

/-- What is recorded of an operation when it has been decoded. -/
def decodedRecord (m : Machine) (op : Opcode) : LogRecord :=
  .decoded (m.register .pc) op (m.read (m.register .pc + 1))

/-- What is recorded of the instruction at the program counter if it succeeds. -/
def stepRecords (m : Machine) : List LogRecord :=
  match m.operation? with
  | some op =>
    m.decodedRecord op ::
      if op = .output ∧ m.output = none then [.noOutputDevice (m.register .acc)] else []
  | none => []

/-- The text that the trace has taken. -/
def traceText (m : Machine) : String :=
  (m.trace.map fun t => t.sink.text).getD ""

/-- The trace is not coloured, and nothing is refused. -/
def TracesAll (m : Machine) : Prop :=
  ∃ sink, m.trace = some ⟨sink, .plain⟩ ∧
    ∀ offered used piece, sink.admits offered used piece = true

/-- Between two machines the trace has taken a text and the journal some records. -/
structure Tells (m : Machine) (text : String) (records : List LogRecord) (m' : Machine) :
    Prop where
  tracesAll : m'.TracesAll
  trace : m'.traceText = m.traceText ++ text
  journal : m'.journal.toList = m.journal.toList ++ records

/-- What a step that fails tells. Nothing follows the lines of its instruction, and it is recorded
unless it is the decoding that fails. -/
inductive FailsAt (m m' : Machine) : MachineError → Prop
  /-- Storage ends with the cell of the instruction. -/
  | outOfStorage (full : (m.register .pc).toNat + 1 = 2 ^ 64) (tells : m.Tells "" [] m') :
      FailsAt m m' .addressOverflow
  | unknown (none : m.operation? = none) (tells : m.Tells m.fetchLines [] m') :
      FailsAt m m' (.invalidOpcode (m.read (m.register .pc)))
  | decoded (known : m.operation? = some op) (other : ∀ cell, e ≠ .invalidOpcode cell)
      (tells : m.Tells m.fetchLines [m.decodedRecord op] m') : FailsAt m m' e

/-- The machine of a run at the stage of a number. -/
def stage (m : Machine) (p : Program) (n : Nat) : Machine :=
  (m.execute n p).machine

/-- What the trace has of one step: the instruction as it is fetched, the state that is left, and
an empty line. -/
def stepText (m : Machine) (p : Program) (n : Nat) : String :=
  (m.stage p n).fetchLines ++ ((m.stage p (n + 1)).dump ++ "\n")

/-- The texts of so many steps, the first of them first. -/
def stepsText (m : Machine) (p : Program) (k : Nat) : String :=
  String.join ((List.range k).map (m.stepText p))

/-- The records of so many steps, the first of them first. -/
def stepsRecords (m : Machine) (p : Program) (k : Nat) : List LogRecord :=
  (List.range k).flatMap fun n => (m.stage p n).stepRecords

/-- The cell of the instruction that is fetched at the stage of a number. -/
def fetchedCell (m : Machine) (p : Program) (n : Nat) : UInt64 :=
  (m.stage p n).read ((m.stage p n).register .pc)

/-- A run makes so many steps that succeed, each of an instruction that is decoded. -/
structure Makes (m : Machine) (p : Program) (k : Nat) : Prop where
  steps : ∀ n < k, m.execute n p = .running (m.stage p n) n ∧
    ∃ m' flow address, (m.stage p n).step = (m', .ok (flow, address))
  decoded : (m.stepsRecords p k).countP (·.level = .trace) = k

/-- What a run has told, by how it stands: it goes on, it has ended, or it has failed at an
instruction that was decoded or at one that was not. -/
inductive Chronicle (m : Machine) (p : Program) : Execution → Prop
  | running (makes : m.Makes p k) (onwards : ∀ n < k, m.fetchedCell p n ≠ 0x33)
      (tells : m.Tells (m.stepsText p k) (m.stepsRecords p k) last) :
      Chronicle m p (.running last k)
  | ended (makes : m.Makes p k)
      (halts : halted = true ↔ ∃ n, k = n + 1 ∧ m.fetchedCell p n = 0x33)
      (tells : m.Tells (m.stepsText p k) (m.stepsRecords p k ++ [.finished k halted]) last) :
      Chronicle m p (.finished last (.ok ⟨k, halted⟩))
  | failed (makes : m.Makes p k) (reached : m.execute k p = .running (m.stage p k) k)
      (fails : (m.stage p k).step = (last, .error e)) (known : (m.stage p k).operation? = some op)
      (other : ∀ cell, e ≠ .invalidOpcode cell)
      (tells : m.Tells (m.stepsText p k ++ (m.stage p k).fetchLines)
        (m.stepsRecords p k ++ [(m.stage p k).decodedRecord op]) last) :
      Chronicle m p (.finished last (.error e))
  | unknown (makes : m.Makes p k) (reached : m.execute k p = .running (m.stage p k) k)
      (fails : (m.stage p k).step = (last, .error (.invalidOpcode cell)))
      (unknown : (m.stage p k).operation? = none)
      (tells : m.Tells (m.stepsText p k ++ (m.stage p k).fetchLines) (m.stepsRecords p k) last) :
      Chronicle m p (.finished last (.error (.invalidOpcode cell)))
  /-- Only a program that takes all cells there are can come to where storage ends. -/
  | outOfStorage (makes : m.Makes p k) (whole : 2 ^ 64 ≤ p.cellCount)
      (tells : m.Tells (m.stepsText p k) (m.stepsRecords p k) last) :
      Chronicle m p (.finished last (.error .addressOverflow))

variable {m m' m'' : Machine} {text text' : String} {records records' : List LogRecord}
  {op : Opcode} {cell operand : UInt64}

theorem Tells.trans (first : m.Tells text records m') (second : m'.Tells text' records' m'') :
    m.Tells (text ++ text') (records ++ records') m'' where
  tracesAll := second.tracesAll
  trace := by rw [second.trace, first.trace, String.append_assoc]
  journal := by rw [second.journal, first.journal, List.append_assoc]

/-- Records that are added to the journal alone. -/
theorem TracesAll.tells_records (all : m.TracesAll) (trace : m'.trace = m.trace)
    (journal : m'.journal.toList = m.journal.toList ++ records) : m.Tells "" records m' where
  tracesAll := by
    obtain ⟨sink, attached, admits⟩ := all
    exact ⟨sink, trace.trans attached, admits⟩
  trace := by
    rw [traceText, trace, String.append_empty]
    rfl
  journal

theorem TracesAll.tells_offerTrace (all : m.TracesAll) (text : Text.Style → String) :
    m.Tells (text .plain) [] (m.offerTrace text) := by
  obtain ⟨sink, attached, admits⟩ := all
  have offered : (m.offerTrace text).trace = some ⟨sink.offer (text .plain), .plain⟩ := by
    rw [offerTrace, attached]
    rfl
  refine ⟨⟨_, offered, ?_⟩, ?_, (List.append_nil _).symm⟩
  · intro offered used piece
    rw [Text.Sink.admits_offer]
    exact admits offered used piece
  · rw [traceText, offered, traceText, attached]
    exact (sink.text_offer _).trans (if_pos (admits _ _ _))

theorem trace_perform (m : Machine) (op : Opcode) (operand : UInt64) :
    (m.perform op operand).1.trace = m.trace := by
  cases op with
  | input =>
    simp only [perform, readInput]
    split
    · rfl
    · split
      · rfl
      · rfl
  | output =>
    simp only [perform, writeOutput]
    split
    · rfl
    · split
      · rfl
      · rfl
  | increment | decrement =>
    simp only [perform, bump]
    split
    · rfl
    · rfl
  | _ => rfl

/-- Nothing is recorded while an operation is carried out but the lack of an output device. -/
theorem journal_perform (m : Machine) (op : Opcode) (operand : UInt64) :
    (m.perform op operand).1.journal.toList = m.journal.toList ++
      if op = .output ∧ m.output = none then [.noOutputDevice (m.register .acc)] else [] := by
  cases op with
  | input =>
    simp only [perform, readInput]
    split
    · simp
    · split
      · simp [put]
      · simp
  | output =>
    simp only [perform, writeOutput]
    split
    · next none => simp [none, record]
    · next attached =>
      split
      · simp [attached]
      · simp [attached]
  | increment | decrement =>
    simp only [perform, bump]
    split
    · simp [put]
    · simp
  | _ => simp [perform, load, accumulate, compareWith, put, write]

theorem operation?_eq_some_iff :
    m.operation? = some op ↔ op.code.toNat = (m.read (m.register .pc)).toNat := by
  constructor
  · intro found
    simpa using List.find?_some found
  · intro same
    have found := Opcode.ofCode?_code op
    rw [Opcode.ofCode?] at found
    rw [operation?, ← found]
    congr 1
    funext other
    rw [← same, Bool.eq_iff_iff, beq_iff_eq, decide_eq_true_iff, UInt8.toNat_inj]

theorem operation?_eq_decode? (m : Machine) : m.operation? = decode? (m.read (m.register .pc)) := by
  ext op
  rw [operation?_eq_some_iff, decode?_eq_some_iff]

theorem fetch?_eq_some {address : UInt64} (fetched : m.fetch? address = some (cell, operand)) :
    cell = m.read address ∧ operand = m.read (address + 1) := by
  simp only [fetch?, cellAfter?] at fetched
  split at fetched
  · cases fetched
    exact ⟨rfl, rfl⟩
  · contradiction

theorem fetchText_plain (m : Machine) :
    fetchText m.width (m.register .pc) (m.read (m.register .pc)) (m.read (m.register .pc + 1))
      .plain = m.fetchLines := by
  rw [fetchText, fetchLines, operation?_eq_decode?]
  rfl

theorem tracedDump_plain (m : Machine) : m.tracedDump .plain = m.dump ++ "\n" := by
  have same : tracedLine .plain = id := by
    funext line
    rw [tracedLine]
    split
    · rfl
    · rfl
  rw [tracedDump, same, List.map_id, Text.ofLines, List.map_append, String.join_append]
  rfl

/-- An instruction that is fetched has its lines in the trace, and if it is decoded, its record. -/
theorem TracesAll.tells_fetched (all : m.TracesAll)
    (fetched : m.fetch? (m.register .pc) = some (cell, operand)) :
    m.Tells m.fetchLines [] (m.offerTrace (fetchText m.width (m.register .pc) cell operand)) := by
  obtain ⟨rfl, rfl⟩ := fetch?_eq_some fetched
  rw [← fetchText_plain]
  exact all.tells_offerTrace _

theorem TracesAll.tells_announced (all : m.TracesAll)
    (fetched : m.fetch? (m.register .pc) = some (cell, operand)) (op : Opcode) :
    m.Tells m.fetchLines [m.decodedRecord op] (m.announced cell operand op) := by
  have traced := all.tells_fetched fetched
  obtain ⟨rfl, rfl⟩ := fetch?_eq_some fetched
  have recorded : (m.offerTrace _).Tells "" [m.decodedRecord op] (m.announced _ _ op) :=
    traced.tracesAll.tells_records rfl Array.toList_push
  have told := traced.trans recorded
  rwa [String.append_empty] at told

/-- A step that succeeds tells the instruction that it carries out, and then the state that it
leaves. -/
theorem TracesAll.tells_step (all : m.TracesAll) {flow : Flow} {address : Nat}
    (step : m.step = (m', .ok (flow, address))) :
    m.Tells (m.fetchLines ++ (m'.dump ++ "\n")) m.stepRecords m'.dumped ∧
      ∃ op, m.operation? = some op ∧ (flow = .halt ↔ op = .halt) := by
  have steps := m.steps_step
  rw [step] at steps
  cases steps with
  | @done cell operand op m' flow fetched known done =>
    have operation : m.operation? = some op := by
      obtain ⟨rfl, _⟩ := fetch?_eq_some fetched
      rw [operation?_eq_decode?, known]
    have announced := all.tells_announced fetched op
    have trace := (m.announced cell operand op).trace_perform op operand
    have journal := (m.announced cell operand op).journal_perform op operand
    have sends := sends_perform done
    rw [done] at trace journal
    have performed : (m.announced cell operand op).Tells "" _
        (m'.put .pc (m'.successor flow)) := announced.tracesAll.tells_records trace journal
    have halts : flow = .halt ↔ op = .halt := by
      cases sends with
      | jump jumps =>
        have other : op ≠ .halt := by
          rintro rfl
          exact absurd jumps.mem_jumps (by decide)
        simp [other]
      | halt => simp
      | next _ other => simp [other]
    refine ⟨?_, op, operation, halts⟩
    have dumped := performed.tracesAll.tells_offerTrace (m'.put .pc (m'.successor flow)).tracedDump
    rw [tracedDump_plain] at dumped
    have told := (announced.trans performed).trans dumped
    rw [stepRecords, operation]
    rwa [String.append_empty, List.append_nil, List.singleton_append] at told

theorem TracesAll.failsAt_step (all : m.TracesAll) {e : MachineError}
    (failed : m.step = (m', .error e)) : m.FailsAt m' e := by
  cases failure_of_step_error failed with
  | outOfStorage none =>
    have full : (m.register .pc).toNat + 1 = UInt64.size :=
      cellAfter?_eq_none_iff.mp (Option.map_eq_none_iff.mp none)
    exact .outOfStorage full (all.tells_records rfl (List.append_nil _).symm)
  | @invalidOpcode cell operand fetched unknown =>
    have told := all.tells_fetched fetched
    obtain ⟨rfl, _⟩ := fetch?_eq_some fetched
    have none : m.operation? = none := by
      rw [Option.eq_none_iff_forall_ne_some]
      intro op known
      exact unknown op (operation?_eq_some_iff.mp known)
    exact .unknown none told
  | @obstacle cell operand op _ _ fetched known obstacle =>
    have announced := all.tells_announced fetched op
    have code : op.code.toNat = (m.read (m.register .pc)).toNat := by
      rw [known, (fetch?_eq_some fetched).1]
    have obstructed : (m.announced cell operand op).Tells "" [] m' := by
      cases obstacle with
      | noRegister | noInput | inputFault | outputFault =>
        exact announced.tracesAll.tells_records rfl (List.append_nil _).symm
    have told := announced.trans obstructed
    rw [String.append_empty, List.append_nil] at told
    refine .decoded (operation?_eq_some_iff.mpr code) ?_ told
    intro invalid same
    cases obstacle with
    | noRegister | noInput | inputFault | outputFault => contradiction

section Run

variable {p : Program} {k : Nat} {before : Machine}

theorem stepsText_succ (m : Machine) (p : Program) (k : Nat) :
    m.stepsText p (k + 1) = m.stepsText p k ++ m.stepText p k := by
  rw [stepsText, List.range_succ, List.map_append, String.join_append, List.map_singleton,
    String.join_cons, String.join_nil, String.append_empty]
  rfl

theorem stepsRecords_succ (m : Machine) (p : Program) (k : Nat) :
    m.stepsRecords p (k + 1) = m.stepsRecords p k ++ (m.stage p k).stepRecords := by
  rw [stepsRecords, List.range_succ, List.flatMap_append, List.flatMap_singleton]
  rfl

/-- One record of a step that succeeds is that of its decoding. -/
theorem countP_stepRecords (known : m.operation? = some op) :
    m.stepRecords.countP (·.level = .trace) = 1 := by
  rw [stepRecords, known]
  dsimp only
  split
  · rfl
  · rfl

theorem fetchedCell_eq_halt_iff (known : (m.stage p k).operation? = some op) :
    m.fetchedCell p k = 0x33 ↔ op = .halt := by
  have code := operation?_eq_some_iff.mp known
  rw [fetchedCell, ← UInt64.toNat_inj, ← code]
  constructor
  · intro same
    exact Opcode.code_injective (UInt8.toNat_inj.mp same)
  · rintro rfl
    rfl

/-- One more step that succeeds, up to what the loop does with it. -/
theorem Makes.step (makes : m.Makes p k) (reached : m.execute k p = .running before k)
    (tells : m.Tells (m.stepsText p k) (m.stepsRecords p k) before) {flow : Flow} {address : Nat}
    (step : before.step = (m', .ok (flow, address)))
    (left : (m.stage p (k + 1)).dump = m'.dump) :
    m.Makes p (k + 1) ∧ (flow = .halt ↔ m.fetchedCell p k = 0x33) ∧
      m.Tells (m.stepsText p (k + 1)) (m.stepsRecords p (k + 1)) m'.dumped := by
  obtain rfl : m.stage p k = before := by rw [stage, reached]; rfl
  obtain ⟨told, op, known, halts⟩ := tells.tracesAll.tells_step step
  refine ⟨⟨?_, ?_⟩, halts.trans (fetchedCell_eq_halt_iff known).symm, ?_⟩
  · intro n earlier
    obtain inside | rfl := Nat.lt_succ_iff_lt_or_eq.mp earlier
    · exact makes.steps n inside
    · exact ⟨reached, m', flow, address, step⟩
  · rw [stepsRecords_succ, List.countP_append, makes.decoded, countP_stepRecords known]
  · rw [stepsText_succ, stepsRecords_succ, stepText, left]
    exact tells.trans told

theorem Tells.record (tells : m.Tells text records m') (r : LogRecord) :
    m.Tells text (records ++ [r]) (m'.record r) := by
  have recorded : m'.Tells "" [r] (m'.record r) :=
    tells.tracesAll.tells_records rfl Array.toList_push
  have told := tells.trans recorded
  rwa [String.append_empty] at told

/-- Each stage adds to what has been told. -/
theorem chronicle_next (makes : m.Makes p k) (reached : m.execute k p = .running before k)
    (onwards : ∀ n < k, m.fetchedCell p n ≠ 0x33)
    (tells : m.Tells (m.stepsText p k) (m.stepsRecords p k) before) :
    m.Chronicle p ((Execution.running before k).next p.cellCount) := by
  have next : m.execute (k + 1) p = (Execution.running before k).next p.cellCount := by
    rw [execute_succ, reached]
  have here : m.stage p k = before := by
    rw [stage, reached]
    rfl
  have follows := Execution.follows_next p.cellCount before k
  generalize (Execution.running before k).next p.cellCount = e at next follows ⊢
  have arrives : m.stage p (k + 1) = e.machine := by rw [stage, next]
  cases follows with
  | outside outside =>
    refine .ended makes ?_ (tells.record _)
    have earlier : ¬∃ n, k = n + 1 ∧ m.fetchedCell p n = 0x33 := by
      rintro ⟨n, rfl, halt⟩
      exact onwards n (Nat.lt_succ_self n) halt
    simp [earlier]
  | failed inside step =>
    cases tells.tracesAll.failsAt_step step with
    | outOfStorage full told =>
      have whole := tells.trans told
      rw [String.append_empty, List.append_nil] at whole
      exact .outOfStorage makes (by omega) whole
    | unknown none told =>
      have whole := tells.trans told
      rw [List.append_nil] at whole
      subst here
      exact .unknown makes reached step none whole
    | decoded known other told =>
      subst here
      exact .failed makes reached step known other (tells.trans told)
  | halted inside step =>
    obtain ⟨makes, halts, told⟩ := makes.step reached tells step (by rw [arrives]; rfl)
    refine .ended makes ?_ (told.record _)
    simp [← halts]
  | left inside step goes past =>
    obtain ⟨makes, halts, told⟩ := makes.step reached tells step (by rw [arrives]; rfl)
    refine .ended makes ?_ (told.record _)
    simp [← halts, goes]
  | goesOn inside step goes within =>
    obtain ⟨makes, halts, told⟩ := makes.step reached tells step (by rw [arrives]; rfl)
    refine .running makes ?_ told
    intro n earlier
    obtain inside | rfl := Nat.lt_succ_iff_lt_or_eq.mp earlier
    · exact onwards n inside
    · exact fun halt => goes (halts.mpr halt)

/-- With a trace that is not coloured and refuses nothing, the trace, the journal and the count of
steps of a run that is not refused agree at every stage: each step that has succeeded has its lines,
the state that it left and its record, in the order of the steps, and an instruction that failed has
its lines alone, and its record if it was decoded; a run that has ended, and no other, is recorded
with the number of its steps and whether the last of them was one that halts. -/
theorem execute_chronicle (fits : 2 * p.length ≤ 2 ^ m.width.bits) {sink : Text.Sink}
    (traced : m.trace = some ⟨sink, .plain⟩)
    (unlimited : ∀ offered used piece, sink.admits offered used piece = true) (limit : Nat) :
    m.Chronicle p (m.execute limit p) := by
  have room : p.cellCount ≤ m.width.modulus := by
    rw [Program.cellCount, cellsPerInstruction, Nat.mul_comm]
    exact fits
  induction limit with
  | zero =>
    have all : m.TracesAll := ⟨sink, traced, unlimited⟩
    have told : m.Tells "" [] (m.loaded p) := by
      rw [loaded_frame]
      exact all.tells_records rfl (List.append_nil _).symm
    have started : m.execute 0 p = .running (m.loaded p) 0 := start_eq_running room
    rw [started]
    refine .running ⟨?_, rfl⟩ ?_ told
    · intro n earlier
      contradiction
    · intro n earlier
      contradiction
  | succ limit ih =>
    rw [execute_succ]
    cases reached : m.execute limit p with
    | finished last result =>
      rw [reached] at ih
      exact ih
    | running before k =>
      have counted := execute_eq_running (m := m) (p := p) (k := limit) (by rw [reached]; rfl)
      rw [reached] at counted ih
      obtain rfl : k = limit := by cases counted; rfl
      cases ih with
      | running makes onwards tells => exact chronicle_next makes reached onwards tells

/-- On a machine of 8 bits without an output device: a word that is put out, and a register that
does not exist, and the same word and a halt. -/
theorem execute_chronicle_of_missing_register :
    let m : Machine :=
      { width := ⟨8, by decide, by decide⟩, registers := { acc := 7 },
        trace := some ⟨.unlimited, .plain⟩ }
    let p : Program := [⟨0x11, 0⟩, ⟨0x24, 9⟩]
    let q : Program := [⟨0x11, 0⟩, ⟨0x33, 0⟩]
    2 * p.length ≤ 2 ^ m.width.bits ∧ 2 * q.length ≤ 2 ^ m.width.bits ∧
      (∀ offered used piece, Text.Sink.unlimited.admits offered used piece = true) ∧
      m.Chronicle p (m.execute 2 p) ∧ m.Chronicle q (m.execute 2 q) ∧
      (m.execute 2 p).result? = some (.error (.invalidRegister 9)) ∧
      (m.execute 2 p).machine.journal =
        #[.decoded 0 .output 0, .noOutputDevice 7, .decoded 2 .increment 9] ∧
      (m.execute 2 q).machine.journal =
        #[.decoded 0 .output 0, .noOutputDevice 7, .decoded 2 .halt 0, .finished 2 true] := by
  intro m p q
  have fits : 2 * p.length ≤ 2 ^ m.width.bits := by decide
  have fits' : 2 * q.length ≤ 2 ^ m.width.bits := by decide
  exact ⟨fits, fits', fun _ _ _ => rfl, execute_chronicle fits rfl (fun _ _ _ => rfl) 2,
    execute_chronicle fits' rfl (fun _ _ _ => rfl) 2, by decide, by decide, by decide⟩

end Run

end Machine

end AccumulatorMachine
