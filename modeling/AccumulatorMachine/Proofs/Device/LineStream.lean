import AccumulatorMachine.Proofs.Device.LineGrammar
import AccumulatorMachine.Proofs.Machine.DeviceUse

/-! Reading a stream line by line. The line of a read is said by taking lines from the front of the
stream, one for each read, whatever the reads before came to. What a read gives, and what an input
instruction makes of it, hangs on that line alone. -/
namespace AccumulatorMachine

namespace LineReader

/-- The lines that reads take from the front of a stream, and the bytes that they leave. A line
reaches to the next newline, which belongs to it, or to the end of the stream. -/
inductive Takes : List UInt8 → List (List UInt8) → List UInt8 → Prop
  | none : Takes stream [] stream
  | line (inside : 0x0A ∉ body) (others : Takes rest further left) :
      Takes (body ++ 0x0A :: rest) ((body ++ [0x0A]) :: further) left
  | last (inside : 0x0A ∉ body) (others : Takes [] further left) :
      Takes body (body :: further) left

variable {stream left : List UInt8} {taken : List (List UInt8)}

/-- No byte is lost or repeated. -/
theorem Takes.flatten (takes : Takes stream taken left) : stream = taken.flatten ++ left := by
  induction takes with
  | none => rfl
  | line inside others ih => simp [ih]
  | last inside others ih => rw [List.flatten_cons, List.append_assoc, ← ih, List.append_nil]

/-- Any number of reads finds its lines. Past the end of the stream they are empty. -/
theorem exists_takes (stream : List UInt8) (k : Nat) :
    ∃ taken left, Takes stream taken left ∧ taken.length = k := by
  induction k generalizing stream with
  | zero => exact ⟨[], stream, .none, rfl⟩
  | succ k ih =>
    by_cases newline : 0x0A ∈ stream
    · obtain ⟨body, rest, rfl, inside⟩ := List.eq_append_cons_of_mem newline
      obtain ⟨lines, left, others, rfl⟩ := ih rest
      exact ⟨_, left, .line inside others, rfl⟩
    · obtain ⟨lines, left, others, rfl⟩ := ih []
      exact ⟨_, left, .last newline others, rfl⟩

theorem lines_append_newline {body : List UInt8} (inside : 0x0A ∉ body) (rest : List UInt8) :
    lines (body ++ 0x0A :: rest) = (body ++ [0x0A]) :: lines rest := by
  apply Text.segments_append_cons
  · intro byte member
    rw [beq_eq_false_iff_ne]
    rintro rfl
    exact inside member
  · rfl

/-- Without a newline the whole stream is its one line, or there is none. -/
theorem getD_lines_of_notMem {body : List UInt8} (inside : 0x0A ∉ body) (i : Nat) :
    (lines body)[i]?.getD [] = if i = 0 then body else [] := by
  by_cases some : body = []
  · subst some
    rw [ite_self]
    rfl
  · have single : lines body = [body] := by
      apply Text.segments_of_forall some
      intro byte member
      rw [beq_eq_false_iff_ne]
      rintro rfl
      exact inside member
    rw [single]
    cases i with
    | zero => rfl
    | succ i => rfl

/-- The line of a read is the segment of its number, or empty if there is none. -/
theorem Takes.getD_lines (takes : Takes stream taken left) {i : Nat} {line : List UInt8}
    (found : taken[i]? = some line) : (lines stream)[i]?.getD [] = line := by
  induction takes generalizing i with
  | none => cases found
  | line inside others ih =>
    rw [lines_append_newline inside]
    cases i with
    | zero =>
      cases found
      rfl
    | succ i => exact ih found
  | last inside others ih =>
    -- After the last line the reads find none, as those of the empty stream do.
    rw [getD_lines_of_notMem inside]
    cases i with
    | zero =>
      cases found
      rfl
    | succ i =>
      rw [← ih found, if_neg (Nat.succ_ne_zero i)]
      rfl

theorem Takes.unique {left' : List UInt8} {taken' : List (List UInt8)}
    (takes : Takes stream taken left) (takes' : Takes stream taken' left')
    (same : taken'.length = taken.length) : taken' = taken ∧ left' = left := by
  have lines : taken' = taken := by
    apply List.ext_getElem same
    intro i inside inside'
    rw [← takes.getD_lines (List.getElem?_eq_getElem inside'),
      takes'.getD_lines (List.getElem?_eq_getElem inside)]
  subst lines
  have bytes := takes.flatten
  rw [takes'.flatten] at bytes
  exact ⟨rfl, List.append_cancel_left bytes⟩

theorem answer_ofStream (stream : List UInt8) (call : Nat) :
    (ofStream stream).answer call = word ((lines stream)[call]?.getD []) := by
  simp only [ofStream, ofLines, List.getElem?_toArray]

theorem Takes.answer (takes : Takes stream taken left) {i : Nat} {line : List UInt8}
    (found : taken[i]? = some line) : (ofStream stream).answer i = word line := by
  rw [answer_ofStream, takes.getD_lines found]

/-- Texts that are written each on a line of its own are taken one by one. -/
theorem takes_encode {texts : List (List Char)} (inside : ∀ text ∈ texts, '\n' ∉ text) :
    Takes (texts.flatMap fun text => Text.Utf8.encode (text ++ ['\n']))
      (texts.map fun text => Text.Utf8.encode (text ++ ['\n'])) [] := by
  induction texts with
  | nil => exact .none
  | cons text rest ih =>
    obtain ⟨first, others⟩ := List.forall_mem_cons.mp inside
    rw [List.flatMap_cons, List.map_cons, Text.Utf8.encode_append, Text.Utf8.encode_newline,
      List.append_assoc]
    exact .line (Text.Utf8.newline_notMem_encode first) (ih others)

end LineReader

namespace Machine

open LineReader (Writes LineReads)

/-- What an input instruction makes of a line on a machine of a width: the number on it, narrowed,
or a failure that tells what there is to tell about the line. -/
structure Inputs (w : Width) (line : List UInt8) (m : Machine) : Prop where
  number : ∀ text core z, Text.Utf8.encode text = line → Text.Trimmed text core → Writes core z →
    ∃ after outcome, m.step = (after, .ok outcome) ∧
      ((after.register .acc).toNat : Int) = z % 2 ^ w.bits
  fault : ∀ told, LineReads line (.error told) →
    ∃ after fault, m.step = (after, .error (.device fault)) ∧ fault.message = told

theorem inputs_of_answer {m : Machine} {d : InputDevice} {line : List UInt8}
    (fetched : m.fetched? = some .input) (attached : m.input = some d)
    (answer : d.next = LineReader.word line) : m.Inputs m.width line where
  number text core z encodes trimmed writes := by
    obtain ⟨⟨before, after, rfl, blank, blank'⟩, _, _⟩ := trimmed
    rw [← encodes, writes.word_eq blank blank'] at answer
    obtain ⟨after, outcome, step, acc⟩ := step_of_input fetched attached answer
    refine ⟨after, outcome, step, ?_⟩
    have divides : (m.width.modulus : Int) ∣ 2 ^ 64 := by
      exact_mod_cast Nat.pow_dvd_pow 2 m.width.bits_le_max
    rw [acc, m.width.toNat_truncate, toNat_ofInt, Int.emod_emod_of_dvd z divides,
      m.width.modulus_eq, Nat.cast_pow]
    rfl
  fault told reads := by
    have result := LineReader.word_eq_iff.mpr reads
    cases word : LineReader.word line with
    | ok word =>
      rw [word] at result
      cases result
    | error fault =>
      rw [word] at result answer
      cases result
      obtain ⟨after, step⟩ := step_of_input_fault fetched attached answer
      exact ⟨after, fault, step, rfl⟩

/-- For any number of reads from a stream there are the lines that they take from its front and
nothing else decides what each read gives. The input instructions of a run take them in their
order, from where the calls before have come to, and the device stands behind the last of them
also if it was a failure. -/
theorem execute_reads_lines {m : Machine} {stream : List UInt8} {first : Nat}
    (attached : m.input = some { LineReader.ofStream stream with reads := first })
    (p : Program) (limit k : Nat) :
    ∃ taken left, LineReader.Takes stream taken left ∧ taken.length = k ∧
      stream = taken.flatten ++ left ∧
      (∀ taken' left', LineReader.Takes stream taken' left' → taken'.length = k →
        taken' = taken ∧ left' = left) ∧
      (∀ i line, taken[i]? = some line → ∀ result,
        ((LineReader.ofStream stream).answer i).mapError DeviceFault.message = result ↔
          LineReads line result) ∧
      (∀ i before line, (m.fetchesOf .input limit p)[i]? = some before →
        taken[first + i]? = some line → before.Inputs m.width line) ∧
      (m.execute limit p).machine.input = some { LineReader.ofStream stream with
        reads := first + (m.fetchesOf .input limit p).length } := by
  obtain ⟨taken, left, takes, rfl⟩ := LineReader.exists_takes stream k
  refine ⟨taken, left, takes, rfl, takes.flatten, ?_, ?_, ?_, input_execute attached⟩
  · intro taken' left' takes' same
    exact takes.unique takes' same
  · intro i line found result
    rw [takes.answer found]
    exact LineReader.word_eq_iff
  · intro i before line fetched found
    have member := List.mem_of_getElem? fetched
    have inputs := inputs_of_answer (fetched?_of_mem_fetchesOf member)
      (input_of_fetched attached fetched) (takes.answer found)
    rwa [width_of_mem_fetches (mem_fetches_of_mem_fetchesOf member)] at inputs

/-- On a machine of 8 bits, a number with blanks around it and then bytes that are no text. -/
theorem execute_reads_lines_of_two_lines :
    let number : List UInt8 := [0x20, 0x2D, 0x30, 0x62, 0x31, 0x31, 0x20, 0x0A]
    let broken : List UInt8 := [0xFF, 0x0A]
    let m : Machine :=
      { width := ⟨8, by decide, by decide⟩,
        input := some (LineReader.ofStream (number ++ broken)) }
    let p : Program := [⟨0x10, 0⟩, ⟨0x10, 0⟩]
    m.input = some { LineReader.ofStream (number ++ broken) with reads := 0 } ∧
      LineReader.Takes (number ++ broken) [number, broken] [] ∧
      ∃ first second, m.fetchesOf .input 2 p = [first, second] ∧
        (∃ after outcome, first.step = (after, .ok outcome) ∧
          ((after.register .acc).toNat : Int) = -3 % 2 ^ 8) ∧
        ∃ after fault, second.step = (after, .error (.device fault)) ∧
          fault.message = "stream did not contain valid UTF-8" := by
  intro number broken m p
  have attached : m.input = some { LineReader.ofStream (number ++ broken) with reads := 0 } := rfl
  have inside : (0x0A : UInt8) ∉ [0x20, 0x2D, 0x30, 0x62, 0x31, 0x31, 0x20] := by decide
  have inside' : (0x0A : UInt8) ∉ [0xFF] := by decide
  have both : LineReader.Takes (number ++ broken) [number, broken] [] :=
    .line inside (.line inside' .none)
  have calls : (m.fetchesOf .input 2 p).length = 2 := by decide +kernel
  obtain ⟨first, second, fetched⟩ := List.length_eq_two.mp calls
  obtain ⟨taken, left, takes, length, _, unique, _, inputs, _⟩ :=
    execute_reads_lines attached p 2 2
  obtain ⟨rfl, rfl⟩ := unique _ _ both rfl
  have writes : Writes ['-', '0', 'b', '1', '1'] (-3) :=
    LineReader.integer?_eq_some_iff.mp (by decide)
  have blank : ∀ c ∈ [' '], Text.isBlank c = true := by simp [Text.isBlank]
  have blank' : ∀ c ∈ [' ', '\n'], Text.isBlank c = true := by simp [Text.isBlank]
  have trimmed := writes.trimmed blank blank'
  have undecodable : ∀ text, Text.Utf8.encode text ≠ broken := by
    intro text encodes
    have decoded := Text.Utf8.decode?_eq_some_iff.mpr encodes
    have none : Text.Utf8.decode? broken = .none := by decide
    rw [none] at decoded
    cases decoded
  refine ⟨attached, both, first, second, fetched, ?_, ?_⟩
  · have reads := inputs 0 first number (by rw [fetched]; rfl) rfl
    exact reads.number _ _ _ (by decide +kernel) trimmed writes
  · have reads := inputs 1 second broken (by rw [fetched]; rfl) rfl
    exact reads.fault _ (.notText undecodable)

end Machine

end AccumulatorMachine
