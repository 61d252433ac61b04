import AccumulatorMachine.Proofs.Machine.Transition

/-! Predicates on machines that no store can break. One that survives the four ways in which
a machine changes survives every instruction, every step and every run. -/
namespace AccumulatorMachine.Machine

/-- A predicate that stays true whatever is stored in registers, memory and flags, and
whatever happens to devices, trace and journal. -/
structure Stable (P : Machine → Prop) : Prop where
  put : ∀ {m}, P m → ∀ r value, P (m.put r value)
  write : ∀ {m}, P m → ∀ address word, P (m.write address word)
  compare : ∀ {m}, P m → ∀ left right, P { m with flags := m.flags.compare left right }
  around : ∀ {m}, P m → ∀ input output trace journal,
    P { m with input, output, trace, journal }

variable {P : Machine → Prop} {m : Machine}

namespace Stable

theorem record (stable : Stable P) (holds : P m) (r : LogRecord) : P (m.record r) :=
  stable.around holds m.input m.output m.trace (m.journal.push r)

theorem offerTrace (stable : Stable P) (holds : P m) (text : Text.Style → String) :
    P (m.offerTrace text) :=
  stable.around holds m.input m.output _ m.journal

theorem attachInput (stable : Stable P) (holds : P m) (d : InputDevice) : P (m.attachInput d) :=
  stable.around holds (some d) m.output m.trace m.journal

theorem attachOutput (stable : Stable P) (holds : P m) (d : OutputDevice) :
    P (m.attachOutput d) :=
  stable.around holds m.input (some d) m.trace m.journal

theorem traceTo (stable : Stable P) (holds : P m) (t : Trace) : P (m.traceTo t) :=
  stable.around holds m.input m.output (some t) m.journal

theorem bump (stable : Stable P) (holds : P m) (index : UInt64) (amount : Int) :
    P (m.bump index amount).1 := by
  simp only [Machine.bump]
  split
  · exact stable.put holds _ _
  · exact holds

theorem readInput (stable : Stable P) (holds : P m) : P m.readInput.1 := by
  simp only [Machine.readInput]
  split
  · exact holds
  · next device _ =>
    have called := stable.around holds (some device.read) m.output m.trace m.journal
    split
    · exact stable.put called _ _
    · exact called

theorem writeOutput (stable : Stable P) (holds : P m) : P m.writeOutput.1 := by
  simp only [Machine.writeOutput]
  split
  · exact stable.record holds _
  · next device _ =>
    have called := stable.around holds m.input (some (device.write (m.register .acc)))
      m.trace m.journal
    split
    · exact called
    · exact called

theorem perform (stable : Stable P) (holds : P m) (op : Opcode) (operand : UInt64) :
    P (m.perform op operand).1 := by
  cases op with
  | loadImmediate | loadDirect | loadIndirect | loadIndexed | loadIndex | copyToIndex =>
    exact stable.put holds _ _
  | store => exact stable.write holds _ _
  | pass | jump | jumpIfZero | jumpIfNonzero | halt => exact holds
  | input => exact stable.readInput holds
  | output => exact stable.writeOutput holds
  | addDirect | addImmediate | subDirect | subImmediate => exact stable.put holds _ _
  | increment | decrement => exact stable.bump holds _ _
  | compareDirect | compareImmediate | compareIndirect => exact stable.compare holds _ _

theorem announced (stable : Stable P) (holds : P m) (cell operand : UInt64) (op : Opcode) :
    P (m.announced cell operand op) :=
  stable.record (stable.offerTrace holds _) _

theorem step (stable : Stable P) (holds : P m) : P m.step.1 := by
  have steps := m.steps_step
  generalize m.step = outcome at steps ⊢
  cases steps with
  | outOfStorage => exact holds
  | unknown => exact stable.offerTrace holds _
  | @failed cell operand op _ _ _ _ failed =>
    have carried := stable.perform (stable.announced holds cell operand op) op operand
    rwa [failed] at carried
  | @done cell operand op _ _ _ _ done =>
    have carried := stable.perform (stable.announced holds cell operand op) op operand
    rw [done] at carried
    exact stable.put carried _ _

theorem next (stable : Stable P) (stop : Nat) (steps : Nat) (holds : P m) :
    P (Execution.next stop (.running m steps)).machine := by
  have stepped := stable.step holds
  have follows := Execution.follows_next stop m steps
  generalize Execution.next stop (.running m steps) = e at follows ⊢
  cases follows with
  | outside => exact stable.record holds _
  | failed _ step =>
    rwa [step] at stepped
  | halted _ step | left _ step =>
    rw [step] at stepped
    exact stable.record (stable.offerTrace stepped _) _
  | goesOn _ step =>
    rw [step] at stepped
    exact stable.offerTrace stepped _

theorem after (stable : Stable P) (stop limit : Nat) {e : Execution} (holds : P e.machine) :
    P (e.after stop limit).machine :=
  Execution.after_invariant (P := fun e => P e.machine)
    (fun _ steps => stable.next stop steps) limit holds

theorem loadInstruction (stable : Stable P) (holds : P m) (address : UInt64)
    (i : Instruction) : P (m.loadInstruction address i).1 := by
  simp only [Machine.loadInstruction]
  split
  · exact stable.write (stable.write holds _ _) _ _
  · exact stable.write holds _ _

theorem loadFrom (stable : Stable P) (address : Nat) (p : Program) (holds : P m) :
    P (m.loadFrom address p) := by
  induction p generalizing m address with
  | nil => exact holds
  | cons i rest ih => exact ih _ (stable.loadInstruction holds _ i)

theorem start (stable : Stable P) (p : Program) (holds : P m) : P (m.start p).machine := by
  simp only [Machine.start]
  split
  · exact holds
  · exact stable.put (stable.loadFrom 0 p holds) _ _

/-- No run breaks a stable predicate, however far it is followed and however it ends. -/
theorem execute (stable : Stable P) (limit : Nat) (p : Program) (holds : P m) :
    P (m.execute limit p).machine :=
  stable.after _ limit (stable.start p holds)

end Stable

theorem stable_width (w : Width) : Stable fun m => m.width = w where
  put holds _ _ := holds
  write holds _ _ := holds
  compare holds _ _ := holds
  around holds _ _ _ _ := holds

end AccumulatorMachine.Machine
