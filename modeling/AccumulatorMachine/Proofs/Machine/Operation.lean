import AccumulatorMachine.Proofs.Machine.Control

/-! What one operation can change and where it can send control, read off its name, its operand
and the accumulator. -/
namespace AccumulatorMachine

/-- The register that an operation stores in, if it stores in one. The program counter is among
them only as the register that an increment or a decrement names. -/
def Opcode.stored? (operand : UInt64) : Opcode → Option Register
  | loadImmediate | loadDirect | loadIndirect | loadIndexed | input
  | addDirect | addImmediate | subDirect | subImmediate => some .acc
  | loadIndex | copyToIndex => some .ix
  | increment | decrement => Register.ofIndex? operand.toNat
  | store | pass | output | jump | jumpIfZero | jumpIfNonzero | halt
  | compareDirect | compareImmediate | compareIndirect => none

/-- The operations that send control to their operand, always or as the accumulator is. -/
def Opcode.jumps : List Opcode :=
  [jump, jumpIfZero, jumpIfNonzero]

namespace Machine

theorem Jumps.mem_jumps {m : Machine} {op : Opcode} (jumps : m.Jumps op) : op ∈ Opcode.jumps := by
  cases jumps with
  | always | zero | nonzero => decide

theorem register_bump (m : Machine) (index : UInt64) (amount : Int) {r : Register}
    (other : Register.ofIndex? index.toNat ≠ some r) :
    (m.bump index amount).1.register r = m.register r := by
  simp only [bump]
  split
  · next named found =>
    rw [register_put, if_neg]
    rintro rfl
    exact other found
  · rfl

/-- A bump that succeeds counts on the register that it names, and no other. -/
theorem toNat_register_bump {m m' : Machine} {index : UInt64} {amount : Int} {flow : Flow}
    (done : m.bump index amount = (m', .ok flow)) (r : Register) :
    ((m'.register r).toNat : Int) =
      if index.toNat = r.index then ((m.register r).toNat + amount) % m.width.modulus
      else (m.register r).toNat := by
  simp only [bump] at done
  split at done
  · next named found =>
    cases done
    rw [register_put]
    by_cases same : r = named
    · subst named
      rw [if_pos rfl, if_pos (Register.ofIndex?_eq_some_iff.mp found).symm, m.width.toNat_truncate]
    · have other : index.toNat ≠ r.index := by
        intro names
        rw [Register.ofIndex?_eq_some_iff.mpr names.symm] at found
        exact same (Option.some.inj found)
      rw [if_neg same, if_neg other]
  · cases done

/-- An operation leaves every register alone but the one that it stores in. -/
theorem register_perform (m : Machine) (op : Opcode) {operand : UInt64} {r : Register}
    (other : op.stored? operand ≠ some r) :
    (m.perform op operand).1.register r = m.register r := by
  cases op with
  | loadImmediate | loadDirect | loadIndirect | loadIndexed
  | addDirect | addImmediate | subDirect | subImmediate =>
    have differs : r ≠ .acc := fun same => other (congrArg some same.symm)
    exact (register_put ..).trans (if_neg differs)
  | loadIndex | copyToIndex =>
    have differs : r ≠ .ix := fun same => other (congrArg some same.symm)
    exact (register_put ..).trans (if_neg differs)
  | input =>
    have differs : r ≠ .acc := fun same => other (congrArg some same.symm)
    simp only [perform, readInput]
    split
    · rfl
    · split
      · exact (register_put ..).trans (if_neg differs)
      · rfl
  | output =>
    simp only [perform, writeOutput]
    split
    · rfl
    · split
      · rfl
      · rfl
  | increment | decrement => exact m.register_bump operand _ other
  | _ => rfl

/-- Where an operation that succeeds sends control. -/
inductive Sends (m : Machine) (operand : UInt64) : Opcode → Flow → Prop
  | jump (jumps : m.Jumps op) : Sends m operand op (.jump operand)
  | halt : Sends m operand .halt .halt
  | next (stays : ¬m.Jumps op) (goes : op ≠ .halt) : Sends m operand op .next

variable {m m' : Machine} {op : Opcode} {operand : UInt64} {flow : Flow}

/-- What never jumps and does not halt sends control onwards. -/
theorem Sends.onwards (plain : op ∉ Opcode.jumps) (goes : op ≠ .halt) :
    m.Sends operand op .next :=
  .next (fun jumps => plain jumps.mem_jumps) goes

theorem flow_bump {index : UInt64} {amount : Int} (done : m.bump index amount = (m', .ok flow)) :
    flow = .next := by
  simp only [bump] at done
  split at done
  · cases done
    rfl
  · cases done

theorem sends_perform (done : m.perform op operand = (m', .ok flow)) :
    m.Sends operand op flow := by
  cases op with
  | jump =>
    cases done
    exact .jump .always
  | jumpIfZero =>
    cases done
    by_cases zero : m.register .acc = 0
    · rw [Flow.jumpIf, if_pos (beq_iff_eq.mpr zero)]
      exact .jump (.zero zero)
    · rw [Flow.jumpIf, if_neg (by simpa using zero)]
      apply Sends.next
      · rintro ⟨⟩
        contradiction
      · exact Opcode.noConfusion
  | jumpIfNonzero =>
    cases done
    by_cases zero : m.register .acc = 0
    · rw [Flow.jumpIf, if_neg (by simpa using zero)]
      apply Sends.next
      · rintro ⟨⟩
        contradiction
      · exact Opcode.noConfusion
    · rw [Flow.jumpIf, if_pos (bne_iff_ne.mpr zero)]
      exact .jump (.nonzero zero)
  | halt =>
    cases done
    exact .halt
  | input =>
    simp only [perform, readInput] at done
    split at done
    · cases done
    · split at done
      · cases done
        exact .onwards (by decide) (by decide)
      · cases done
  | output =>
    simp only [perform, writeOutput] at done
    split at done
    · cases done
      exact .onwards (by decide) (by decide)
    · split at done
      · cases done
        exact .onwards (by decide) (by decide)
      · cases done
  | increment | decrement =>
    obtain rfl := flow_bump done
    exact .onwards (by decide) (by decide)
  | _ =>
    cases done
    exact .onwards (by decide) (by decide)

end Machine

end AccumulatorMachine
