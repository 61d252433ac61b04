/-! The six registers of the machine. A register has a name, which source text uses,
and a number, which instructions use. -/
namespace AccumulatorMachine

inductive Register
  /-- Accumulator: the left operand and the result of arithmetic. -/
  | acc
  /-- Index register. -/
  | ix
  /-- Current instruction register. -/
  | cir
  /-- Memory address register: where a store goes. -/
  | mar
  /-- Memory data register. -/
  | mdr
  /-- Program counter. -/
  | pc
  deriving DecidableEq, Repr

namespace Register

def all : List Register :=
  [acc, ix, cir, mar, mdr, pc]

def index : Register → Nat
  | acc => 0
  | ix => 1
  | cir => 2
  | mar => 3
  | mdr => 4
  | pc => 5

def name : Register → String
  | acc => "ACC"
  | ix => "IX"
  | cir => "CIR"
  | mar => "MAR"
  | mdr => "MDR"
  | pc => "PC"

def ofIndex? (index : Nat) : Option Register :=
  all[index]?

/-- The register that a text names. Names are capitals; no other spelling is one. -/
def ofName? (text : List Char) : Option Register :=
  all.find? fun r => r.name.toList == text

theorem mem_all (r : Register) : r ∈ all := by
  cases r <;> decide

theorem ofIndex?_eq_some_iff {i : Nat} {r : Register} : ofIndex? i = some r ↔ r.index = i := by
  constructor
  · intro h
    match i, h with
    | 0, h | 1, h | 2, h | 3, h | 4, h | 5, h => cases h; rfl
    | _ + 6, h => simp [ofIndex?, all] at h
  · rintro rfl
    cases r <;> rfl

theorem find?_index (i : Nat) : all.find? (·.index = i) = ofIndex? i := by
  match i with
  | 0 | 1 | 2 | 3 | 4 | 5 => rfl
  | _ + 6 => simp [ofIndex?, all, index]

theorem ofName?_name (r : Register) : ofName? r.name.toList = some r := by
  cases r <;> decide

theorem eq_name_of_ofName? {text : List Char} {r : Register} (h : ofName? text = some r) :
    text = r.name.toList := by
  rw [ofName?] at h
  have found := List.find?_some h
  exact (beq_iff_eq.mp found).symm

end Register

end AccumulatorMachine
