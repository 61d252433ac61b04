import AccumulatorMachine.Proofs.Machine.Stable

/-! What lies in memory after a program was loaded: its cells from the first address on,
narrowed, and around them what lay there before. -/
namespace AccumulatorMachine

/-- The word of a program at a distance from its first cell. -/
def Program.word? (p : Program) (distance : Nat) : Option UInt64 :=
  p[distance / 2]?.map fun i =>
    if distance % 2 = 0 then UInt64.ofNat i.opcode.toNat else i.operand

namespace Program

theorem word?_nil (distance : Nat) : word? [] distance = none := rfl

theorem word?_cons_code (i : Instruction) (rest : Program) :
    word? (i :: rest) 0 = some (UInt64.ofNat i.opcode.toNat) := rfl

theorem word?_cons_operand (i : Instruction) (rest : Program) :
    word? (i :: rest) 1 = some i.operand := rfl

theorem word?_cons_add_two (i : Instruction) (rest : Program) (distance : Nat) :
    word? (i :: rest) (distance + 2) = word? rest distance := by
  rw [word?, word?, Nat.add_div_right distance (by omega), Nat.add_mod_right,
    List.getElem?_cons_succ]

theorem word?_code {p : Program} {n : Nat} {i : Instruction} (listed : p[n]? = some i) :
    p.word? (2 * n) = some (UInt64.ofNat i.opcode.toNat) := by
  rw [word?, Nat.mul_div_cancel_left n (by omega), listed, Option.map_some,
    if_pos (Nat.mul_mod_right 2 n)]

theorem word?_operand {p : Program} {n : Nat} {i : Instruction}
    (listed : p[n]? = some i) : p.word? (2 * n + 1) = some i.operand := by
  have half : (2 * n + 1) / 2 = n := by omega
  have odd : ¬(2 * n + 1) % 2 = 0 := by omega
  rw [word?, half, listed, Option.map_some, if_neg odd]

theorem exists_word? {p : Program} {distance : Nat} (inside : distance < p.cellCount) :
    ∃ word, p.word? distance = some word := by
  rw [cellCount, cellsPerInstruction] at inside
  have listed : distance / 2 < p.length := by omega
  exact ⟨_, by rw [word?, List.getElem?_eq_getElem listed, Option.map_some]⟩

end Program

namespace Machine

/-- Loading changes nothing but memory. -/
theorem loadFrom_frame (m : Machine) (first : Nat) (p : Program) :
    m.loadFrom first p = { m with memory := (m.loadFrom first p).memory } := by
  induction p generalizing m first with
  | nil => rfl
  | cons i rest ih =>
    have loaded : (m.loadInstruction (UInt64.ofNat first) i).1 =
        { m with memory := (m.loadInstruction (UInt64.ofNat first) i).1.memory } := by
      simp only [loadInstruction]
      split <;> rfl
    rw [loadFrom, ih, loaded]

theorem read_loadInstruction {m : Machine} {first : UInt64} (room : first.toNat + 1 < 2 ^ 64)
    (i : Instruction) (address : UInt64) :
    (m.loadInstruction first i).1.read address =
      if address.toNat = first.toNat + 1 then m.width.truncate i.operand.toNat
      else if address.toNat = first.toNat then
        m.width.truncate (UInt64.ofNat i.opcode.toNat).toNat
      else m.read address := by
  have next : (first + 1).toNat = first.toNat + 1 := by
    rw [UInt64.toNat_add, UInt64.toNat_one]
    omega
  have found := cellAfter?_eq_some_iff.mpr next
  simp only [loadInstruction, found, read_write, width_write,
    ← UInt64.toNat_inj (a := address), next]

/-- A program that storage has room for lies in its cells, narrowed, and the others are as
they were. -/
theorem read_loadFrom {m : Machine} {first : Nat} {p : Program}
    (room : first + 2 * p.length ≤ 2 ^ 64) (address : UInt64) :
    (m.loadFrom first p).read address =
      if address.toNat < first then m.read address
      else ((p.word? (address.toNat - first)).map fun word =>
        m.width.truncate word.toNat).getD (m.read address) := by
  induction p generalizing m first with
  | nil => rw [loadFrom, Program.word?_nil, Option.map_none, Option.getD_none, ite_self]
  | cons i rest ih =>
    rw [List.length_cons] at room
    have start : (UInt64.ofNat first).toNat = first := by
      rw [UInt64.toNat_ofNat']
      omega
    rw [loadFrom, ih (by rw [cellsPerInstruction]; omega), width_loadInstruction,
      read_loadInstruction (by omega), start, cellsPerInstruction]
    obtain before | code | operand | ⟨distance, far⟩ :
        address.toNat < first ∨ address.toNat = first ∨ address.toNat = first + 1 ∨
          ∃ distance, address.toNat = first + 2 + distance := by
      by_cases far : first + 2 ≤ address.toNat
      · exact .inr (.inr (.inr ⟨_, (Nat.add_sub_cancel' far).symm⟩))
      · omega
    · rw [if_pos (by omega), if_neg (by omega), if_neg (by omega), if_pos before]
    · rw [if_pos (by omega), if_neg (by omega), if_pos code, if_neg (by omega), code,
        Nat.sub_self, Program.word?_cons_code]
      rfl
    · rw [if_pos (by omega), if_pos operand, if_neg (by omega), operand,
        Nat.add_sub_cancel_left, Program.word?_cons_operand]
      rfl
    · have whole : address.toNat - first = distance + 2 := by omega
      have rest : address.toNat - (first + 2) = distance := by omega
      rw [if_neg (by omega), if_neg (by omega), if_neg (by omega), if_neg (by omega), whole,
        rest, Program.word?_cons_add_two]

end Machine

end AccumulatorMachine
