import AccumulatorMachine.Proofs.Machine.Transition

/-! Runs whose arithmetic is checked. Addresses and counts are computed in words of 64 bits, sums
and differences of words in signed integers of 128 bits; a checked run is lost at the first
number that its storage has no room for. No run is lost while the addresses of its program are
words: the checked run is the run. Only the count of steps is not checked, and the sum that an
indexed load reads at is meant to wrap. -/
namespace AccumulatorMachine

namespace Storage

/-- A number computed as a word. -/
def word? (value : Int) : Option UInt64 :=
  if 0 ≤ value ∧ value < 2 ^ 64 then some (UInt64.ofInt value) else none

/-- A number computed from words in signed storage of twice their size. -/
def wide? (value : Int) : Option Int :=
  if -2 ^ 127 ≤ value ∧ value < 2 ^ 127 then some value else none

theorem word?_eq {value : Int} {n : Nat} (natural : value = n) (room : n < 2 ^ 64) :
    word? value = some (UInt64.ofNat n) := by
  subst value
  have same : UInt64.ofInt n = UInt64.ofNat n := by
    rw [← UInt64.toNat_inj, UInt64.toNat_ofNat']
    exact_mod_cast toNat_ofInt n
  rw [word?, if_pos (by omega), same]

theorem wide?_of_bounds {value : Int} (low : -2 ^ 65 ≤ value) (high : value ≤ 2 ^ 65) :
    wide? value = some value :=
  if_pos (by omega)

end Storage

open Storage

/-- The greatest word of a width. A bit is shifted by less than the size of its storage. -/
def Width.mask? (w : Width) : Option UInt64 :=
  if w.bits = 64 then some 0xFFFFFFFFFFFFFFFF
  else if w.bits < 64 then do
    let bit ← word? (2 ^ w.bits)
    word? (bit.toNat - 1)
  else none

/-- Whether the last of so many addresses is too great for a width. -/
def Width.exceeded? (w : Width) (stop : UInt64) : Option Bool :=
  if stop = 0 then some false
  else do
    let last ← word? (stop.toNat - 1)
    let mask ← w.mask?
    some (mask < last)

/-- Flags as the sign of a difference sets them. -/
def Flags.ofDifference (f : Flags) (difference : Int) : Flags :=
  { f with
    carry := difference < 0
    negative := difference < 0
    zero := difference = 0 }

namespace Machine

def accumulate? (m : Machine) (amount : Int) : Option (Machine × Except MachineError Flow) := do
  let sum ← wide? ((m.register .acc).toNat + amount)
  some (m.put .acc sum, .ok .next)

def subtract? (m : Machine) (word : UInt64) : Option (Machine × Except MachineError Flow) := do
  let amount ← wide? (-word.toNat)
  m.accumulate? amount

def bump? (m : Machine) (index : UInt64) (amount : Int) :
    Option (Machine × Except MachineError Flow) :=
  match Register.ofIndex? index.toNat with
  | some r => do
    let sum ← wide? ((m.register r).toNat + amount)
    some (m.put r sum, .ok .next)
  | none => some (m, .error (.invalidRegister index))

def compareWith? (m : Machine) (word : UInt64) : Option (Machine × Except MachineError Flow) := do
  let difference ← wide? ((m.register .acc).toNat - word.toNat)
  some ({ m with flags := m.flags.ofDifference difference }, .ok .next)

def perform? (m : Machine) (op : Opcode) (operand : UInt64) :
    Option (Machine × Except MachineError Flow) :=
  match op with
  | .addDirect => m.accumulate? (m.read operand).toNat
  | .addImmediate => m.accumulate? operand.toNat
  | .subDirect => m.subtract? (m.read operand)
  | .subImmediate => m.subtract? operand
  | .increment => m.bump? operand 1
  | .decrement => m.bump? operand (-1)
  | .compareDirect => m.compareWith? (m.read operand)
  | .compareImmediate => m.compareWith? operand
  | .compareIndirect => m.compareWith? (m.read (m.read operand))
  | _ => some (m.perform op operand)

def successor? (m : Machine) : Flow → Option Nat
  | .jump target => some target.toNat
  | .next | .halt => (wide? ((m.register .pc).toNat + cellsPerInstruction)).map Int.toNat

def advance? (m : Machine) (op : Opcode) (operand : UInt64) :
    Option (Machine × Except MachineError (Flow × Nat)) := do
  match ← m.perform? op operand with
  | (m, .error e) => some (m, .error e)
  | (m, .ok flow) =>
    let successor ← m.successor? flow
    some (m.put .pc successor, .ok (flow, successor))

def step? (m : Machine) : Option (Machine × Except MachineError (Flow × Nat)) := do
  let address := m.register .pc
  let after ← word? (address.toNat + 1)
  let cell := m.read address
  let operand := m.read after
  let m := m.offerTrace (fetchText m.width address cell operand)
  match decode? cell with
  | none => some (m, .error (.invalidOpcode cell))
  | some op => (m.record (.decoded address op operand)).advance? op operand

def loadInstruction? (m : Machine) (address : UInt64) (i : Instruction) : Option Machine := do
  let after ← word? (address.toNat + 1)
  some ((m.write address (UInt64.ofNat i.opcode.toNat)).write after i.operand)

/-- Loads instructions, the first of which has a number. -/
def loadFrom? (number : Nat) : Program → Machine → Option Machine
  | [], m => some m
  | i :: rest, m => do
    let address ← word? (number * cellsPerInstruction)
    let m ← m.loadInstruction? address i
    loadFrom? (number + 1) rest m

end Machine

namespace Execution

def next? (stop : Nat) : Execution → Option Execution
  | finished m result => some (.finished m result)
  | running m steps =>
    if (m.register .pc).toNat < stop then do
      match ← m.step? with
      | (m, .error e) => some (.finished m (.error e))
      | (m, .ok (flow, successor)) =>
        let m := m.offerTrace m.tracedDump
        if flow = .halt then some (conclude m (steps + 1) true)
        else if stop ≤ successor then some (conclude m (steps + 1) false)
        else some (.running m (steps + 1))
    else some (conclude m steps false)

def after? (stop : Nat) : Nat → Execution → Option Execution
  | 0, e => some e
  | n + 1, e => do after? stop n (← next? stop e)

end Execution

/-- A checked run of a program, followed through at most so many stages. -/
def Machine.execute? (limit : Nat) (m : Machine) (p : Program) : Option Execution := do
  let stop ← word? (p.length * cellsPerInstruction)
  if ← m.width.exceeded? stop then
    some (.finished m (.error (.programTooLarge p.length m.width.bits)))
  else
    let loaded ← m.loadFrom? 0 p
    Execution.after? stop.toNat limit (.running (loaded.put .pc 0) 0)

theorem Width.mask?_eq (w : Width) : w.mask? = some w.mask := by
  have bound := w.bits_le_max
  rw [mask?]
  split
  · next full => rw [mask, if_pos full]
  · have small : w.modulus < 2 ^ 64 := Nat.pow_lt_pow_right (by omega) (by omega)
    have pos := w.modulus_pos
    have bit : word? (2 ^ w.bits) = some (UInt64.ofNat w.modulus) :=
      word?_eq (by rw [w.modulus_eq]; norm_cast) small
    have less : ((UInt64.ofNat w.modulus).toNat : Int) - 1 = (w.modulus - 1 : Nat) := by
      rw [UInt64.toNat_ofNat', Nat.mod_eq_of_lt small]
      omega
    have mask : UInt64.ofNat (w.modulus - 1) = w.mask := by
      rw [← UInt64.toNat_inj, UInt64.toNat_ofNat', w.toNat_mask]
      omega
    rw [if_pos (by omega), bit, Option.bind_eq_bind, Option.bind_some,
      word?_eq less (by omega), mask]

theorem Width.exceeded?_eq (w : Width) (stop : UInt64) :
    w.exceeded? stop = some (decide (w.modulus < stop.toNat)) := by
  have pos := w.modulus_pos
  have bound := stop.toNat_lt
  rw [exceeded?]
  split
  · next none =>
    subst none
    rw [UInt64.toNat_zero, decide_eq_false (Nat.not_lt_zero _)]
  · next some =>
    have positive : 0 < stop.toNat := by
      rw [Nat.pos_iff_ne_zero, ← UInt64.toNat_zero, ne_eq, UInt64.toNat_inj]
      exact some
    have less : (stop.toNat : Int) - 1 = (stop.toNat - 1 : Nat) := by omega
    have past : w.mask < UInt64.ofNat (stop.toNat - 1) ↔ w.modulus < stop.toNat := by
      rw [UInt64.lt_iff_toNat_lt, w.toNat_mask, UInt64.toNat_ofNat']
      omega
    simp only [word?_eq less (by omega), w.mask?_eq,
      Option.bind_eq_bind, Option.bind_some, past]

theorem Flags.ofDifference_eq (f : Flags) (left right : UInt64) :
    f.ofDifference (left.toNat - right.toNat) = f.compare left right := by
  have below : ((left.toNat : Int) - right.toNat < 0) ↔ left < right := by
    rw [UInt64.lt_iff_toNat_lt]
    omega
  have same : decide ((left.toNat : Int) - right.toNat = 0) = (left == right) := by
    rw [Bool.eq_iff_iff, decide_eq_true_iff, beq_iff_eq, ← UInt64.toNat_inj]
    omega
  simp only [ofDifference, compare, below, same]

namespace Machine

variable (m : Machine)

theorem accumulate?_eq {amount : Int} (low : -2 ^ 64 ≤ amount) (high : amount ≤ 2 ^ 64) :
    m.accumulate? amount = some (m.accumulate amount) := by
  have bound := (m.register .acc).toNat_lt
  rw [accumulate?, wide?_of_bounds (by omega) (by omega)]
  rfl

theorem subtract?_eq (word : UInt64) :
    m.subtract? word = some (m.accumulate (-word.toNat)) := by
  have bound := word.toNat_lt
  rw [subtract?, wide?_of_bounds (by omega) (by omega), Option.bind_eq_bind, Option.bind_some,
    m.accumulate?_eq (by omega) (by omega)]

theorem bump?_eq (index : UInt64) {amount : Int} (low : -1 ≤ amount) (high : amount ≤ 1) :
    m.bump? index amount = some (m.bump index amount) := by
  rw [bump?, bump]
  cases Register.ofIndex? index.toNat with
  | none => rfl
  | some r =>
    have bound := (m.register r).toNat_lt
    simp only [wide?_of_bounds (show -2 ^ 65 ≤ ((m.register r).toNat : Int) + amount by omega)
      (by omega)]
    rfl

theorem compareWith?_eq (word : UInt64) : m.compareWith? word = some (m.compareWith word) := by
  have left := (m.register .acc).toNat_lt
  have right := word.toNat_lt
  rw [compareWith?, wide?_of_bounds (by omega) (by omega), Option.bind_eq_bind, Option.bind_some,
    Flags.ofDifference_eq]
  rfl

theorem perform?_eq (op : Opcode) (operand : UInt64) :
    m.perform? op operand = some (m.perform op operand) := by
  have words : ∀ word : UInt64, m.accumulate? word.toNat = some (m.accumulate word.toNat) := by
    intro word
    have bound := word.toNat_lt
    exact m.accumulate?_eq (by omega) (by omega)
  cases op with
  | addDirect | addImmediate => exact words _
  | subDirect | subImmediate => exact m.subtract?_eq _
  | increment | decrement => exact m.bump?_eq operand (by omega) (by omega)
  | compareDirect | compareImmediate | compareIndirect => exact m.compareWith?_eq _
  | _ => rfl

theorem cellAfter?_of_room {address : UInt64} (room : address.toNat + 1 < 2 ^ 64) :
    cellAfter? address = some (UInt64.ofNat (address.toNat + 1)) := by
  rw [cellAfter?_eq_some_iff, UInt64.toNat_ofNat', Nat.mod_eq_of_lt room]

theorem successor?_eq (flow : Flow) : m.successor? flow = some (m.successor flow) := by
  have bound := (m.register .pc).toNat_lt
  cases flow with
  | jump target => rfl
  | next | halt =>
    rw [successor?, cellsPerInstruction, wide?_of_bounds (by omega) (by omega), Option.map_some]
    rfl

theorem advance?_eq (op : Opcode) (operand : UInt64) :
    m.advance? op operand = some (m.advance op operand) := by
  rw [advance?, perform?_eq, advance, Option.bind_eq_bind, Option.bind_some]
  cases m.perform op operand with
  | mk m' outcome =>
    cases outcome with
    | error e => rfl
    | ok flow => simp only [successor?_eq, Option.bind_eq_bind, Option.bind_some]

variable {m}

/-- An instruction whose operand has an address is carried out within storage. -/
theorem step?_eq (room : (m.register .pc).toNat + 1 < 2 ^ 64) : m.step? = some m.step := by
  have found := cellAfter?_of_room room
  have after : word? ((m.register .pc).toNat + 1) =
      some (UInt64.ofNat ((m.register .pc).toNat + 1)) := word?_eq (by omega) room
  simp only [step?, step, fetch?, found, after, Option.bind_eq_bind, Option.bind_some,
    Option.map_some]
  cases decode? (m.read (m.register .pc)) with
  | none => rfl
  | some op => exact advance?_eq _ op _

theorem loadInstruction?_eq {address : UInt64} (room : address.toNat + 1 < 2 ^ 64)
    (i : Instruction) : m.loadInstruction? address i = some (m.loadInstruction address i).1 := by
  have found := cellAfter?_of_room room
  have after : word? (address.toNat + 1) = some (UInt64.ofNat (address.toNat + 1)) :=
    word?_eq (by omega) room
  rw [loadInstruction?, loadInstruction, found, after, Option.bind_eq_bind, Option.bind_some]

theorem loadFrom?_eq {number : Nat} {p : Program}
    (room : (number + p.length) * cellsPerInstruction < 2 ^ 64) :
    loadFrom? number p m = some (m.loadFrom (number * cellsPerInstruction) p) := by
  induction p generalizing number m with
  | nil => rfl
  | cons i rest ih =>
    rw [List.length_cons, cellsPerInstruction] at room
    have address : word? (number * cellsPerInstruction) =
        some (UInt64.ofNat (number * cellsPerInstruction)) :=
      word?_eq (by norm_cast) (by rw [cellsPerInstruction]; omega)
    have start : (UInt64.ofNat (number * cellsPerInstruction)).toNat =
        number * cellsPerInstruction := by
      rw [cellsPerInstruction, UInt64.toNat_ofNat']
      omega
    have next : number * cellsPerInstruction + cellsPerInstruction =
        (number + 1) * cellsPerInstruction := by
      rw [Nat.add_mul, Nat.one_mul]
    rw [loadFrom?, address, Option.bind_eq_bind, Option.bind_some,
      loadInstruction?_eq (by rw [start, cellsPerInstruction]; omega), Option.bind_eq_bind,
      Option.bind_some, loadFrom, next]
    exact ih (by rw [cellsPerInstruction]; omega)

end Machine

namespace Execution

theorem next?_eq {stop : Nat} (room : stop < 2 ^ 64) (e : Execution) :
    next? stop e = some (next stop e) := by
  cases e with
  | finished m result => rfl
  | running m steps =>
    rw [next?, next]
    split
    · next inside =>
      rw [Machine.step?_eq (by omega), Option.bind_eq_bind, Option.bind_some]
      cases m.step with
      | mk m' outcome =>
        cases outcome with
        | error e => rfl
        | ok pair =>
          dsimp only
          rw [apply_ite some, apply_ite some]
    · rfl

theorem after?_eq {stop : Nat} (room : stop < 2 ^ 64) (n : Nat) (e : Execution) :
    after? stop n e = some (after stop n e) := by
  induction n generalizing e with
  | zero => rfl
  | succ n ih =>
    rw [after?, next?_eq room, Option.bind_eq_bind, Option.bind_some, ih]
    cases e with
    | running m steps => rfl
    | finished m result => rw [next, after_finished, after_finished]

end Execution

/-- No checked run is lost on a program whose end is the address of a cell. -/
theorem Machine.execute?_eq (m : Machine) {p : Program} (room : p.cellCount < 2 ^ 64)
    (limit : Nat) : m.execute? limit p = some (m.execute limit p) := by
  have stop : word? (p.length * cellsPerInstruction) = some (UInt64.ofNat p.cellCount) :=
    word?_eq (by rw [Program.cellCount]; norm_cast) room
  have toNat : (UInt64.ofNat p.cellCount).toNat = p.cellCount := by
    rw [UInt64.toNat_ofNat', Nat.mod_eq_of_lt room]
  simp only [execute?, stop, Width.exceeded?_eq, toNat, Option.bind_eq_bind, Option.bind_some,
    decide_eq_true_eq]
  split
  · next large => rw [execute, start, if_pos large, Execution.after_finished]
  · next small =>
    have loads : loadFrom? 0 p m = some (m.loadFrom 0 p) := by
      rw [loadFrom?_eq (by rwa [Nat.zero_add]), Nat.zero_mul]
    rw [loads, Option.bind_some, Execution.after?_eq room, execute, start, if_neg small]

/-- A program with more cells than there are addresses is lost before it is loaded. -/
theorem Machine.execute?_eq_none (m : Machine) {p : Program} (large : 2 ^ 64 ≤ p.cellCount)
    (limit : Nat) : m.execute? limit p = none := by
  rw [Program.cellCount] at large
  have stop : word? (p.length * cellsPerInstruction) = none := by
    rw [word?, if_neg]
    norm_cast
    omega
  rw [execute?, stop, Option.bind_eq_bind, Option.bind_none]

end AccumulatorMachine
