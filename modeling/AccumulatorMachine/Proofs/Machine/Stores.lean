import AccumulatorMachine.Proofs.Machine.Stable

/-! The stores that loading, stepping and running make. They are told apart from what is in
memory: an instruction stores where the address register points, loading stores a program
cell by cell, and memory is what the stores leave in it. -/
namespace AccumulatorMachine

/-- A word on its way to an address, not yet narrowed. -/
structure Store where
  address : UInt64
  word : UInt64
  deriving DecidableEq, Repr

/-- The word that was stored last at an address. -/
def Store.last? (stores : List Store) (address : UInt64) : Option UInt64 :=
  (stores.reverse.find? (·.address = address)).map (·.word)

theorem Store.last?_cons (s : Store) (stores : List Store) (address : UInt64) :
    last? (s :: stores) address =
      (last? stores address).or (if s.address = address then some s.word else none) := by
  by_cases same : s.address = address <;>
    simp [last?, List.find?_append, same]

theorem Store.last?_eq_none_iff {stores : List Store} {address : UInt64} :
    last? stores address = none ↔ ∀ s ∈ stores, s.address ≠ address := by
  simp [last?]

namespace Memory

def receive (w : Width) (m : Memory) (s : Store) : Memory :=
  m.write s.address (w.truncate s.word.toNat)

/-- The memory that stores leave, the first of them made first. -/
def receiveAll (w : Width) (m : Memory) (stores : List Store) : Memory :=
  stores.foldl (receive w) m

theorem receiveAll_append (w : Width) (m : Memory) (first further : List Store) :
    m.receiveAll w (first ++ further) = (m.receiveAll w first).receiveAll w further :=
  List.foldl_append

/-- What is read is what was stored last, narrowed. -/
theorem read_receiveAll (w : Width) (m : Memory) (stores : List Store) (address : UInt64) :
    (m.receiveAll w stores).read address =
      ((Store.last? stores address).map fun word => w.truncate word.toNat).getD
        (m.read address) := by
  induction stores generalizing m with
  | nil => rfl
  | cons s rest ih =>
    have first : (m.receive w s).read address =
        if s.address = address then w.truncate s.word.toNat else m.read address := by
      rw [receive, read_write]
      simp only [eq_comm]
    rw [receiveAll, List.foldl_cons, ← receiveAll, ih, first, Store.last?_cons]
    cases Store.last? rest address with
    | some word => rfl
    | none => by_cases same : s.address = address <;> simp [same]

theorem mem_receiveAll (w : Width) (m : Memory) (stores : List Store) (address : UInt64) :
    address ∈ m.receiveAll w stores ↔ address ∈ m ∨ ∃ s ∈ stores, s.address = address := by
  induction stores generalizing m with
  | nil => simp [receiveAll]
  | cons s rest ih =>
    rw [receiveAll, List.foldl_cons, ← receiveAll, ih, receive, mem_write]
    simp only [List.mem_cons, exists_eq_or_imp, eq_comm (a := address)]
    rw [or_comm (b := address ∈ m), or_assoc]

end Memory

/-- The stores of an instruction that is loaded: no cell, no store of the operand. -/
def Instruction.stores (address : UInt64) (i : Instruction) : List Store :=
  ⟨address, UInt64.ofNat i.opcode.toNat⟩ ::
    (Machine.cellAfter? address).toList.map fun after => ⟨after, i.operand⟩

def Program.stores (address : Nat) : Program → List Store
  | [] => []
  | i :: rest =>
    i.stores (UInt64.ofNat address) ++ Program.stores (address + cellsPerInstruction) rest

namespace Machine

theorem memory_loadInstruction (m : Machine) (address : UInt64) (i : Instruction) :
    (m.loadInstruction address i).1.memory = m.memory.receiveAll m.width (i.stores address) := by
  simp only [loadInstruction, Instruction.stores]
  split
  · next found => rw [found]; rfl
  · next missing => rw [missing]; rfl

theorem memory_loadFrom (m : Machine) (address : Nat) (p : Program) :
    (m.loadFrom address p).memory = m.memory.receiveAll m.width (Program.stores address p) := by
  induction p generalizing m address with
  | nil => rfl
  | cons i rest ih =>
    rw [loadFrom, ih, memory_loadInstruction, width_loadInstruction, Program.stores,
      Memory.receiveAll_append]

/-- The store that the instruction at the program counter makes, if it makes one. -/
def pendingStores (m : Machine) : List Store :=
  match m.fetch? (m.register .pc) with
  | none => []
  | some (cell, _) =>
    if decode? cell = some .store then [⟨m.register .mar, m.register .acc⟩] else []

/-- Only the storing operation changes memory. -/
theorem memory_perform (m : Machine) (op : Opcode) (operand : UInt64) :
    (m.perform op operand).1.memory =
      if op = .store then m.memory.receive m.width ⟨m.register .mar, m.register .acc⟩
      else m.memory := by
  cases op with
  | store => rfl
  | input =>
    simp only [perform, readInput, reduceCtorEq, if_false]
    split
    · rfl
    · split <;> rfl
  | output =>
    simp only [perform, writeOutput, reduceCtorEq, if_false]
    split
    · rfl
    · split <;> rfl
  | increment | decrement =>
    simp only [perform, bump, reduceCtorEq, if_false]
    split <;> rfl
  | _ => rfl

theorem memory_step (m : Machine) :
    m.step.1.memory = m.memory.receiveAll m.width m.pendingStores := by
  have steps := m.steps_step
  generalize m.step = outcome at steps ⊢
  cases steps with
  | outOfStorage none => rw [pendingStores, none]; rfl
  | unknown fetched unknown =>
    simp only [pendingStores, fetched, unknown, reduceCtorEq, if_false]
    rfl
  | @failed cell operand op _ _ fetched known failed =>
    have carried := (m.announced cell operand op).memory_perform op operand
    rw [failed] at carried
    simp only [pendingStores, fetched, known, Option.some.injEq]
    rw [carried]
    split <;> rfl
  | @done cell operand op m' flow fetched known done =>
    have carried := (m.announced cell operand op).memory_perform op operand
    rw [done] at carried
    simp only [pendingStores, fetched, known, Option.some.injEq, memory_put]
    rw [carried]
    split <;> rfl

end Machine

namespace Execution

def stores (stop : Nat) : Nat → Execution → List Store
  | 0, _ => []
  | _ + 1, .finished .. => []
  | n + 1, .running m steps =>
    (if (m.register .pc).toNat < stop then m.pendingStores else []) ++
      stores stop n (next stop (.running m steps))

theorem memory_next (stop : Nat) (m : Machine) (steps : Nat) :
    (next stop (.running m steps)).machine.memory =
      m.memory.receiveAll m.width
        (if (m.register .pc).toNat < stop then m.pendingStores else []) := by
  have stepped := m.memory_step
  have follows := follows_next stop m steps
  generalize next stop (.running m steps) = e at follows ⊢
  cases follows with
  | outside outside => rw [if_neg (by omega)]; rfl
  | failed inside step | halted inside step | left inside step | goesOn inside step =>
    rw [step] at stepped
    rw [if_pos inside]
    exact stepped

theorem memory_after (stop n : Nat) (e : Execution) :
    (after stop n e).machine.memory =
      e.machine.memory.receiveAll e.machine.width (e.stores stop n) := by
  induction n generalizing e with
  | zero => rfl
  | succ n ih =>
    cases e with
    | finished m result => rfl
    | running m steps =>
      have width := (Machine.stable_width m.width).next stop steps (m := m) rfl
      rw [after_running, ih, width, memory_next, stores, Memory.receiveAll_append]
      rfl

end Execution

namespace Machine

/-- The stores of a run that is followed through at most so many stages: those of the
program, unless it is refused, and those of its instructions. -/
def runStores (limit : Nat) (m : Machine) (p : Program) : List Store :=
  if m.width.modulus < p.cellCount then []
  else Program.stores 0 p ++ (m.start p).stores p.cellCount limit

theorem memory_execute (limit : Nat) (m : Machine) (p : Program) :
    (m.execute limit p).machine.memory =
      m.memory.receiveAll m.width (m.runStores limit p) := by
  by_cases refused : m.width.modulus < p.cellCount
  · simp only [execute, start, runStores, refused, if_true, Execution.after_finished]
    rfl
  · have width := (stable_width m.width).loadFrom 0 p (m := m) rfl
    have started : m.start p = .running ((m.loadFrom 0 p).put .pc 0) 0 := if_neg refused
    rw [execute, Execution.memory_after, runStores, if_neg refused, started,
      Memory.receiveAll_append, ← memory_loadFrom]
    simp only [Execution.machine, memory_put, width_put, width]

end Machine

end AccumulatorMachine
