import AccumulatorMachine.Machine.StateDump
import AccumulatorMachine.Machine.Step

/-! Running a program: it is loaded at address zero and stepped through until an
instruction halts, control leaves it, or a step fails. A run need not end, so it is given
as the states it goes through. -/
namespace AccumulatorMachine

structure RunSummary where
  steps : Nat
  /-- Whether the last of them was the one that halts. -/
  halted : Bool
  deriving DecidableEq, Repr

inductive Execution
  | running (machine : Machine) (steps : Nat)
  | finished (machine : Machine) (result : Except MachineError RunSummary)

namespace Execution

def machine : Execution → Machine
  | running m _ => m
  | finished m _ => m

def result? : Execution → Option (Except MachineError RunSummary)
  | running .. => none
  | finished _ result => some result

def conclude (m : Machine) (steps : Nat) (halted : Bool) : Execution :=
  .finished (m.record (.finished steps halted)) (.ok ⟨steps, halted⟩)

/-- The next stage. Addresses from `stop` on are outside the program; the address that
control goes to is compared with it before it is narrowed and after. -/
def next (stop : Nat) : Execution → Execution
  | finished m result => .finished m result
  | running m steps =>
    if (m.register .pc).toNat < stop then
      match m.step with
      | (m, .error e) => .finished m (.error e)
      | (m, .ok (flow, successor)) =>
        let m := m.offerTrace m.tracedDump
        if flow = .halt then conclude m (steps + 1) true
        else if stop ≤ successor then conclude m (steps + 1) false
        else .running m (steps + 1)
    else conclude m steps false

/-- The stage that is reached after so many more, or the last one if the run ends before. -/
def after (stop : Nat) : Nat → Execution → Execution
  | 0, e => e
  | _ + 1, .finished m result => .finished m result
  | n + 1, .running m steps => after stop n (next stop (.running m steps))

end Execution

namespace Machine

/-- The first stage of a run. A program is refused if not all its cells have addresses of
the machine's width. -/
def start (m : Machine) (p : Program) : Execution :=
  if m.width.modulus < p.cellCount then
    .finished m (.error (.programTooLarge p.length m.width.bits))
  else .running ((loadFrom 0 p m).put .pc 0) 0

/-- A run of a program, followed through at most so many stages. -/
def execute (limit : Nat) (m : Machine) (p : Program) : Execution :=
  (m.start p).after p.cellCount limit

end Machine

end AccumulatorMachine
