/-! Numbers read from their digits. A numeral has one digit or more, each below the
base; letters of either case stand for ten and above. A sign is not a digit. -/
namespace AccumulatorMachine.Numeral

/-- What a character counts as a digit, in whatever base. -/
def digitValue? (c : Char) : Option Nat :=
  if '0' ≤ c ∧ c ≤ '9' then some (c.toNat - '0'.toNat)
  else if 'a' ≤ c ∧ c ≤ 'z' then some (c.toNat - 'a'.toNat + 10)
  else if 'A' ≤ c ∧ c ≤ 'Z' then some (c.toNat - 'A'.toNat + 10)
  else none

def digit? (base : Nat) (c : Char) : Option Nat :=
  (digitValue? c).filter (· < base)

/-- The number that digits denote when `high` stands before them. -/
def continue? (base : Nat) : Nat → List Char → Option Nat
  | high, [] => some high
  | high, c :: rest => (digit? base c).bind fun d => continue? base (high * base + d) rest

/-- The number that a text denotes; none if it is empty or has a character that is no digit. -/
def read? (base : Nat) (text : List Char) : Option Nat :=
  if text.isEmpty then none else continue? base 0 text

def readBelow? (bound base : Nat) (text : List Char) : Option Nat :=
  (read? base text).filter (· < bound)

/-- One leading plus sign is skipped. -/
def withoutPlus (text : List Char) : List Char :=
  match text with
  | '+' :: rest => rest
  | _ => text

end AccumulatorMachine.Numeral
