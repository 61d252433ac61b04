/-! A sink takes text piece by piece. It takes a piece whole or refuses it whole, and a
refused piece leaves it as it was. -/
namespace AccumulatorMachine.Text

structure Sink where
  /-- Whether a piece is taken, given the number of pieces offered before it and the
  bytes already taken. -/
  admits : (offered used : Nat) → String → Bool
  offered : Nat := 0
  used : Nat := 0
  pieces : Array String := #[]

namespace Sink

def unlimited : Sink where
  admits _ _ _ := true

/-- Room for so many bytes. After a piece that does not fit, a shorter one may. -/
def limited (capacity : Nat) : Sink where
  admits _ used piece := used + piece.utf8ByteSize ≤ capacity

def ofCapacity : Option Nat → Sink
  | none => unlimited
  | some capacity => limited capacity

def offer (s : Sink) (piece : String) : Sink :=
  if s.admits s.offered s.used piece then
    { s with
      offered := s.offered + 1
      used := s.used + piece.utf8ByteSize
      pieces := s.pieces.push piece }
  else { s with offered := s.offered + 1 }

def takes (s : Sink) (piece : String) : Bool :=
  s.admits s.offered s.used piece

def text (s : Sink) : String :=
  String.join s.pieces.toList

/-- What a sink admits is settled when it is made. -/
@[simp] theorem admits_offer (s : Sink) (piece : String) :
    (s.offer piece).admits = s.admits := by
  simp only [offer]
  split <;> rfl

theorem text_offer (s : Sink) (piece : String) :
    (s.offer piece).text = if s.takes piece then s.text ++ piece else s.text := by
  simp only [offer, takes, text]
  split <;> simp_all

end Sink

end AccumulatorMachine.Text
