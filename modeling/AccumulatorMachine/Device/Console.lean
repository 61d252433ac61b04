import AccumulatorMachine.Device.Output
import AccumulatorMachine.Text.Quoted
import AccumulatorMachine.Text.Sink
import AccumulatorMachine.Word.Width

/-! The output device that shows each word on a line of its own: in hexadecimal, decimal
and binary, and as a character. The newline is a piece of text by itself, so a sink that
fills up can end on a line without one. -/
namespace AccumulatorMachine

structure Console where
  width : Width
  /-- Bytes that the console takes in all, if there is a limit. -/
  capacity : Option Nat := none
  deriving DecidableEq, Repr

namespace Console

/-- The character of a word; past Latin-1 it is the replacement character. -/
def character (word : UInt64) : Char :=
  if word.toNat < 256 then Char.ofNat word.toNat else '\ufffd'

/-- A word in all its forms. Words of the width fill their digits exactly. -/
def format (w : Width) (word : UInt64) : String :=
  "(0x" ++ Numeral.padded 16 ((w.bits + 3) / 4) word.toNat ++ ", " ++ toString word.toNat ++
    ", 0b" ++ w.binary word ++ ", CHAR: " ++ Text.quoted (character word) ++ ")"

def sink (c : Console) : Text.Sink :=
  .ofCapacity c.capacity

/-- The sink after a word is shown: once the text is refused, no newline is offered. -/
def put (c : Console) (sink : Text.Sink) (word : UInt64) : Text.Sink :=
  let line := format c.width word
  let shown := sink.offer line
  if sink.takes line then shown.offer "\n" else shown

def fits (c : Console) (sink : Text.Sink) (word : UInt64) : Bool :=
  let line := format c.width word
  sink.takes line && (sink.offer line).takes "\n"

def sinkAfter (c : Console) (words : List UInt64) : Text.Sink :=
  words.foldl c.put c.sink

def transcript (c : Console) (words : List UInt64) : String :=
  (c.sinkAfter words).text

@[simp] theorem admits_put (c : Console) (sink : Text.Sink) (word : UInt64) :
    (c.put sink word).admits = sink.admits := by
  simp only [put]
  split <;> simp

theorem admits_sinkAfter (c : Console) (words : List UInt64) :
    (c.sinkAfter words).admits = c.sink.admits := by
  have keep : ∀ sink : Text.Sink, (words.foldl c.put sink).admits = sink.admits := by
    induction words with
    | nil => intro sink; rfl
    | cons word rest ih => intro sink; rw [List.foldl_cons, ih, admits_put]
  exact keep c.sink

/-- Without a limit every word is shown. -/
theorem fits_sinkAfter {c : Console} (unlimited : c.capacity = none) (words : List UInt64)
    (word : UInt64) : c.fits (c.sinkAfter words) word = true := by
  have all : c.sink.admits = fun _ _ _ => true := by
    rw [sink, unlimited]
    rfl
  simp [fits, Text.Sink.takes, admits_sinkAfter, all]

/-- The console as a device. Without a limit no call needs the calls before it. -/
def device (c : Console) : OutputDevice where
  reply earlier word :=
    match c.capacity with
    | none => .ok ()
    | some _ => if c.fits (c.sinkAfter earlier.toList) word then .ok () else .error .sinkFull

end Console

end AccumulatorMachine
