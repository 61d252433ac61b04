/-! Numbers as bytes, the most significant byte first. -/
namespace AccumulatorMachine.BigEndian

/-- The last `count` bytes of a number. -/
def encode : (count n : Nat) → List UInt8
  | 0, _ => []
  | count + 1, n => encode count (n / 256) ++ [UInt8.ofNat n]

def decode (bytes : List UInt8) : Nat :=
  bytes.foldl (fun n byte => n * 256 + byte.toNat) 0

@[simp] theorem length_encode (count n : Nat) : (encode count n).length = count := by
  induction count generalizing n with
  | zero => rfl
  | succ count ih => simp [encode, ih]

end AccumulatorMachine.BigEndian
