/-! Numbers written in a base: the digits with no leading zero, or padded with zeros
to a least count. Digits above nine are lower-case letters. -/
namespace AccumulatorMachine.Numeral

/-- The digits of a number, with no leading zero; the number zero is one digit. -/
def written (base n : Nat) : String :=
  String.ofList (Nat.toDigits base n)

/-- The digits of a number with zeros in front up to `count` digits, more if it needs them. -/
def padded (base count n : Nat) : String :=
  String.ofList ((Nat.toDigits base n).leftpad count '0')

theorem toList_padded (base count n : Nat) :
    (padded base count n).toList =
      List.replicate (count - (Nat.toDigits base n).length) '0' ++ Nat.toDigits base n := by
  simp [padded, List.leftpad]

end AccumulatorMachine.Numeral
