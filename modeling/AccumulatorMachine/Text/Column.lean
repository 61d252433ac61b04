/-! Columns of a table: text padded with spaces to a least width, never cut.
A text that outgrows its column keeps all its characters. -/
namespace AccumulatorMachine.Text

/-- Padded on the left, so that the texts of a column end together. -/
def alignRight (width : Nat) (text : String) : String :=
  String.ofList (text.toList.leftpad width ' ')

/-- Padded on the right, so that the texts of a column start together. -/
def alignLeft (width : Nat) (text : String) : String :=
  String.ofList (text.toList.rightpad width ' ')

/-- A text of several lines, each ended by a newline. -/
def ofLines (lines : List String) : String :=
  String.join (lines.map (· ++ "\n"))

theorem toList_alignRight (width : Nat) (text : String) :
    (alignRight width text).toList =
      List.replicate (width - text.toList.length) ' ' ++ text.toList := by
  simp [alignRight, List.leftpad]

theorem toList_alignLeft (width : Nat) (text : String) :
    (alignLeft width text).toList =
      text.toList ++ List.replicate (width - text.toList.length) ' ' := by
  simp [alignLeft, List.rightpad]

end AccumulatorMachine.Text
