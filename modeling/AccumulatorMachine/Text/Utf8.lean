/-! Text as bytes in UTF-8, the form of source files and of lines that are read in. -/
namespace AccumulatorMachine.Text.Utf8

/-- The text that bytes stand for; none if they are not UTF-8. -/
def decode? (bytes : List UInt8) : Option (List Char) :=
  (String.fromUTF8? ⟨bytes.toArray⟩).map String.toList

def encode (text : List Char) : List UInt8 :=
  (String.ofList text).toUTF8.toList

end AccumulatorMachine.Text.Utf8
