import AccumulatorMachine.Numeral.Written

/-! A character in single quotes, written so that it can be told apart on one line:
controls, the quote and the escape sign itself never stand bare. -/
namespace AccumulatorMachine.Text

/-- Controls and the two invisible signs of Latin-1: the no-break space and the soft hyphen. -/
def isInvisible (c : Char) : Bool :=
  c.val < 0x20 || (0x7F ≤ c.val && c.val ≤ 0xA0) || c.val == 0xAD

/-- The written form of one character inside the quotes. -/
def escape (c : Char) : String :=
  match c with
  | '\x00' => "\\0"
  | '\t' => "\\t"
  | '\r' => "\\r"
  | '\n' => "\\n"
  | '\\' => "\\\\"
  | '\'' => "\\'"
  | _ =>
    if isInvisible c then "\\u\x7b" ++ Numeral.written 16 c.toNat ++ "\x7d"
    else String.singleton c

def quoted (c : Char) : String :=
  "'" ++ escape c ++ "'"

end AccumulatorMachine.Text
