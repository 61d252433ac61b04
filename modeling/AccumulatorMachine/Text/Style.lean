/-! How text is set apart on a terminal: not at all, or by control sequences around it. -/
namespace AccumulatorMachine.Text

inductive Style
  | plain
  | ansi
  deriving DecidableEq, Repr

namespace Style

/-- Text with a display attribute of a terminal, given by its number. -/
def withAttribute (style : Style) (number : Nat) (text : String) : String :=
  match style with
  | plain => text
  | ansi => s!"\x1b[{number}m" ++ text ++ "\x1b[0m"

def dimmed (style : Style) (text : String) : String :=
  style.withAttribute 2 text

def cyan (style : Style) (text : String) : String :=
  style.withAttribute 36 text

end Style

end AccumulatorMachine.Text
