import AccumulatorMachine.Machine.Basic

/-! The dump of a machine's state: the written memory cells, the registers and the flags,
each word in binary, between lines that mark the sections. -/
namespace AccumulatorMachine.Machine

def memoryLines (m : Machine) : List String :=
  m.memory.cells.map fun cell => toString cell.1.toNat ++ " | " ++ m.width.binary cell.2

def registerLines (m : Machine) : List String :=
  Register.all.map fun r => Text.alignRight 3 r.name ++ ": " ++ m.width.binary (m.register r)

def flagsLine (f : Flags) : String :=
  " SR: C=" ++ Flags.digit f.carry ++ " N=" ++ Flags.digit f.negative ++
    " O=" ++ Flags.digit f.overflow ++ " Z=" ++ Flags.digit f.zero

def dumpLines (m : Machine) : List String :=
  ["---MEMORY-BEGIN---"] ++ m.memoryLines ++
    ["----MEMORY-END----", "--REGISTER-BEGIN--"] ++ m.registerLines ++
    [flagsLine m.flags, "---REGISTER-END---"]

def dump (m : Machine) : String :=
  Text.ofLines m.dumpLines

/-- A line of the dump in the trace, where the marking lines are dimmed. -/
def tracedLine (style : Text.Style) (line : String) : String :=
  if line.toList.head? = some '-' then style.dimmed line else line

/-- The dump in the trace, with an empty line after it. -/
def tracedDump (m : Machine) (style : Text.Style) : String :=
  Text.ofLines (m.dumpLines.map (tracedLine style) ++ [""])

end AccumulatorMachine.Machine
