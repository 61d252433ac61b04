import AccumulatorMachine.CommandLine.Path
import AccumulatorMachine.Numeral.Read

/-! The command line: a command, its paths and its switches. Arguments are taken one by
one from the left, and the first one that settles the matter does so, whatever follows. -/
namespace AccumulatorMachine.CommandLine

inductive Command
  /-- Run a file; a width and a wish for a trace come before the settings' own. -/
  | run (path : Path) (bits : Option Nat) (verbose : Bool)
  | compile (path : Path) (destination : Option Path) (bits : Option Nat) (list : Bool)
  | check (path : Path)
  | greet
  deriving DecidableEq, Repr

/-- Why arguments do not come to a command. -/
inductive NoCommand
  /-- They do not follow the rules. -/
  | misuse
  /-- They ask for the list of commands and switches. -/
  | help
  | version
  deriving DecidableEq, Repr

inductive Switch
  | help
  | version
  | bits
  | verbose
  | list
  deriving DecidableEq, Repr

namespace Switch

def letter : Switch → Char
  | help => 'h'
  | version => 'V'
  | bits => 'b'
  | verbose => 'v'
  | list => 'l'

def word : Switch → String
  | help => "help"
  | version => "version"
  | bits => "bits"
  | verbose => "verbose"
  | list => "list"

def takesValue : Switch → Bool
  | bits => true
  | _ => false

end Switch

inductive Verb
  | run
  | compile
  | check
  | help
  deriving DecidableEq, Repr

namespace Verb

def all : List Verb :=
  [run, compile, check, help]

def word : Verb → String
  | run => "run"
  | compile => "compile"
  | check => "check"
  | help => "help"

def ofWord? (word : String) : Option Verb :=
  all.find? (·.word == word)

end Verb

/-- The switches and the number of paths that can be given at one place. -/
structure Grammar where
  switches : List Switch
  paths : Nat
  verbs : Bool := false

def Grammar.top : Grammar where
  switches := [.help, .version]
  paths := 1
  verbs := true

def Verb.grammar : Verb → Grammar
  | run => { switches := [.help, .bits, .verbose], paths := 1 }
  | compile => { switches := [.help, .bits, .list], paths := 2 }
  | check => { switches := [.help], paths := 1 }
  | help => { switches := [], paths := 0 }

structure Given where
  paths : List String := []
  bits : Option Nat := none
  verbose : Bool := false
  list : Bool := false
  awaiting : Option Switch := none
  deriving DecidableEq, Repr

namespace Given

/-- Refuses an empty path and a value that is missing. Both come up only with the next
switch, or at the end. -/
def settle (g : Given) : Except NoCommand Given :=
  if g.awaiting.isSome || g.paths.contains "" then .error .misuse else .ok g

/-- A count of bits in decimal, with or without a sign, that fits 32 bits unsigned. -/
def bits? (text : List Char) : Option Nat :=
  match text with
  | '-' :: digits => Numeral.readBelow? 1 10 digits
  | _ => Numeral.readBelow? UInt32.size 10 (Numeral.withoutPlus text)

/-- A switch by itself; its value, if it takes one, is the next argument. A switch without
a value is not given twice. -/
def flag (g : Given) (s : Switch) : Except NoCommand Given := do
  let g ← g.settle
  match s with
  | .help => .error .help
  | .version => .error .version
  | .verbose => if g.verbose then .error .misuse else .ok { g with verbose := true }
  | .list => if g.list then .error .misuse else .ok { g with list := true }
  | .bits => .ok { g with awaiting := some .bits }

/-- The value of a switch, which has none yet. -/
def setValue (g : Given) (s : Switch) (text : List Char) : Except NoCommand Given := do
  let g ← { g with awaiting := none }.settle
  match s, g.bits, bits? text with
  | .bits, none, some n => .ok { g with bits := some n }
  | _, _, _ => .error .misuse

def addPath (g : Given) (grammar : Grammar) (text : String) : Except NoCommand Given :=
  if g.paths.length < grammar.paths then .ok { g with paths := g.paths ++ [text] }
  else .error .misuse

/-- Letters after a dash. The rest of the letters after one that takes a value is the
value, with or without an equals sign in front. -/
def letters (grammar : Grammar) : List Char → Given → Except NoCommand Given
  | [], g => .ok g
  | c :: rest, g =>
    match grammar.switches.find? (·.letter == c) with
    | none => .error .misuse
    | some s =>
      if s.takesValue then
        match rest with
        | [] => g.flag s
        | '=' :: text => g.setValue s text
        | text => g.setValue s text
      else do
        let g ← g.flag s
        letters grammar rest g

/-- A word after two dashes, with its value if there is an equals sign in it. -/
def word (grammar : Grammar) (text : List Char) (g : Given) : Except NoCommand Given :=
  let name := text.takeWhile (· != '=')
  match grammar.switches.find? (·.word.toList == name), text.dropWhile (· != '=') with
  | some s, [] => g.flag s
  | some s, _ :: text => if s.takesValue then g.setValue s text else .error .misuse
  | none, _ => .error .misuse

end Given

/-- An argument with a dash in front and something behind it. -/
def looksLikeSwitch (argument : List Char) : Bool :=
  match argument with
  | '-' :: _ :: _ => true
  | _ => false

/-- Takes arguments up to a verb, which is given with those after it. After two dashes
alone every argument is a path. -/
def scan (grammar : Grammar) :
    List String → Given → Except NoCommand (Given × Option (Verb × List String))
  | [], g => .ok (g, none)
  | argument :: rest, g =>
    match g.awaiting with
    | some s =>
      if looksLikeSwitch argument.toList then .error .misuse
      else do scan grammar rest (← g.setValue s argument.toList)
    | none =>
      match argument.toList with
      | ['-', '-'] => do
        let g ← rest.foldlM (·.addPath grammar) g
        .ok (g, none)
      | '-' :: '-' :: text => do scan grammar rest (← g.word grammar text)
      | '-' :: c :: text => do scan grammar rest (← g.letters grammar (c :: text))
      | _ =>
        match if grammar.verbs then Verb.ofWord? argument else none with
        | some verb => .ok (g, some (verb, rest))
        | none => do scan grammar rest (← g.addPath grammar argument)

/-- What a verb asks for with all that was given after it. -/
def Verb.command (verb : Verb) (g : Given) : Except NoCommand Command :=
  match verb, g.paths.map fun text => Path.mk text.toList with
  | .run, [path] => .ok (.run path g.bits g.verbose)
  | .compile, [path] => .ok (.compile path none g.bits g.list)
  | .compile, [path, destination] => .ok (.compile path (some destination) g.bits g.list)
  | .check, [path] => .ok (.check path)
  | _, _ => .error .misuse

/-- What follows a verb. After `help` at most one verb may stand. -/
def afterVerb (verb : Verb) (arguments : List String) : Except NoCommand Command :=
  if verb = .help then
    match arguments with
    | [] => .error .help
    | [word] => .error (if (Verb.ofWord? word).isSome then .help else .misuse)
    | _ => .error .misuse
  else do
    let (g, _) ← scan verb.grammar arguments {}
    verb.command (← g.settle)

/-- The command that arguments ask for. A path before a verb is checked, but not used. -/
def Command.ofArguments (arguments : List String) : Except NoCommand Command := do
  match ← scan .top arguments {} with
  | (g, some (verb, rest)) =>
    let command ← afterVerb verb rest
    let _ ← g.settle
    .ok command
  | (g, none) =>
    let g ← g.settle
    match g.paths with
    | [] => .ok .greet
    | path :: _ => .ok (.run ⟨path.toList⟩ none false)

end AccumulatorMachine.CommandLine
