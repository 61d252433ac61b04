/-! What is told about a failure: a message, a stable code to look it up by if it has
one, advice, and the places in the source that it is about. -/
namespace AccumulatorMachine

/-- A stretch of source text, in bytes. -/
structure Span where
  offset : Nat
  length : Nat
  deriving DecidableEq, Repr

structure Diagnostic.Label where
  text : String
  span : Span
  deriving DecidableEq, Repr

structure Diagnostic where
  message : String
  code : Option String := none
  help : Option String := none
  labels : List Diagnostic.Label := []
  deriving DecidableEq, Repr

end AccumulatorMachine
