import LetLang.Value

/-!
# Sinks

What `print` writes is kept as a list of values, which `printedText` turns into text.
-/

namespace LetLang

/-- Where `print` writes: the values written so far, and whether the sink takes any at all. -/
structure Sink where
  written : Array Value := #[]
  accepts : Bool := true

namespace Sink

/-- A sink that takes what is written. -/
def working : Sink := {}

/-- A sink that takes nothing. -/
def broken : Sink := { accepts := false }

/-- Writes a value, if the sink takes it. -/
def write (s : Sink) (v : Value) : Sink :=
  if s.accepts then { s with written := s.written.push v } else s

/-- The values written after the first `n`. -/
def since (s : Sink) (n : Nat) : List Value := s.written.toList.drop n

end Sink

/-- The text of printed values: each on a line of its own. -/
def printedText (vs : List Value) : String := String.join (vs.map fun v => v.display ++ "\n")

end LetLang
