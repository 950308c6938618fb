/-!
# Built-in functions

The functions that are always there. As with declared functions, the name and the arity together
tell which one is meant.
-/

namespace LetLang

/-- A function that is always there and cannot be declared again. -/
inductive Builtin where
  | rand
  | cos
  | sin
  | exp
  | sqrt
  | log
  | print
deriving Repr, DecidableEq

namespace Builtin

/-- All the built-in functions. -/
def all : List Builtin := [rand, cos, sin, exp, sqrt, log, print]

/-- The name that the function is called by. -/
def name : Builtin → String
  | rand => "rand"
  | cos => "cos"
  | sin => "sin"
  | exp => "exp"
  | sqrt => "sqrt"
  | log => "log"
  | print => "print"

/-- The number of parameters. -/
def arity : Builtin → Nat
  | rand => 0
  | cos | sin | exp | sqrt | print => 1
  | log => 2

/-- The built-in function with the given name and arity. -/
def find? (name : String) (arity : Nat) : Option Builtin :=
  all.find? fun b => b.name = name ∧ b.arity = arity

/-- Whether there is a built-in function with the given name and arity. -/
def isBuiltin (name : String) (arity : Nat) : Bool := (find? name arity).isSome

end Builtin

end LetLang
