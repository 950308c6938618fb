import LetLang.Builtin
import LetLang.Context.Functions
import LetLang.Context.Random
import LetLang.Context.Sink
import LetLang.Context.Variables

/-!
# Contexts

What evaluation reads and changes: the variables, the declared functions, the sink that `print`
writes to, and a source of random numbers.
-/

namespace LetLang

/-- What evaluation reads and changes. -/
structure Context where
  vars : Variables := []
  functions : FunctionTable := []
  sink : Sink := Sink.working
  random : RandomSource := RandomSource.ofSeed 0

namespace Context

/-- Adds a definition of `name`. -/
def define (c : Context) (name : String) (v : Value) : Context :=
  { c with vars := c.vars.define name v }

/-- Removes the latest definition of `name`. -/
def remove (c : Context) (name : String) : Context :=
  { c with vars := c.vars.remove name }

/-- Removes one definition for each name of a list. -/
def removeAll (c : Context) (names : List String) : Context :=
  { c with vars := c.vars.removeAll names }

/-- The value of a variable that is used on `line`. -/
def lookup (c : Context) (name : String) (line : Nat) : Except RuntimeError Value :=
  match c.vars.lookup? name with
  | some v => .ok v
  | none => .error ⟨.undeclaredVariable, name, line⟩

/-- Whether a variable has a definition. -/
def isBound (c : Context) (name : String) : Bool := (c.vars.lookup? name).isSome

/-- Declares a function. Neither a built-in function nor another declared one may have its name and
arity. -/
def declare (c : Context) (f : Function) : Except RuntimeError Context :=
  if Builtin.isBuiltin f.name f.arity then
    .error ⟨.builtinRedefinition f.arity, f.name, f.line⟩
  else if c.functions.hasOverload f.name f.arity then
    .error ⟨.functionAlreadyExists f.arity, f.name, f.line⟩
  else .ok { c with functions := f :: c.functions }

/-- The declared function that a call on `line` with `count` arguments runs. -/
def findFunction (c : Context) (name : String) (count line : Nat) :
    Except RuntimeError Function :=
  match c.functions.find? name count with
  | some f => .ok f
  | none =>
    if c.functions.isFunction name then
      .error ⟨.incorrectArity count (c.functions.arities name), name, line⟩
    else .error ⟨.expectedFunction, name, line⟩

/-- Writes a value to the sink. -/
def print (c : Context) (v : Value) : Context := { c with sink := c.sink.write v }

end Context

end LetLang
