import LetLang.Expr

/-!
# Declared functions

Functions are told apart by their name and their arity, so that one name can stand for several of
them.
-/

namespace LetLang

/-- A function that is declared in the language. -/
structure Function where
  name : String
  params : List String
  body : Expr
  line : Nat

/-- The number of parameters. -/
def Function.arity (f : Function) : Nat := f.params.length

/-- The declared functions, the latest first. Functions of one name differ in their arity. -/
abbrev FunctionTable : Type := List Function

/-- Inserts a number into a strictly ascending list, if it is not there. -/
def insertAscending (n : Nat) : List Nat → List Nat
  | [] => [n]
  | m :: ms => if n < m then n :: m :: ms else if n = m then m :: ms else m :: insertAscending n ms

namespace FunctionTable

/-- The function with the given name and arity. -/
def find? (table : FunctionTable) (name : String) (arity : Nat) : Option Function :=
  List.find? (fun f => f.name = name ∧ f.arity = arity) table

/-- Whether there is a function with the given name and arity. -/
def hasOverload (table : FunctionTable) (name : String) (arity : Nat) : Bool :=
  (table.find? name arity).isSome

/-- Whether there is a function with the given name. -/
def isFunction (table : FunctionTable) (name : String) : Bool := table.any (·.name = name)

/-- The arities of the functions with the given name, in ascending order. -/
def arities (table : FunctionTable) (name : String) : List Nat :=
  (table.filter (·.name = name)).foldr (fun f => insertAscending f.arity) []

end FunctionTable

end LetLang
