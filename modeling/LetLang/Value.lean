import LetLang.Expr.Text

/-!
# Values

The values that expressions evaluate to, the runtime errors that stop an evaluation, and what the
operators do with values. Operands are checked from left to right before anything is computed.
-/

namespace LetLang

/-- A value. `nil` is the value of a declaration. -/
inductive Value where
  | number (value : Float)
  | text (value : String)
  | bool (value : Bool)
  | nil
deriving DecidableEq

/-- The value that a literal denotes. -/
def Literal.value : Literal → Value
  | number x => .number x
  | quoted s => .text s
  | bool b => .bool b

/-! ### Runtime errors -/

/-- Why an evaluation stops. -/
inductive RuntimeFault where
  | expectedNumber
  | expectedBool
  | expectedText
  | conditionNotBool
  | undeclaredVariable
  | expectedFunction
  | incorrectArity (found : Nat) (declared : List Nat)
  | builtinRedefinition (arity : Nat)
  | functionAlreadyExists (arity : Nat)
deriving Repr, DecidableEq

/-- A list of numbers of parameters, between brackets. -/
def aritiesText (arities : List Nat) : String :=
  "[" ++ commaSeparated (arities.map Nat.repr) ++ "]"

/-- The wording of a runtime fault. -/
def RuntimeFault.message : RuntimeFault → String
  | expectedNumber => "Must be number."
  | expectedBool => "Must be boolean."
  | expectedText => "Must be string."
  | conditionNotBool => "Condition must be a boolean expression."
  | undeclaredVariable => "is not declared."
  | expectedFunction => "Expected function."
  | incorrectArity found declared =>
    let arities := aritiesText declared
    s!"incorrect arity for this function: called with {found}, declared with {arities}."
  | builtinRedefinition _ => "is a built-in function."
  | functionAlreadyExists _ => "already exists."

/-- A runtime fault, with the text of what is at fault and the line it is reported on. -/
structure RuntimeError where
  fault : RuntimeFault
  token : String
  line : Nat
deriving Repr, DecidableEq

namespace Value

/-- The text of a value, as it is printed. -/
def display : Value → String
  | number x => Decimal.text x
  | text s => s
  | bool b => boolText b
  | nil => "nil"

/-- Whether the value is `nil`. -/
def isNil : Value → Bool
  | nil => true
  | _ => false

/-- Whether two values are equal. Numbers compare as doubles: `0` equals `-0`, and what is not a
number differs from itself. -/
def equals : Value → Value → Bool
  | number x, number y => x == y
  | text s, text t => s == t
  | bool a, bool b => a == b
  | nil, nil => true
  | _, _ => false

/-! ### Operands -/

/-- The number that an operand must be. -/
def asNumber (line : Nat) : Value → Except RuntimeError Float
  | number x => .ok x
  | v => .error ⟨.expectedNumber, v.display, line⟩

/-- The truth value that an operand must be. -/
def asBool (line : Nat) : Value → Except RuntimeError Bool
  | bool b => .ok b
  | v => .error ⟨.expectedBool, v.display, line⟩

/-- The text of an operand of a concatenation, which must be a text or a number. -/
def asText (line : Nat) : Value → Except RuntimeError String
  | text s => .ok s
  | number x => .ok (Decimal.text x)
  | v => .error ⟨.expectedText, v.display, line⟩

end Value

/-! ### Operators -/

/-- What a binary operator does with its operands. -/
inductive BinaryOp.Action where
  | arithmetic (f : Float → Float → Float)
  | order (f : Float → Float → Bool)
  /-- Compares values of any kind; the outcome is what the two being equal has to be. -/
  | equality (outcome : Bool)
  | connective (f : Bool → Bool → Bool)
  | concatenation

/-- What each binary operator does. -/
def BinaryOp.action : BinaryOp → Action
  | add => .arithmetic (· + ·)
  | subtract => .arithmetic (· - ·)
  | multiply => .arithmetic (· * ·)
  | divide => .arithmetic (· / ·)
  | remainder => .arithmetic Double.remainder
  | power => .arithmetic Float.pow
  | concat => .concatenation
  | less => .order fun x y => x < y
  | lessEqual => .order fun x y => x ≤ y
  | greater => .order fun x y => y < x
  | greaterEqual => .order fun x y => y ≤ x
  | equal => .equality true
  | notEqual => .equality false
  | and => .connective (· && ·)
  | or => .connective (· || ·)

namespace Value

/-- Two operands that must be numbers. -/
def asNumbers (line : Nat) (left right : Value) : Except RuntimeError (Float × Float) := do
  let x ← left.asNumber line
  let y ← right.asNumber line
  return (x, y)

/-- Two operands that must be truth values. -/
def asBools (line : Nat) (left right : Value) : Except RuntimeError (Bool × Bool) := do
  let a ← left.asBool line
  let b ← right.asBool line
  return (a, b)

/-- A unary operator applied to a value. -/
def applyUnary (op : UnaryOp) (v : Value) (line : Nat) : Except RuntimeError Value :=
  match op with
  | .negate => do return number (-(← v.asNumber line))
  | .not => do return bool (!(← v.asBool line))

/-- A binary operator applied to two values. -/
def applyBinary (op : BinaryOp) (left right : Value) (line : Nat) : Except RuntimeError Value :=
  match op.action with
  | .arithmetic f => do
    let (x, y) ← asNumbers line left right
    return number (f x y)
  | .order f => do
    let (x, y) ← asNumbers line left right
    return bool (f x y)
  | .equality outcome => return bool (left.equals right == outcome)
  | .connective f => do
    let (a, b) ← asBools line left right
    return bool (f a b)
  | .concatenation => do
    let s ← left.asText line
    let t ← right.asText line
    return text (s ++ t)

/-- A comparison of two values. An operator that compares nothing has no result, but its operands
must be numbers all the same. -/
def compare? (op : BinaryOp) (left right : Value) (line : Nat) :
    Except RuntimeError (Option Bool) :=
  match op.action with
  | .equality outcome => return some (left.equals right == outcome)
  | .order f => do
    let (x, y) ← asNumbers line left right
    return some (f x y)
  | _ => do
    let _ ← asNumbers line left right
    return none

/-- A connective applied to two truth values. An operator that is no connective has no result, but
its operands must be truth values all the same. -/
def connect? (op : BinaryOp) (left right : Value) (line : Nat) :
    Except RuntimeError (Option Bool) :=
  match op.action with
  | .connective f => do
    let (a, b) ← asBools line left right
    return some (f a b)
  | _ => do
    let _ ← asBools line left right
    return none

end Value

end LetLang
