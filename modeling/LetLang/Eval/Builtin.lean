import LetLang.Eval

/-!
# Running built-in functions

A built-in function checks the number of its arguments, then their kinds from left to right.
-/

namespace LetLang

namespace Builtin

/-- The error of calling a built-in function with a wrong number of arguments. -/
def arityError (b : Builtin) (args : List Value) (line : Nat) : RuntimeError :=
  ⟨.incorrectArity args.length [b.arity], b.name, line⟩

/-- A function of one number applied to the one argument. -/
def applyReal (b : Builtin) (f : Float → Float) (args : List Value) (line : Nat) :
    Except RuntimeError Value :=
  match args with
  | [v] => do return .number (f (← v.asNumber line))
  | _ => .error (b.arityError args line)

/-- The logarithm of the second argument to the base that is the first. -/
def applyLog (args : List Value) (line : Nat) : Except RuntimeError Value :=
  match args with
  | [base, v] => do
    let b ← base.asNumber line
    let x ← v.asNumber line
    return .number (x.log / b.log)
  | _ => .error (log.arityError args line)

/-- Runs a built-in function that is called on `line`. -/
def run (b : Builtin) (args : List Value) (line : Nat) : Eval Value :=
  match b with
  | rand =>
    match args with
    | [] => do return .number (← Eval.draw)
    | _ => Eval.fail (b.arityError args line)
  | cos => Eval.ofExcept (b.applyReal Float.cos args line)
  | sin => Eval.ofExcept (b.applyReal Float.sin args line)
  | exp => Eval.ofExcept (b.applyReal Float.exp args line)
  | sqrt => Eval.ofExcept (b.applyReal Float.sqrt args line)
  | log => Eval.ofExcept (applyLog args line)
  | print =>
    match args with
    | [v] => do
      Eval.print v
      return v
    | _ => Eval.fail (b.arityError args line)

end Builtin

end LetLang
