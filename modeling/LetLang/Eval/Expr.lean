import LetLang.Eval.Builtin
import LetLang.Expr.Text

/-!
# Evaluating expressions

`Expr.evalUpTo n` evaluates a tree with at most `n` calls of declared functions open at the same
time. Operands and arguments are evaluated from left to right. Variables that a `let` or a call has
defined are removed again on every way out, and a function sees the variables of its caller.
-/

namespace LetLang

namespace Expr

mutual

/-- Evaluates a tree, given how to evaluate the bodies of called functions. -/
def evalWith (enter : Expr → Eval Value) : Expr → Eval Value
  | literal v _ => return v.value
  | unary op operand line => do
    let v ← evalWith enter operand
    Eval.ofExcept (v.applyUnary op line)
  | binary op left right line => do
    let l ← evalWith enter left
    let r ← evalWith enter right
    Eval.ofExcept (l.applyBinary op r line)
  | conditional condition onTrue onFalse _ => do
    match ← evalWith enter condition with
    | .bool true => evalWith enter onTrue
    | .bool false => evalWith enter onFalse
    | _ => Eval.fail ⟨.conditionNotBool, condition.text, condition.line⟩
  | var name line => Eval.read (·.lookup name line)
  | letIn bindings body _ => evalLet enter bindings (evalWith enter body)
  | function name params body line => do
    Eval.declare ⟨name, params, body, line⟩
    return .nil
  | call name args line =>
    match Builtin.find? name args.length with
    | some b => do
      let vs ← evalList enter args
      b.run vs line
    | none => do
      let f ← Eval.read (·.findFunction name args.length line)
      let vs ← evalList enter args
      Eval.withVariables (f.params.zip vs) (enter f.body)

/-- Evaluates the trees of a list from left to right. -/
def evalList (enter : Expr → Eval Value) : List Expr → Eval (List Value)
  | [] => return []
  | e :: es => do
    let v ← evalWith enter e
    let vs ← evalList enter es
    return v :: vs

/-- Runs `body` with the variables of a `let` defined, each one visible to the bindings after it. -/
def evalLet (enter : Expr → Eval Value) : List (Binding Expr) → Eval Value → Eval Value
  | [], body => body
  | ⟨name, value, _⟩ :: bs, body => do
    let v ← evalWith enter value
    Eval.withVariable name v (evalLet enter bs body)

end

/-- Evaluates a tree with at most `n` calls of declared functions open at the same time. -/
def evalUpTo : Nat → Expr → Eval Value
  | 0 => evalWith fun _ => Eval.tooDeep
  | n + 1 => evalWith (evalUpTo n)

end Expr

end LetLang
