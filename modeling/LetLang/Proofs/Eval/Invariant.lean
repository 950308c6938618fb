import LetLang.Proofs.Eval.Environment
import LetLang.Proofs.Expr.Subtrees

/-!
# Properties that evaluation keeps

An induction over an evaluation always meets the same steps: it sequences the evaluations of the
children, declares a function, runs a built-in function, or looks up a declared one and enters its
body. `PureEval.KeptBySteps` names what a property has to satisfy at these steps, and
`Expr.evalInWith_keeps` concludes that every tree has it.
-/

namespace LetLang

/-- The property `P` of evaluations holds of all that an evaluation is made of. The declarations and
built-in functions that count are those at nodes that are `allowed`, and the functions whose bodies
are entered are those that are `known`. -/
structure PureEval.KeptBySteps (P : ∀ {α : Type}, PureEval α → Prop) (allowed : Expr → Prop)
    (known : Function → Prop) (enter : Expr → Env → PureEval Value) : Prop where
  pure {α : Type} (a : α) : P (Pure.pure a)
  fail {α : Type} (e : RuntimeError) : P (PureEval.fail e : PureEval α)
  bind {α β : Type} {m : PureEval α} {f : α → PureEval β} : P m → (∀ a, P (f a)) → P (m >>= f)
  declare {name : String} {params : List String} {body : Expr} {line : Nat} :
    allowed (.function name params body line) → P (PureEval.declare ⟨name, params, body, line⟩)
  builtin {name : String} {args : List Expr} {line : Nat} {b : Builtin} (vs : List Value) :
    allowed (.call name args line) → Builtin.find? name args.length = some b →
      P (b.evalPure vs line)
  findFunction {α : Type} {name : String} {count line : Nat} {f : Function → PureEval α} :
    (∀ g, known g → P (f g)) → P (PureEval.findFunction name count line >>= f)
  enter {f : Function} (ρ : Env) : known f → P (enter f.body ρ)

variable {P : ∀ {α : Type}, PureEval α → Prop} {allowed : Expr → Prop} {known : Function → Prop}
  {enter : Expr → Env → PureEval Value}

theorem PureEval.KeptBySteps.ofExcept (h : KeptBySteps P allowed known enter)
    (x : Except RuntimeError α) : P (PureEval.ofExcept x) := by
  cases x with
  | ok a => exact h.pure a
  | error e => exact h.fail e

namespace Expr

mutual

/-- A tree whose nodes are all allowed has every property that the steps of evaluation keep. -/
theorem evalInWith_keeps (h : PureEval.KeptBySteps P allowed known enter) :
    ∀ (e : Expr) (ρ : Env), (∀ s ∈ e.subtrees, allowed s) → P (evalInWith enter e ρ)
  | literal v _, _, _ => by
    simp only [evalInWith]
    exact h.pure v.value
  | unary op operand line, ρ, he => by
    simp only [subtrees, List.forall_mem_cons] at he
    simp only [evalInWith]
    exact h.bind (evalInWith_keeps h operand ρ he.2) fun v =>
      h.ofExcept (v.applyUnary op line)
  | binary op left right line, ρ, he => by
    simp only [subtrees, List.forall_mem_cons, List.forall_mem_append] at he
    simp only [evalInWith]
    exact h.bind (evalInWith_keeps h left ρ he.2.1) fun l =>
      h.bind (evalInWith_keeps h right ρ he.2.2) fun r =>
        h.ofExcept (l.applyBinary op r line)
  | conditional condition onTrue onFalse _, ρ, he => by
    simp only [subtrees, List.forall_mem_cons, List.forall_mem_append] at he
    simp only [evalInWith]
    refine h.bind (evalInWith_keeps h condition ρ he.2.1) fun v => ?_
    cases v with
    | bool b =>
      cases b with
      | true => exact evalInWith_keeps h onTrue ρ he.2.2.1
      | false => exact evalInWith_keeps h onFalse ρ he.2.2.2
    | number _ => exact h.fail _
    | text _ => exact h.fail _
    | nil => exact h.fail _
  | var name line, ρ, _ => by
    simp only [evalInWith]
    exact h.ofExcept (ρ.lookup name line)
  | letIn bindings body _, ρ, he => by
    simp only [subtrees, List.forall_mem_cons, List.forall_mem_append] at he
    simp only [evalInWith]
    exact h.bind (extendWith_keeps h bindings ρ he.2.1) fun inner =>
      evalInWith_keeps h body inner he.2.2
  | function name params body line, _, he => by
    simp only [subtrees, List.forall_mem_cons] at he
    simp only [evalInWith]
    exact h.bind (h.declare he.1) fun _ => h.pure _
  | call name args line, ρ, he => by
    simp only [subtrees, List.forall_mem_cons] at he
    simp only [evalInWith]
    cases hb : Builtin.find? name args.length with
    | some b => exact h.bind (evalListInWith_keeps h args ρ he.2) fun vs => h.builtin vs he.1 hb
    | none =>
      -- the function is looked up before the arguments are evaluated
      refine h.findFunction fun f hf => ?_
      exact h.bind (evalListInWith_keeps h args ρ he.2) fun vs => h.enter _ hf

/-- A list of operands keeps what steps keep. -/
theorem evalListInWith_keeps (h : PureEval.KeptBySteps P allowed known enter) :
    ∀ (es : List Expr) (ρ : Env), (∀ s ∈ listSubtrees es, allowed s) →
      P (evalListInWith enter es ρ)
  | [], _, _ => by
    simp only [evalListInWith]
    exact h.pure []
  | e :: es, ρ, he => by
    simp only [listSubtrees, List.forall_mem_append] at he
    simp only [evalListInWith]
    exact h.bind (evalInWith_keeps h e ρ he.1) fun v =>
      h.bind (evalListInWith_keeps h es ρ he.2) fun vs => h.pure (v :: vs)

/-- The bindings of a `let` keep what steps keep. -/
theorem extendWith_keeps (h : PureEval.KeptBySteps P allowed known enter) :
    ∀ (bs : List (Binding Expr)) (ρ : Env), (∀ s ∈ bindingSubtrees bs, allowed s) →
      P (extendWith enter bs ρ)
  | [], ρ, _ => by
    simp only [extendWith]
    exact h.pure ρ
  | ⟨name, value, _⟩ :: bs, ρ, he => by
    simp only [bindingSubtrees, List.forall_mem_append] at he
    simp only [extendWith]
    exact h.bind (evalInWith_keeps h value ρ he.1) fun v =>
      extendWith_keeps h bs (ρ.bind name v) he.2

end

end Expr

end LetLang
