import LetLang.Eval.Expr
import Mathlib.Logic.Relation

/-!
# Evaluations inside another one

An evaluation has others inside it: those of the operands, of the bindings of a `let`, of the
arguments of a call, and of the body of a function that is entered. `Evaluation.Starts` says which
evaluations one starts directly, and in which contexts. Nothing else is evaluated: how an evaluation
ends is determined by how those end that it starts (`Evaluation.runRoot_eq_run`). So what `Starts`
hands on from one evaluation to the next holds of all that is evaluated inside
(`Evaluation.Includes`).
-/

namespace LetLang

/-- Defines the variables of a list, one after the other. -/
def Context.defineAll (c : Context) (ds : List (String × Value)) : Context :=
  ds.foldl (fun c d => c.define d.1 d.2) c

theorem Context.find?_of_findFunction {name : String} {count line : Nat} {c : Context}
    {f : Function} (h : c.findFunction name count line = .ok f) :
    c.functions.find? name count = some f := by
  unfold findFunction at h
  cases hfind : c.functions.find? name count with
  | some g =>
    rw [hfind] at h
    exact congrArg some (Except.ok.inj h)
  | none =>
    simp only [hfind] at h
    by_cases hname : c.functions.isFunction name
    · rw [if_pos hname] at h
      cases h
    · rw [if_neg hname] at h
      cases h

namespace Eval

/-- Two evaluations in a row depend on how the first one ends, and the second one from there. -/
theorem run_bind_congr {m m' : Eval α} {f f' : α → Eval β} {c : Context}
    (hm : m.run c = m'.run c)
    (hf : ∀ a c', m'.run c = (.value a, c') → (f a).run c' = (f' a).run c') :
    (m >>= f).run c = (m' >>= f').run c := by
  rw [run_bind, run_bind, hm]
  rcases hrun : m'.run c with ⟨a | e | _, c'⟩
  · exact hf a c' hrun
  · rfl
  · rfl

theorem run_withVariable (name : String) (v : Value) (m : Eval α) (c : Context) :
    (withVariable name v m).run c =
      ((m.run (c.define name v)).1, (m.run (c.define name v)).2.remove name) := rfl

theorem run_withVariable_congr {name : String} {v : Value} {m m' : Eval α} {c : Context}
    (h : m.run (c.define name v) = m'.run (c.define name v)) :
    (withVariable name v m).run c = (withVariable name v m').run c := by
  rw [run_withVariable, run_withVariable, h]

theorem run_withVariables_congr {ds : List (String × Value)} {m m' : Eval α} {c : Context}
    (h : m.run (c.defineAll ds) = m'.run (c.defineAll ds)) :
    (withVariables ds m).run c = (withVariables ds m').run c := by
  induction ds generalizing c with
  | nil => exact h
  | cons d ds ih => exact run_withVariable_congr (ih h)

theorem run_read_eq_value {f : Context → Except RuntimeError α} {c c' : Context} {a : α}
    (h : (read f).run c = (.value a, c')) : c' = c ∧ f c = .ok a := by
  change (ofExcept (f c)).run c = (.value a, c') at h
  cases hf : f c with
  | ok b =>
    rw [hf] at h
    cases h
    exact ⟨rfl, rfl⟩
  | error e =>
    rw [hf] at h
    cases h

end Eval

namespace Expr

/-- How the bodies of called functions are evaluated when at most `n` calls may be open. -/
def enterUpTo : Nat → Expr → Eval Value
  | 0 => fun _ => Eval.tooDeep
  | n + 1 => evalUpTo n

theorem evalUpTo_eq (n : Nat) : evalUpTo n = evalWith (enterUpTo n) := by
  cases n <;> rfl

/-- Evaluates the trees of a list from left to right, each with `sub`. -/
def listRoot (sub : Expr → Eval Value) : List Expr → Eval (List Value)
  | [] => return []
  | e :: es => do
    let v ← sub e
    let vs ← listRoot sub es
    return v :: vs

/-- Runs `body` with the variables of a `let` defined, evaluating the bindings with `sub`. -/
def letRoot (sub : Expr → Eval Value) : List (Binding Expr) → Eval Value → Eval Value
  | [], body => body
  | ⟨name, value, _⟩ :: bs, body => do
    let v ← sub value
    Eval.withVariable name v (letRoot sub bs body)

/-- Evaluates the root of a tree, given how to evaluate what is below it and the bodies of called
functions. -/
def evalRoot (sub enter : Expr → Eval Value) : Expr → Eval Value
  | literal v _ => return v.value
  | unary op operand line => do
    let v ← sub operand
    Eval.ofExcept (v.applyUnary op line)
  | binary op left right line => do
    let l ← sub left
    let r ← sub right
    Eval.ofExcept (l.applyBinary op r line)
  | conditional condition onTrue onFalse _ => do
    match ← sub condition with
    | .bool true => sub onTrue
    | .bool false => sub onFalse
    | _ => Eval.fail ⟨.conditionNotBool, condition.text, condition.line⟩
  | var name line => Eval.read (·.lookup name line)
  | letIn bindings body _ => letRoot sub bindings (sub body)
  | function name params body line => do
    Eval.declare ⟨name, params, body, line⟩
    return .nil
  | call name args line =>
    match Builtin.find? name args.length with
    | some b => do
      let vs ← listRoot sub args
      b.run vs line
    | none => do
      let f ← Eval.read (·.findFunction name args.length line)
      let vs ← listRoot sub args
      Eval.withVariables (f.params.zip vs) (enter f.body)

end Expr

/-- A tree that is evaluated in a context, with at most `depth` calls open. -/
structure Evaluation where
  depth : Nat
  tree : Expr
  context : Context

namespace Evaluation

/-- How the evaluation ends, and the context that it leaves. -/
def run (E : Evaluation) : Outcome Value × Context := (E.tree.evalUpTo E.depth).run E.context

/-- The bindings of a `let`, evaluated from the context `c` on, lead to the context `c'`, in which
their variables are defined. -/
inductive Defines (depth : Nat) : List (Binding Expr) → Context → Context → Prop
  | nil (c : Context) : Defines depth [] c c
  | cons {name : String} {value : Expr} {line : Nat} {bs : List (Binding Expr)}
    {c c₁ c' : Context} {v : Value} (hvalue : run ⟨depth, value, c⟩ = (.value v, c₁))
    (more : Defines depth bs (c₁.define name v) c') :
    Defines depth (⟨name, value, line⟩ :: bs) c c'

/-- The first evaluation starts the second one as a part of its own. Each part is evaluated in the
context that the parts before it have left. -/
inductive Starts : Evaluation → Evaluation → Prop
  | operand {n line : Nat} {op : UnaryOp} {e : Expr} {c : Context} :
    Starts ⟨n, .unary op e line, c⟩ ⟨n, e, c⟩
  | left {n line : Nat} {op : BinaryOp} {l r : Expr} {c : Context} :
    Starts ⟨n, .binary op l r line, c⟩ ⟨n, l, c⟩
  | right {n line : Nat} {op : BinaryOp} {l r : Expr} {c c' : Context} {v : Value}
    (hleft : run ⟨n, l, c⟩ = (.value v, c')) : Starts ⟨n, .binary op l r line, c⟩ ⟨n, r, c'⟩
  | condition {n line : Nat} {e t f : Expr} {c : Context} :
    Starts ⟨n, .conditional e t f line, c⟩ ⟨n, e, c⟩
  | branch {n line : Nat} {e t f : Expr} {c c' : Context} {b : Bool}
    (hcondition : run ⟨n, e, c⟩ = (.value (.bool b), c')) :
    Starts ⟨n, .conditional e t f line, c⟩ ⟨n, if b then t else f, c'⟩
  | binding {n line : Nat} {before after : List (Binding Expr)} {b : Binding Expr} {body : Expr}
    {c c' : Context} (hbefore : Defines n before c c') :
    Starts ⟨n, .letIn (before ++ b :: after) body line, c⟩ ⟨n, b.value, c'⟩
  | body {n line : Nat} {bs : List (Binding Expr)} {body : Expr} {c c' : Context}
    (hbs : Defines n bs c c') : Starts ⟨n, .letIn bs body line, c⟩ ⟨n, body, c'⟩
  | argument {n line : Nat} {name : String} {before after : List Expr} {e : Expr} {c c' : Context}
    {vs : List Value}
    (hname : Builtin.isBuiltin name (before ++ e :: after).length = true ∨
      c.functions.hasOverload name (before ++ e :: after).length = true)
    (hbefore : (Expr.evalList (Expr.enterUpTo n) before).run c = (.value vs, c')) :
    Starts ⟨n, .call name (before ++ e :: after) line, c⟩ ⟨n, e, c'⟩
  | enter {n line : Nat} {name : String} {args : List Expr} {c c' : Context} {f : Function}
    {vs : List Value} (hbuiltin : Builtin.isBuiltin name args.length = false)
    (hf : c.functions.find? name args.length = some f)
    (hargs : (Expr.evalList (Expr.enterUpTo (n + 1)) args).run c = (.value vs, c')) :
    Starts ⟨n + 1, .call name args line, c⟩ ⟨n, f.body, c'.defineAll (f.params.zip vs)⟩

/-- The second evaluation is the first one, or takes place inside it. -/
def Includes : Evaluation → Evaluation → Prop := Relation.ReflTransGen Starts

/-! ### Nothing else is evaluated -/

/-- Evaluates the root of the tree, and asks `answer` how the evaluations end that this starts. -/
def runRoot (answer : Evaluation → Outcome Value × Context) (E : Evaluation) :
    Outcome Value × Context :=
  (E.tree.evalRoot (fun e c => answer ⟨E.depth, e, c⟩) (enterBy answer E.depth)).run E.context
where
  /-- Asks how the body of a called function ends, if one more call may be open. -/
  enterBy (answer : Evaluation → Outcome Value × Context) : Nat → Expr → Eval Value
    | 0 => fun _ => Eval.tooDeep
    | n + 1 => fun e c => answer ⟨n, e, c⟩

section

variable {n : Nat} {sub : Expr → Eval Value}

/-- The trees of a list are evaluated where the ones before them have led to. -/
theorem run_listRoot {es : List Expr} {c : Context}
    (h : ∀ before e after vs c', es = before ++ e :: after →
      (Expr.evalList (Expr.enterUpTo n) before).run c = (.value vs, c') →
        (sub e).run c' = run ⟨n, e, c'⟩) :
    (Expr.listRoot sub es).run c = (Expr.evalList (Expr.enterUpTo n) es).run c := by
  induction es generalizing c with
  | nil =>
    rw [Expr.evalList]
    rfl
  | cons e es ih =>
    rw [Expr.evalList, ← Expr.evalUpTo_eq]
    apply Eval.run_bind_congr (h [] e es [] c rfl (by rw [Expr.evalList]; rfl))
    intro v c₁ hv
    refine Eval.run_bind_congr (ih fun before e' after vs c' hes hbefore => ?_) fun _ _ _ => rfl
    refine h (e :: before) e' after (v :: vs) c' (by rw [hes]; rfl) ?_
    rw [Expr.evalList, ← Expr.evalUpTo_eq, Eval.run_bind, hv]
    simp only [Eval.run_bind, hbefore, Eval.run_pure]

/-- The bindings of a `let` and its body are evaluated where the bindings before have led to. -/
theorem run_letRoot {bs : List (Binding Expr)} {body body' : Eval Value} {c : Context}
    (h : ∀ before b after c', bs = before ++ b :: after → Defines n before c c' →
      (sub b.value).run c' = run ⟨n, b.value, c'⟩)
    (hbody : ∀ c', Defines n bs c c' → body.run c' = body'.run c') :
    (Expr.letRoot sub bs body).run c = (Expr.evalLet (Expr.enterUpTo n) bs body').run c := by
  induction bs generalizing c with
  | nil =>
    rw [Expr.evalLet]
    exact hbody c (.nil c)
  | cons b bs ih =>
    obtain ⟨name, value, line⟩ := b
    rw [Expr.evalLet, ← Expr.evalUpTo_eq]
    apply Eval.run_bind_congr (h [] ⟨name, value, line⟩ bs c rfl (.nil c))
    intro v c₁ hv
    refine Eval.run_withVariable_congr (ih (fun before b after c' hbs hbefore => ?_) ?_)
    · exact h (⟨name, value, line⟩ :: before) b after c' (by rw [hbs]; rfl) (.cons hv hbefore)
    · exact fun c' hc' => hbody c' (.cons hv hc')

end

/-- **An evaluation depends on the evaluations that it starts, and on no others.** -/
theorem runRoot_eq_run {answer : Evaluation → Outcome Value × Context} {E : Evaluation}
    (h : ∀ E', E.Starts E' → answer E' = E'.run) : E.runRoot answer = E.run := by
  obtain ⟨n, tree, c⟩ := E
  have hrun : run ⟨n, tree, c⟩ = (tree.evalWith (Expr.enterUpTo n)).run c := by
    rw [← Expr.evalUpTo_eq]
    rfl
  rw [hrun]
  cases tree with
  | literal v line =>
    rw [Expr.evalWith]
    rfl
  | unary op operand line =>
    rw [Expr.evalWith, ← Expr.evalUpTo_eq]
    exact Eval.run_bind_congr (h _ .operand) fun _ _ _ => rfl
  | binary op left right line =>
    rw [Expr.evalWith, ← Expr.evalUpTo_eq]
    exact Eval.run_bind_congr (h _ .left) fun _ _ hleft =>
      Eval.run_bind_congr (h _ (.right hleft)) fun _ _ _ => rfl
  | conditional condition onTrue onFalse line =>
    rw [Expr.evalWith, ← Expr.evalUpTo_eq]
    refine Eval.run_bind_congr (h _ .condition) fun v c' hcondition => ?_
    cases v with
    | bool b =>
      cases b with
      | true => exact h _ (.branch hcondition)
      | false => exact h _ (.branch hcondition)
    | number _ => rfl
    | text _ => rfl
    | nil => rfl
  | var name line =>
    rw [Expr.evalWith]
    rfl
  | letIn bindings body line =>
    rw [Expr.evalWith, ← Expr.evalUpTo_eq]
    refine run_letRoot (fun before b after c' hbs hbefore => ?_) fun c' hbs => h _ (.body hbs)
    subst hbs
    exact h _ (.binding hbefore)
  | function name params body line =>
    rw [Expr.evalWith]
    rfl
  | call name args line =>
    rw [Expr.evalWith]
    have hargs (hname : Builtin.isBuiltin name args.length = true ∨
        c.functions.hasOverload name args.length = true) :
        (Expr.listRoot (fun e c => answer ⟨n, e, c⟩) args).run c =
          (Expr.evalList (Expr.enterUpTo n) args).run c := by
      refine run_listRoot fun before e after vs c' heq hbefore => ?_
      subst heq
      exact h _ (.argument hname hbefore)
    unfold runRoot
    dsimp only [Expr.evalRoot]
    cases hbuiltin : Builtin.find? name args.length with
    | some b =>
      refine Eval.run_bind_congr (hargs (.inl ?_)) fun _ _ _ => rfl
      rw [Builtin.isBuiltin, hbuiltin]
      rfl
    | none =>
      refine Eval.run_bind_congr rfl fun f c' hread => ?_
      obtain ⟨rfl, hfound⟩ := Eval.run_read_eq_value hread
      have hf := Context.find?_of_findFunction hfound
      refine Eval.run_bind_congr (hargs (.inr ?_)) fun vs c'' hvs => ?_
      · rw [FunctionTable.hasOverload, hf]
        rfl
      · apply Eval.run_withVariables_congr
        cases n with
        | zero => rfl
        | succ n => exact h _ (.enter (by rw [Builtin.isBuiltin, hbuiltin]; rfl) hf hvs)

end Evaluation

end LetLang
