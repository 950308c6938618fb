import LetLang.Proofs.Context
import LetLang.Proofs.Eval.Environment

/-!
# Stacks of variables and environments

Evaluation with stacks of variables and evaluation in an environment do the same
(`Expr.evalUpTo_refines_evalIn`). `Eval.Refines` says it for one evaluation: in any context it ends
as the pure one does in the environment of the visible values, and the context it leaves differs
from the one it began with only by what the pure one returns. In particular every variable has
exactly the definitions it had, so the property passes through `bind`, and through `withVariable`
with the environment extended.
-/

namespace LetLang

namespace Context

/-- The value that each name has at the top of its stack. -/
def visible (c : Context) : Env := fun x => (c.vars.stack x).head?

/-- What an evaluation in the context may change, apart from the sink. -/
def world (c : Context) : World := ⟨c.functions, c.random⟩

/-- The context after a pure evaluation with the given result. -/
def after (c : Context) (r : Result α) : Context :=
  { c with
    functions := r.world.functions
    random := r.world.random
    sink := c.sink.writeAll r.printed }

@[simp]
theorem visible_after (c : Context) (r : Result α) : (c.after r).visible = c.visible := rfl

@[simp]
theorem world_after (c : Context) (r : Result α) : (c.after r).world = r.world := rfl

/-- Two results in a row are one that prints both. -/
theorem after_after (c : Context) (outcome : Outcome α) (printed : List Value) (w : World)
    (r : Result β) :
    (c.after ⟨outcome, printed, w⟩).after r =
      c.after (⟨r.outcome, printed ++ r.printed, r.world⟩ : Result β) := by
  unfold after
  rw [Sink.writeAll_append]

/-- A variable that is defined is visible with its new value. -/
theorem visible_define (c : Context) (name : String) (v : Value) :
    (c.define name v).visible = c.visible.bind name v := by
  funext x
  show ((c.vars.define name v).stack x).head? = _
  rw [Variables.stack_define]
  unfold Env.bind
  by_cases h : x = name
  · rw [if_pos h, h, Function.update_self]
    rfl
  · rw [if_neg h, Function.update_of_ne h]
    rfl

/-- A lookup in the frames is one in the environment of what is visible. -/
theorem lookup_eq (c : Context) (name : String) (line : Nat) :
    c.lookup name line = c.visible.lookup name line := by
  unfold lookup Env.lookup
  rw [Variables.lookup?_eq_head?]
  rfl

end Context

/-! ### Refinement -/

namespace Eval

/-- The evaluation ends, in every context, as the pure one does in the environment of the visible
values, and changes nothing but what the pure one returns. -/
def Refines (m : Eval α) (f : Env → PureEval α) : Prop :=
  ∀ c, m.run c = (((f c.visible).run c.world).outcome, c.after ((f c.visible).run c.world))

namespace Refines

/-- The result in the environment determines how the evaluation ends in the context. -/
theorem run_eq {m : Eval α} {f : Env → PureEval α} (hm : Refines m f) {c : Context} {r : Result α}
    (hr : (f c.visible).run c.world = r) : m.run c = (r.outcome, c.after r) := by
  rw [hm c, hr]

theorem pure (a : α) : Refines (Pure.pure a) fun _ => Pure.pure a := fun _ => rfl

theorem fail (e : RuntimeError) : Refines (Eval.fail e : Eval α) fun _ => PureEval.fail e :=
  fun _ => rfl

theorem tooDeep : Refines (Eval.tooDeep : Eval α) fun _ => PureEval.tooDeep := fun _ => rfl

theorem ofExcept (x : Except RuntimeError α) :
    Refines (Eval.ofExcept x) fun _ => PureEval.ofExcept x := by
  cases x with
  | ok a => exact pure a
  | error e => exact fail e

/-- A sequence refines a sequence. -/
theorem bind {m : Eval α} {f : Env → PureEval α} {g : α → Eval β} {h : α → Env → PureEval β}
    (hm : Refines m f) (hg : ∀ a, Refines (g a) (h a)) :
    Refines (m >>= g) fun ρ => f ρ >>= fun a => h a ρ := by
  intro c
  rw [run_bind, hm c, PureEval.run_bind]
  rcases (f c.visible).run c.world with ⟨a | e | _, printed, w⟩
  · -- the second evaluation sees the environment that the first one saw
    simp only
    rw [hg a, Context.visible_after, Context.world_after, Context.after_after]
  · rfl
  · rfl

/-- Looking a variable up refines looking it up in the environment. -/
theorem lookup (name : String) (line : Nat) :
    Refines (Eval.read (·.lookup name line)) fun ρ => PureEval.ofExcept (ρ.lookup name line) := by
  intro c
  show (Eval.ofExcept (c.lookup name line)).run c = _
  rw [Context.lookup_eq]
  exact ofExcept _ c

/-- Finding a function is the same in both. -/
theorem findFunction (name : String) (count line : Nat) :
    Refines (Eval.read (·.findFunction name count line))
      fun _ => PureEval.findFunction name count line := by
  intro c
  show (Eval.ofExcept (c.findFunction name count line)).run c = _
  unfold Context.findFunction PureEval.findFunction PureEval.run
  simp only [Context.world]
  cases c.functions.find? name count with
  | some f => rfl
  | none =>
    by_cases hname : c.functions.isFunction name = true
    · simp only [hname, if_true]
      rfl
    · simp only [hname, Bool.false_eq_true, if_false]
      rfl

theorem declare (f : Function) : Refines (Eval.declare f) fun _ => PureEval.declare f := by
  intro c
  unfold Eval.declare Eval.run Context.declare PureEval.declare PureEval.run
  simp only [Context.world]
  by_cases hbuiltin : Builtin.isBuiltin f.name f.arity = true
  · simp only [hbuiltin, if_true]
    rfl
  · by_cases hfree : c.functions.hasOverload f.name f.arity = true
    · simp only [hbuiltin, hfree, Bool.false_eq_true, if_true, if_false]
      rfl
    · simp only [hbuiltin, hfree, Bool.false_eq_true, if_false]
      rfl

theorem print (v : Value) : Refines (Eval.print v) fun _ => PureEval.print v := fun _ => rfl

theorem draw : Refines Eval.draw fun _ => PureEval.draw := fun _ => rfl

/-- The variable that is defined for `m` is at the top when it is removed, because `m` leaves every
stack as it found it. -/
theorem withVariable {m : Eval α} {f : Env → PureEval α} (hm : Refines m f) (name : String)
    (v : Value) : Refines (Eval.withVariable name v m) fun ρ => f (ρ.bind name v) := by
  intro c
  -- inside, the environment is extended, and the functions and random numbers are the same
  have hrun := hm (c.define name v)
  rw [Context.visible_define] at hrun
  have hworld : (c.define name v).world = c.world := rfl
  rw [hworld] at hrun
  show ((m.run (c.define name v)).1, (m.run (c.define name v)).2.remove name) = _
  rw [hrun]
  simp [Context.remove, Context.after, Context.define]

/-- A frame for some variables is an environment that binds them. -/
theorem withVariables {m : Eval α} {f : Env → PureEval α} (hm : Refines m f) :
    ∀ vs : List (String × Value), Refines (Eval.withVariables vs m) fun ρ => f (ρ.bindAll vs)
  | [] => hm
  | (name, v) :: more => (hm.withVariables more).withVariable name v

/-- A builtin refines itself. -/
theorem builtin (b : Builtin) (args : List Value) (line : Nat) :
    Refines (b.run args line) fun _ => b.evalPure args line := by
  cases b with
  | rand =>
    match args with
    | [] => exact draw.bind fun x => pure (Value.number x)
    | _ :: _ => exact fail _
  | print =>
    match args with
    | [v] => exact (print v).bind fun _ => pure v
    | [] => exact fail _
    | _ :: _ :: _ => exact fail _
  | cos => exact ofExcept _
  | sin => exact ofExcept _
  | exp => exact ofExcept _
  | sqrt => exact ofExcept _
  | log => exact ofExcept _

end Refines

end Eval

/-! ### Trees -/

namespace Expr

open Eval

mutual

/-- A tree whose calls refine their pure forms refines its own. -/
theorem evalWith_refines {enter : Expr → Eval Value} {enter' : Expr → Env → PureEval Value}
    (h : ∀ e, Refines (enter e) (enter' e)) :
    ∀ e, Refines (evalWith enter e) (evalInWith enter' e)
  | literal v _ => by
    simp only [evalWith, evalInWith]
    exact .pure v.value
  | unary op operand line => by
    simp only [evalWith, evalInWith]
    exact (evalWith_refines h operand).bind fun v => .ofExcept (v.applyUnary op line)
  | binary op left right line => by
    simp only [evalWith, evalInWith]
    exact (evalWith_refines h left).bind fun l =>
      (evalWith_refines h right).bind fun r => .ofExcept (l.applyBinary op r line)
  | conditional condition onTrue onFalse _ => by
    simp only [evalWith, evalInWith]
    refine (evalWith_refines h condition).bind fun v => ?_
    cases v with
    | bool b =>
      cases b with
      | true => exact evalWith_refines h onTrue
      | false => exact evalWith_refines h onFalse
    | number _ => exact .fail _
    | text _ => exact .fail _
    | nil => exact .fail _
  | var name line => by
    simp only [evalWith, evalInWith]
    exact .lookup name line
  | letIn bindings body _ => by
    simp only [evalWith, evalInWith]
    exact evalLet_refines h bindings (evalWith_refines h body)
  | function name params body line => by
    simp only [evalWith, evalInWith]
    exact (Refines.declare ⟨name, params, body, line⟩).bind fun _ => .pure _
  | call name args line => by
    simp only [evalWith, evalInWith]
    cases Builtin.find? name args.length with
    | some b => exact (evalList_refines h args).bind fun vs => .builtin b vs line
    | none =>
      -- the parameters are pushed after all arguments are evaluated
      exact (Refines.findFunction name args.length line).bind fun f =>
        (evalList_refines h args).bind fun vs => (h f.body).withVariables (f.params.zip vs)

/-- A list of operands is evaluated alike. -/
theorem evalList_refines {enter : Expr → Eval Value} {enter' : Expr → Env → PureEval Value}
    (h : ∀ e, Refines (enter e) (enter' e)) :
    ∀ es, Refines (evalList enter es) (evalListInWith enter' es)
  | [] => by
    simp only [evalList, evalListInWith]
    exact .pure []
  | e :: es => by
    simp only [evalList, evalListInWith]
    exact (evalWith_refines h e).bind fun v =>
      (evalList_refines h es).bind fun vs => .pure (v :: vs)

/-- Running `body` inside the bindings of a `let` is running it in the extended environment. -/
theorem evalLet_refines {enter : Expr → Eval Value} {enter' : Expr → Env → PureEval Value}
    (h : ∀ e, Refines (enter e) (enter' e)) :
    ∀ (bs : List (Binding Expr)) {body : Eval Value} {body' : Env → PureEval Value},
      Refines body body' →
        Refines (evalLet enter bs body) fun ρ => extendWith enter' bs ρ >>= body'
  | [], body, body', hbody => by
    simp only [evalLet, extendWith, pure_bind]
    exact hbody
  | ⟨name, value, _⟩ :: bs, body, body', hbody => by
    simp only [evalLet, extendWith, bind_assoc]
    exact (evalWith_refines h value).bind fun v =>
      (evalLet_refines h bs hbody).withVariable name v

end

/-- Evaluation with stacks of variables refines evaluation in an environment. -/
theorem evalUpTo_refines_evalIn (depth : Nat) (e : Expr) :
    Refines (e.evalUpTo depth) (evalIn depth e) := by
  induction depth generalizing e with
  | zero =>
    simp only [evalUpTo, evalIn]
    exact evalWith_refines (fun _ => .tooDeep) e
  | succ n ih =>
    simp only [evalUpTo, evalIn]
    exact evalWith_refines ih e

/-- **Environment semantics**: let `r` be the result of a tree in the environment of the values at
the tops of the stacks, with the functions and the random numbers of the context. Evaluation in the
context has the same outcome, value or error, prints the same text, if the sink takes any, and
leaves the same functions and random numbers, and the variables as they were. -/
theorem evalUpTo_eq_evalIn (depth : Nat) (e : Expr) (c : Context) :
    let r := (evalIn depth e fun name => (c.vars.stack name).head?).run ⟨c.functions, c.random⟩
    let final := (e.evalUpTo depth).run c
    final.1 = r.outcome ∧
    final.2.sink.text = c.sink.text ++ (if c.sink.accepts then r.text else "") ∧
    final.2.functions = r.world.functions ∧
    final.2.random = r.world.random ∧
    final.2.vars = c.vars := by
  intro r final
  have hrun : final = (r.outcome, c.after r) := evalUpTo_refines_evalIn depth e c
  rw [hrun]
  exact ⟨rfl, Sink.text_writeAll c.sink r.printed, rfl, rfl, rfl⟩

end Expr

end LetLang
