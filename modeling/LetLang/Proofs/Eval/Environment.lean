import LetLang.Eval.Expr
import LetLang.Proofs.Context
import Mathlib.Logic.Function.Basic

/-!
# Evaluation in an environment

A second way to evaluate a tree, in which no variable is ever defined or removed. The values of the
names are an environment that is handed down and extended on the way: a `let` evaluates each binding
in the environment that the earlier ones extend, and a call evaluates its arguments in the
environment of the caller and then the body in that environment, extended by the parameters. What
comes back is the outcome, the values printed on the way, and the world afterwards: the declared
functions and the source of random numbers.
-/

namespace LetLang

/-! ### Environments -/

/-- The value that each name stands for, if it stands for one. -/
abbrev Env : Type := String → Option Value

namespace Env

/-- The environment in which `name` stands for `v`, and every other name for what it did. -/
def bind (ρ : Env) (name : String) (v : Value) : Env := Function.update ρ name (some v)

/-- The environment extended by the definitions of a list, the last of which wins. -/
def bindAll : Env → List (String × Value) → Env
  | ρ, [] => ρ
  | ρ, (name, v) :: more => bindAll (ρ.bind name v) more

/-- The value of a variable that is used on `line`. -/
def lookup (ρ : Env) (name : String) (line : Nat) : Except RuntimeError Value :=
  match ρ name with
  | some v => .ok v
  | none => .error ⟨.undeclaredVariable, name, line⟩

end Env

/-! ### Pure evaluations -/

/-- What an evaluation changes apart from what it prints. -/
structure World where
  functions : FunctionTable
  random : RandomSource

/-- How a pure evaluation ends, what it printed, and the world that it leaves. -/
structure Result (α : Type) where
  outcome : Outcome α
  printed : List Value
  world : World

/-- The text that an evaluation printed. -/
def Result.text (r : Result α) : String := printedText r.printed

/-- An evaluation as a function of the world. -/
def PureEval (α : Type) : Type := World → Result α

namespace PureEval

/-- Runs an evaluation in a world. -/
def run (m : PureEval α) (w : World) : Result α := m w

instance : Monad PureEval where
  pure a := fun w => ⟨.value a, [], w⟩
  bind m f := fun w =>
    match m w with
    | ⟨.value a, printed, w'⟩ =>
      let r := f a w'
      ⟨r.outcome, printed ++ r.printed, r.world⟩
    | ⟨.error e, printed, w'⟩ => ⟨.error e, printed, w'⟩
    | ⟨.tooDeep, printed, w'⟩ => ⟨.tooDeep, printed, w'⟩

@[simp]
theorem run_pure (a : α) (w : World) : (pure a : PureEval α).run w = ⟨.value a, [], w⟩ := rfl

theorem run_bind (m : PureEval α) (f : α → PureEval β) (w : World) :
    (m >>= f).run w =
      match m.run w with
      | ⟨.value a, printed, w'⟩ =>
        ⟨((f a).run w').outcome, printed ++ ((f a).run w').printed, ((f a).run w').world⟩
      | ⟨.error e, printed, w'⟩ => ⟨.error e, printed, w'⟩
      | ⟨.tooDeep, printed, w'⟩ => ⟨.tooDeep, printed, w'⟩ := rfl

/-- Two evaluations in a row give a value if both do. -/
theorem run_bind_eq_value {m : PureEval α} {f : α → PureEval β} {w w' : World} {b : β}
    {printed : List Value} (h : (m >>= f).run w = ⟨.value b, printed, w'⟩) :
    ∃ a p w₁ p', m.run w = ⟨.value a, p, w₁⟩ ∧ (f a).run w₁ = ⟨.value b, p', w'⟩ := by
  rw [run_bind] at h
  rcases hm : m.run w with ⟨a | e | _, p, w₁⟩ <;> rw [hm] at h
  · rcases hf : (f a).run w₁ with ⟨outcome, p', w₂⟩
    simp only [hf] at h
    obtain ⟨rfl, -, rfl⟩ := Result.mk.inj h
    exact ⟨a, p, w₁, p', rfl, hf⟩
  · cases h
  · cases h

/-- The error of two evaluations in a row is that of the first or, if it has a value, that of the
second. -/
theorem run_bind_eq_error {m : PureEval α} {f : α → PureEval β} {w w' : World} {e : RuntimeError}
    {printed : List Value} (h : (m >>= f).run w = ⟨.error e, printed, w'⟩) :
    (∃ p, m.run w = ⟨.error e, p, w'⟩) ∨
    ∃ a p w₁ p', m.run w = ⟨.value a, p, w₁⟩ ∧ (f a).run w₁ = ⟨.error e, p', w'⟩ := by
  rw [run_bind] at h
  rcases hm : m.run w with ⟨a | e | _, p, w₁⟩ <;> rw [hm] at h
  · rcases hf : (f a).run w₁ with ⟨outcome, p', w₂⟩
    simp only [hf] at h
    obtain ⟨rfl, -, rfl⟩ := Result.mk.inj h
    exact .inr ⟨a, p, w₁, p', rfl, hf⟩
  · obtain ⟨⟨rfl⟩, -, rfl⟩ := Result.mk.inj h
    exact .inl ⟨p, rfl⟩
  · cases h

instance : LawfulMonad PureEval :=
  LawfulMonad.mk' PureEval
    (fun m => by
      funext w
      show (m >>= fun a => pure a).run w = m.run w
      rw [run_bind]
      rcases m.run w with ⟨_ | _ | _, _, _⟩ <;> simp)
    (fun _ _ => rfl)
    (fun m f g => by
      funext w
      show ((m >>= f) >>= g).run w = (m >>= fun a => f a >>= g).run w
      simp only [run_bind]
      rcases m.run w with ⟨a | _ | _, _, w'⟩
      · simp only
        rcases (f a).run w' with ⟨_ | _ | _, _, _⟩ <;> simp
      · rfl
      · rfl)

/-- Ends with a runtime error. -/
def fail (e : RuntimeError) : PureEval α := fun w => ⟨.error e, [], w⟩

/-- Ends because no more calls may be open. -/
def tooDeep : PureEval α := fun w => ⟨.tooDeep, [], w⟩

/-- The value of a computation that leaves the world alone. -/
def ofExcept : Except RuntimeError α → PureEval α
  | .ok a => pure a
  | .error e => fail e

/-- Declares a function, unless its name and arity are taken. -/
def declare (f : Function) : PureEval Unit := fun w =>
  if Builtin.isBuiltin f.name f.arity then
    ⟨.error ⟨.builtinRedefinition f.arity, f.name, f.line⟩, [], w⟩
  else if w.functions.hasOverload f.name f.arity then
    ⟨.error ⟨.functionAlreadyExists f.arity, f.name, f.line⟩, [], w⟩
  else ⟨.value (), [], { w with functions := f :: w.functions }⟩

/-- The declared function that a call on `line` with `count` arguments runs. -/
def findFunction (name : String) (count line : Nat) : PureEval Function := fun w =>
  match w.functions.find? name count with
  | some f => ⟨.value f, [], w⟩
  | none =>
    if w.functions.isFunction name then
      ⟨.error ⟨.incorrectArity count (w.functions.arities name), name, line⟩, [], w⟩
    else ⟨.error ⟨.expectedFunction, name, line⟩, [], w⟩

/-- A declaration adds the function, if its name and arity are free, or else fails. It depends on
the declared functions alone. -/
theorem run_declare_cases (f : Function) (F : FunctionTable) :
    (∃ e, F.declare f = F ∧ ∀ r, (declare f).run ⟨F, r⟩ = ⟨.error e, [], ⟨F, r⟩⟩) ∨
    (Builtin.isBuiltin f.name f.arity = false ∧ F.hasOverload f.name f.arity = false ∧
      F.declare f = f :: F ∧ ∀ r, (declare f).run ⟨F, r⟩ = ⟨.value (), [], ⟨f :: F, r⟩⟩) := by
  dsimp only [run, declare, FunctionTable.declare]
  by_cases hbuiltin : Builtin.isBuiltin f.name f.arity = true
  · exact .inl ⟨_, if_pos (.inl hbuiltin), fun r => if_pos hbuiltin⟩
  · simp only [if_neg hbuiltin]
    by_cases hfree : F.hasOverload f.name f.arity = true
    · exact .inl ⟨_, if_pos (.inr hfree), fun r => if_pos hfree⟩
    · refine .inr ⟨by simpa using hbuiltin, by simpa using hfree, ?_, fun r => if_neg hfree⟩
      exact if_neg (not_or.mpr ⟨hbuiltin, hfree⟩)

/-- Looking up a function changes nothing, and finds what the table has under the name and the
arity. It depends on the declared functions alone. -/
theorem run_findFunction_cases (name : String) (count line : Nat) (F : FunctionTable) :
    (∃ e, ∀ r, (findFunction name count line).run ⟨F, r⟩ = ⟨.error e, [], ⟨F, r⟩⟩) ∨
    ∃ f, F.find? name count = some f ∧
      ∀ r, (findFunction name count line).run ⟨F, r⟩ = ⟨.value f, [], ⟨F, r⟩⟩ := by
  dsimp only [run, findFunction]
  cases hfind : F.find? name count with
  | some f => exact .inr ⟨f, rfl, fun r => rfl⟩
  | none =>
    left
    by_cases hname : F.isFunction name = true
    · exact ⟨_, fun r => if_pos hname⟩
    · exact ⟨_, fun r => if_neg hname⟩

/-- Prints a value. -/
def print (v : Value) : PureEval Unit := fun w => ⟨.value (), [v], w⟩

/-- Draws a random number. -/
def draw : PureEval Float := fun w =>
  ⟨.value w.random.current, [], { w with random := w.random.advance }⟩

end PureEval

/-- Runs a built-in function that is called on `line`. -/
def Builtin.evalPure (b : Builtin) (args : List Value) (line : Nat) : PureEval Value :=
  match b, args with
  | .rand, [] => do return .number (← PureEval.draw)
  | .print, [v] => do
    PureEval.print v
    return v
  | .rand, _ | .print, _ => PureEval.fail (b.arityError args line)
  | .cos, _ => PureEval.ofExcept (b.applyReal Float.cos args line)
  | .sin, _ => PureEval.ofExcept (b.applyReal Float.sin args line)
  | .exp, _ => PureEval.ofExcept (b.applyReal Float.exp args line)
  | .sqrt, _ => PureEval.ofExcept (b.applyReal Float.sqrt args line)
  | .log, _ => PureEval.ofExcept (applyLog args line)

/-- A built-in function draws a random number, prints its argument, or does neither. -/
theorem Builtin.evalPure_cases (b : Builtin) (args : List Value) (line : Nat) :
    (∃ x, b.evalPure args line = PureEval.ofExcept x) ∨
    (b = .rand ∧ ∀ w, (b.evalPure args line).run w =
      ⟨.value (.number w.random.current), [], { w with random := w.random.advance }⟩) ∨
    ∃ v, ∀ w, (b.evalPure args line).run w = ⟨.value v, [v], w⟩ := by
  cases b with
  | rand =>
    match args with
    | [] => exact .inr (.inl ⟨rfl, fun _ => rfl⟩)
    | _ :: _ => exact .inl ⟨.error _, rfl⟩
  | print =>
    match args with
    | [v] => exact .inr (.inr ⟨v, fun _ => rfl⟩)
    | [] => exact .inl ⟨.error _, rfl⟩
    | _ :: _ :: _ => exact .inl ⟨.error _, rfl⟩
  | cos | sin | exp | sqrt | log => exact .inl ⟨_, rfl⟩

/-! ### Trees -/

namespace Expr

mutual

/-- Evaluates a tree in an environment, given how to evaluate the bodies of called functions. -/
def evalInWith (enter : Expr → Env → PureEval Value) : Expr → Env → PureEval Value
  | literal v _, _ => return v.value
  | unary op operand line, ρ => do
    let v ← evalInWith enter operand ρ
    PureEval.ofExcept (v.applyUnary op line)
  | binary op left right line, ρ => do
    let l ← evalInWith enter left ρ
    let r ← evalInWith enter right ρ
    PureEval.ofExcept (l.applyBinary op r line)
  | conditional condition onTrue onFalse _, ρ => do
    match ← evalInWith enter condition ρ with
    | .bool true => evalInWith enter onTrue ρ
    | .bool false => evalInWith enter onFalse ρ
    | _ => PureEval.fail ⟨.conditionNotBool, condition.text, condition.line⟩
  | var name line, ρ => PureEval.ofExcept (ρ.lookup name line)
  | letIn bindings body _, ρ => do
    let inner ← extendWith enter bindings ρ
    evalInWith enter body inner
  | function name params body line, _ => do
    PureEval.declare ⟨name, params, body, line⟩
    return .nil
  | call name args line, ρ =>
    match Builtin.find? name args.length with
    | some b => do
      let vs ← evalListInWith enter args ρ
      b.evalPure vs line
    | none => do
      let f ← PureEval.findFunction name args.length line
      let vs ← evalListInWith enter args ρ
      enter f.body (ρ.bindAll (f.params.zip vs))

/-- Evaluates the trees of a list from left to right, all in one environment. -/
def evalListInWith (enter : Expr → Env → PureEval Value) :
    List Expr → Env → PureEval (List Value)
  | [], _ => return []
  | e :: es, ρ => do
    let v ← evalInWith enter e ρ
    let vs ← evalListInWith enter es ρ
    return v :: vs

/-- The environment that the bindings of a `let` make of `ρ`. -/
def extendWith (enter : Expr → Env → PureEval Value) :
    List (Binding Expr) → Env → PureEval Env
  | [], ρ => return ρ
  | ⟨name, value, _⟩ :: bs, ρ => do
    let v ← evalInWith enter value ρ
    extendWith enter bs (ρ.bind name v)

end

/-- A list of trees has as many values as it has trees. -/
theorem length_of_run_evalListInWith {enter : Expr → Env → PureEval Value} {es : List Expr}
    {ρ : Env} {w w' : World} {vs printed : List Value}
    (h : (evalListInWith enter es ρ).run w = ⟨.value vs, printed, w'⟩) :
    vs.length = es.length := by
  induction es generalizing w w' vs printed with
  | nil =>
    rw [evalListInWith] at h
    obtain ⟨⟨rfl⟩, -, -⟩ := Result.mk.inj h
    rfl
  | cons e es ih =>
    rw [evalListInWith] at h
    obtain ⟨v, p, w₁, p₁, -, hmore⟩ := PureEval.run_bind_eq_value h
    obtain ⟨us, p₂, w₂, p₃, hus, hpure⟩ := PureEval.run_bind_eq_value hmore
    obtain ⟨⟨rfl⟩, -, -⟩ := Result.mk.inj hpure
    rw [List.length_cons, List.length_cons, ih hus]

/-- Evaluates a tree in an environment, with at most `n` calls of declared functions open at the
same time. -/
def evalIn : Nat → Expr → Env → PureEval Value
  | 0 => evalInWith fun _ _ => PureEval.tooDeep
  | n + 1 => evalInWith (evalIn n)

/-- How the bodies of called functions are evaluated in an environment. -/
def enterIn : Nat → Expr → Env → PureEval Value
  | 0 => fun _ _ => PureEval.tooDeep
  | n + 1 => evalIn n

theorem evalIn_eq (n : Nat) : evalIn n = evalInWith (enterIn n) := by
  cases n <;> rfl

end Expr

end LetLang
