import LetLang.Proofs.Eval.Environment
import LetLang.Proofs.Expr.MapLines

/-!
# Evaluation on other lines

Line numbers go into runtime errors and nowhere else. So a tree on other lines, evaluated among
functions whose bodies are on other lines, ends with the same value, or the same error on another
line, and prints the same (`Expr.evalIn_onLines`). The function that replaces the line numbers is
any `f`; an error that shows the text of a tree shows the same text, since line numbers are not
printed.
-/

namespace LetLang

/-! ### Results on other lines -/

/-- The same error on another line. -/
def RuntimeError.mapLine (f : Nat → Nat) (e : RuntimeError) : RuntimeError :=
  ⟨e.fault, e.token, f e.line⟩

/-- The same function on other lines. -/
def Function.mapLines (f : Nat → Nat) (g : Function) : Function :=
  ⟨g.name, g.params, g.body.mapLines f, f g.line⟩

/-- The same functions on other lines. -/
def FunctionTable.mapLines (f : Nat → Nat) (F : FunctionTable) : FunctionTable :=
  F.map (Function.mapLines f)

/-- The same world with functions on other lines. -/
def World.mapLines (f : Nat → Nat) (w : World) : World := ⟨w.functions.mapLines f, w.random⟩

/-- The same end of an evaluation, with an error on another line. -/
def Outcome.mapLine (f : Nat → Nat) : Outcome α → Outcome α
  | value a => .value a
  | error e => .error (e.mapLine f)
  | tooDeep => .tooDeep

/-- The same result on other lines. -/
def Result.mapLines (f : Nat → Nat) (r : Result α) : Result α :=
  ⟨r.outcome.mapLine f, r.printed, r.world.mapLines f⟩

/-- The same value or error, with the error on another line. -/
def mapErrorLine (f : Nat → Nat) (x : Except RuntimeError α) : Except RuntimeError α :=
  x.mapError (RuntimeError.mapLine f)

/-! ### Tables of functions -/

namespace FunctionTable

variable (f : Nat → Nat) (F : FunctionTable) (name : String)

/-- On other lines, the same function is found. -/
theorem find?_mapLines (arity : Nat) :
    (F.mapLines f).find? name arity = (F.find? name arity).map (Function.mapLines f) :=
  List.find?_map ..

/-- On other lines, the same overloads are declared. -/
theorem hasOverload_mapLines (arity : Nat) :
    (F.mapLines f).hasOverload name arity = F.hasOverload name arity := by
  unfold hasOverload
  rw [find?_mapLines, Option.isSome_map]

theorem isFunction_mapLines : (F.mapLines f).isFunction name = F.isFunction name :=
  List.any_map ..

theorem arities_mapLines : (F.mapLines f).arities name = F.arities name := by
  unfold arities mapLines
  rw [List.filter_map, List.foldr_map]
  rfl

end FunctionTable

/-! ### Operators -/

section

variable (f : Nat → Nat) (line : Nat)

/-- A unary operator uses its line only in errors. -/
theorem Value.applyUnary_line (op : UnaryOp) (v : Value) :
    v.applyUnary op (f line) = mapErrorLine f (v.applyUnary op line) := by
  cases op <;> cases v <;> rfl

/-- A binary operator uses its line only in errors. -/
theorem Value.applyBinary_line (op : BinaryOp) (left right : Value) :
    left.applyBinary op right (f line) = mapErrorLine f (left.applyBinary op right line) := by
  unfold applyBinary
  cases op.action <;> cases left <;> cases right <;> rfl

theorem Builtin.applyReal_line (b : Builtin) (g : Float → Float) (args : List Value) :
    b.applyReal g args (f line) = mapErrorLine f (b.applyReal g args line) := by
  match args with
  | [] => rfl
  | [v] => cases v <;> rfl
  | _ :: _ :: _ => rfl

theorem Builtin.applyLog_line (args : List Value) :
    applyLog args (f line) = mapErrorLine f (applyLog args line) := by
  match args with
  | [] => rfl
  | [_] => rfl
  | [base, v] => cases base <;> cases v <;> rfl
  | _ :: _ :: _ :: _ => rfl

/-- A lookup uses its line only in errors. -/
theorem Env.lookup_line (ρ : Env) (name : String) :
    ρ.lookup name (f line) = mapErrorLine f (ρ.lookup name line) := by
  unfold lookup
  cases ρ name <;> rfl

end

/-! ### Evaluations on other lines -/

namespace PureEval

variable {f : Nat → Nat}

/-- Among functions on other lines, `m'` does what `m` does, on other lines. -/
def OnLines (f : Nat → Nat) (m m' : PureEval α) : Prop :=
  ∀ w, m'.run (w.mapLines f) = (m.run w).mapLines f

namespace OnLines

theorem pure (a : α) : OnLines f (Pure.pure a) (Pure.pure a) := fun _ => rfl

theorem fail (e : RuntimeError) :
    OnLines f (PureEval.fail e : PureEval α) (PureEval.fail (e.mapLine f)) := fun _ => rfl

theorem tooDeep : OnLines f (PureEval.tooDeep : PureEval α) PureEval.tooDeep := fun _ => rfl

theorem ofExcept {x x' : Except RuntimeError α} (h : x' = mapErrorLine f x) :
    OnLines f (PureEval.ofExcept x) (PureEval.ofExcept x') := by
  rw [h]
  cases x with
  | ok a => exact pure a
  | error e => exact fail e

/-- A sequence does the same on other lines if its parts do. -/
theorem bind {m m' : PureEval α} {k k' : α → PureEval β} (hm : OnLines f m m')
    (hk : ∀ a, OnLines f (k a) (k' a)) : OnLines f (m >>= k) (m' >>= k') := by
  intro w
  rw [run_bind, run_bind, hm w]
  rcases m.run w with ⟨a | e | _, printed, w'⟩
  · simp only [Result.mapLines, Outcome.mapLine]
    rw [hk a w']
    rfl
  · rfl
  · rfl

theorem declare (g : Function) : OnLines f (declare g) (declare (g.mapLines f)) := by
  intro w
  -- the name and the arity are the same, and so are the names and arities of the table
  show (if Builtin.isBuiltin g.name g.arity then _
    else if (w.functions.mapLines f).hasOverload g.name g.arity then _ else _) = _
  rw [FunctionTable.hasOverload_mapLines]
  dsimp only [run, PureEval.declare]
  by_cases hbuiltin : Builtin.isBuiltin g.name g.arity = true
  · rw [if_pos hbuiltin, if_pos hbuiltin]
    rfl
  · rw [if_neg hbuiltin, if_neg hbuiltin]
    by_cases hfree : w.functions.hasOverload g.name g.arity = true
    · rw [if_pos hfree, if_pos hfree]
      rfl
    · rw [if_neg hfree, if_neg hfree]
      rfl

/-- The function that is found is the same one on other lines. -/
theorem findFunction {name : String} {count line : Nat} {k k' : Function → PureEval α}
    (hk : ∀ g, OnLines f (k g) (k' (g.mapLines f))) :
    OnLines f (findFunction name count line >>= k) (findFunction name count (f line) >>= k') := by
  intro w
  have hfind := w.functions.find?_mapLines f name count
  rw [run_bind, run_bind]
  dsimp only [run, PureEval.findFunction, World.mapLines]
  rw [hfind, FunctionTable.isFunction_mapLines, FunctionTable.arities_mapLines]
  cases w.functions.find? name count with
  | some g => exact hk g w
  | none =>
    by_cases hname : w.functions.isFunction name = true
    · simp only [hname, if_true]
      rfl
    · simp only [hname, Bool.false_eq_true, if_false]
      rfl

/-- A builtin uses its line only in errors. -/
theorem builtin (b : Builtin) (args : List Value) (line : Nat) :
    OnLines f (b.evalPure args line) (b.evalPure args (f line)) := by
  cases b with
  | rand =>
    match args with
    | [] => exact fun _ => rfl
    | _ :: _ => exact fail _
  | print =>
    match args with
    | [v] => exact fun _ => rfl
    | [] => exact fail _
    | _ :: _ :: _ => exact fail _
  | cos | sin | exp | sqrt => exact ofExcept (Builtin.applyReal_line f line _ _ args)
  | log => exact ofExcept (Builtin.applyLog_line f line args)

end OnLines

end PureEval

/-! ### Trees -/

namespace Expr

open PureEval

variable {f : Nat → Nat} {enter : Expr → Env → PureEval Value}

mutual

/-- A tree on other lines is evaluated in the same way, if the bodies of functions are. -/
theorem evalInWith_onLines (h : ∀ e ρ, OnLines f (enter e ρ) (enter (e.mapLines f) ρ)) :
    ∀ e ρ, OnLines f (evalInWith enter e ρ) (evalInWith enter (e.mapLines f) ρ)
  | literal v _, _ => by
    simp only [mapLines, evalInWith]
    exact .pure v.value
  | unary op operand line, ρ => by
    simp only [mapLines, evalInWith]
    exact (evalInWith_onLines h operand ρ).bind fun v => .ofExcept (v.applyUnary_line f line op)
  | binary op left right line, ρ => by
    simp only [mapLines, evalInWith]
    exact (evalInWith_onLines h left ρ).bind fun l =>
      (evalInWith_onLines h right ρ).bind fun r => .ofExcept (l.applyBinary_line f line op r)
  | conditional condition onTrue onFalse _, ρ => by
    simp only [mapLines, evalInWith]
    refine (evalInWith_onLines h condition ρ).bind fun v => ?_
    -- the error shows the text of the condition, which is the same on other lines
    have herror : RuntimeError.mk .conditionNotBool (condition.mapLines f).text
        (condition.mapLines f).line =
          (RuntimeError.mk .conditionNotBool condition.text condition.line).mapLine f := by
      rw [text_mapLines, line_mapLines]
      rfl
    rw [herror]
    cases v with
    | bool b =>
      cases b with
      | true => exact evalInWith_onLines h onTrue ρ
      | false => exact evalInWith_onLines h onFalse ρ
    | number _ => exact .fail _
    | text _ => exact .fail _
    | nil => exact .fail _
  | var name line, ρ => by
    simp only [mapLines, evalInWith]
    exact .ofExcept (ρ.lookup_line f line name)
  | letIn bindings body _, ρ => by
    simp only [mapLines, evalInWith]
    exact (extendWith_onLines h bindings ρ).bind fun inner => evalInWith_onLines h body inner
  | function name params body line, _ => by
    simp only [mapLines, evalInWith]
    exact (OnLines.declare ⟨name, params, body, line⟩).bind fun _ => .pure _
  | call name args line, ρ => by
    simp only [mapLines, evalInWith, length_mapLinesList]
    cases Builtin.find? name args.length with
    | some b => exact (evalListInWith_onLines h args ρ).bind fun vs => .builtin b vs line
    | none =>
      refine .findFunction fun g => ?_
      exact (evalListInWith_onLines h args ρ).bind fun vs => h g.body _

/-- A list of operands is evaluated to the same values on other lines. -/
theorem evalListInWith_onLines (h : ∀ e ρ, OnLines f (enter e ρ) (enter (e.mapLines f) ρ)) :
    ∀ es ρ, OnLines f (evalListInWith enter es ρ) (evalListInWith enter (mapLinesList f es) ρ)
  | [], _ => by
    simp only [mapLinesList, evalListInWith]
    exact .pure []
  | e :: es, ρ => by
    simp only [mapLinesList, evalListInWith]
    exact (evalInWith_onLines h e ρ).bind fun v =>
      (evalListInWith_onLines h es ρ).bind fun vs => .pure (v :: vs)

/-- The bindings of a `let` bind the same values on other lines. -/
theorem extendWith_onLines (h : ∀ e ρ, OnLines f (enter e ρ) (enter (e.mapLines f) ρ)) :
    ∀ bs ρ, OnLines f (extendWith enter bs ρ) (extendWith enter (mapLinesBindings f bs) ρ)
  | [], ρ => by
    simp only [mapLinesBindings, extendWith]
    exact .pure ρ
  | ⟨name, value, _⟩ :: bs, ρ => by
    simp only [mapLinesBindings, extendWith]
    exact (evalInWith_onLines h value ρ).bind fun v => extendWith_onLines h bs (ρ.bind name v)

end

/-- A tree on other lines, among functions on other lines, is evaluated in the same way. -/
theorem evalIn_onLines (f : Nat → Nat) (depth : Nat) (e : Expr) (ρ : Env) :
    OnLines f (evalIn depth e ρ) (evalIn depth (e.mapLines f) ρ) := by
  induction depth generalizing e ρ with
  | zero => exact evalInWith_onLines (fun _ _ => .tooDeep) e ρ
  | succ n ih => exact evalInWith_onLines ih e ρ

end Expr

end LetLang
