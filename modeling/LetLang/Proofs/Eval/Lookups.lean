import LetLang.Proofs.Context.Overloads
import LetLang.Proofs.Eval.Invariant

/-!
# Functions are only looked up

An evaluation asks the declared functions for a name and an arity, for the arities of a name, or
whether there is any function of a name. All this depends on which function is found under which
name and arity, and not on the order of the declarations. So with two tables in which the same
functions are found an evaluation ends in the same way (`Expr.evalIn_onlyLooksUp`).
-/

namespace LetLang

open FunctionTable (SameLookups)

namespace PureEval

/-- With tables in which the same functions are found, the evaluation ends in the same way, prints
the same, draws the same random numbers, and leaves tables in which the same functions are found. -/
def OnlyLooksUp (m : PureEval α) : Prop :=
  ∀ F F' r, SameLookups F F' → ∃ outcome printed G G' q, SameLookups G G' ∧
    m.run ⟨F, r⟩ = ⟨outcome, printed, ⟨G, q⟩⟩ ∧ m.run ⟨F', r⟩ = ⟨outcome, printed, ⟨G', q⟩⟩

theorem onlyLooksUp_pure (a : α) : OnlyLooksUp (pure a : PureEval α) :=
  fun F F' r h => ⟨_, _, F, F', r, h, rfl, rfl⟩

theorem onlyLooksUp_fail (e : RuntimeError) : OnlyLooksUp (fail e : PureEval α) :=
  fun F F' r h => ⟨_, _, F, F', r, h, rfl, rfl⟩

theorem onlyLooksUp_tooDeep : OnlyLooksUp (tooDeep : PureEval α) :=
  fun F F' r h => ⟨_, _, F, F', r, h, rfl, rfl⟩

/-- The second evaluation starts from the tables that the first one leaves. -/
theorem OnlyLooksUp.bind {m : PureEval α} {f : α → PureEval β} (hm : m.OnlyLooksUp)
    (hf : ∀ a, (f a).OnlyLooksUp) : (m >>= f).OnlyLooksUp := by
  intro F F' r h
  obtain ⟨outcome, printed, G, G', q, hG, hrun, hrun'⟩ := hm F F' r h
  rw [run_bind, run_bind, hrun, hrun']
  cases outcome with
  | value a =>
    obtain ⟨outcome, printed', H, H', p, hH, hnext, hnext'⟩ := hf a G G' q hG
    refine ⟨outcome, printed ++ printed', H, H', p, hH, ?_, ?_⟩
    · simp only [hnext]
    · simp only [hnext']
  | error e => exact ⟨_, _, G, G', q, hG, rfl, rfl⟩
  | tooDeep => exact ⟨_, _, G, G', q, hG, rfl, rfl⟩

/-- A declaration is of a free name and arity in both tables or in neither. -/
theorem onlyLooksUp_declare (f : Function) : OnlyLooksUp (declare f) := by
  intro F F' r h
  dsimp only [run, declare]
  rw [h.hasOverload_eq]
  by_cases hbuiltin : Builtin.isBuiltin f.name f.arity = true
  · simp only [if_pos hbuiltin]
    exact ⟨_, _, F, F', r, h, rfl, rfl⟩
  · simp only [if_neg hbuiltin]
    by_cases htaken : F'.hasOverload f.name f.arity = true
    · simp only [if_pos htaken]
      exact ⟨_, _, F, F', r, h, rfl, rfl⟩
    · simp only [if_neg htaken]
      refine ⟨_, _, f :: F, f :: F', r, fun name arity => ?_, rfl, rfl⟩
      rw [FunctionTable.find?_cons, FunctionTable.find?_cons, h]

/-- The same function is found in both tables, or the same is missing. -/
theorem onlyLooksUp_findFunction (name : String) (count line : Nat) :
    OnlyLooksUp (findFunction name count line) := by
  intro F F' r h
  dsimp only [run, findFunction]
  rw [h name count, h.isFunction_eq, h.arities_eq]
  cases F'.find? name count with
  | some f => exact ⟨_, _, F, F', r, h, rfl, rfl⟩
  | none =>
    dsimp only
    by_cases hname : F'.isFunction name = true
    · simp only [if_pos hname]
      exact ⟨_, _, F, F', r, h, rfl, rfl⟩
    · simp only [if_neg hname]
      exact ⟨_, _, F, F', r, h, rfl, rfl⟩

theorem onlyLooksUp_builtin (b : Builtin) (args : List Value) (line : Nat) :
    OnlyLooksUp (b.evalPure args line) := by
  intro F F' r h
  obtain ⟨x, hx⟩ | ⟨-, hrun⟩ | ⟨v, hrun⟩ := b.evalPure_cases args line
  · rw [hx]
    cases x with
    | ok v => exact onlyLooksUp_pure v F F' r h
    | error e => exact onlyLooksUp_fail e F F' r h
  · exact ⟨_, _, F, F', r.advance, h, hrun _, hrun _⟩
  · exact ⟨_, _, F, F', r, h, hrun _, hrun _⟩

/-- Looking functions up is all that is done by an evaluation that enters bodies for which it is. -/
theorem keptBySteps_onlyLooksUp {enter : Expr → Env → PureEval Value}
    (h : ∀ e ρ, (enter e ρ).OnlyLooksUp) :
    KeptBySteps OnlyLooksUp (fun _ => True) (fun _ => True) enter where
  pure := onlyLooksUp_pure
  fail := onlyLooksUp_fail
  bind := .bind
  declare _ := onlyLooksUp_declare _
  builtin vs _ _ := onlyLooksUp_builtin _ vs _
  findFunction hf := (onlyLooksUp_findFunction _ _ _).bind fun g => hf g trivial
  enter ρ _ := h _ ρ

end PureEval

/-- Trees look functions up and do nothing else with them. -/
theorem Expr.evalIn_onlyLooksUp (depth : Nat) (e : Expr) (ρ : Env) :
    (evalIn depth e ρ).OnlyLooksUp := by
  induction depth generalizing e ρ with
  | zero =>
    have hsteps := PureEval.keptBySteps_onlyLooksUp fun (_ : Expr) (_ : Env) =>
      PureEval.onlyLooksUp_tooDeep
    exact evalInWith_keeps hsteps e ρ fun _ _ => trivial
  | succ n ih => exact evalInWith_keeps (PureEval.keptBySteps_onlyLooksUp ih) e ρ fun _ _ => trivial

end LetLang
