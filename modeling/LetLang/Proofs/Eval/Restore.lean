import LetLang.Proofs.Eval.Invariant
import LetLang.Proofs.Eval.Refinement

/-!
# What an evaluation leaves behind

However an evaluation ends, it leaves the variables exactly as they were, a table of functions that
has at most gained some, and a sink with at most more text (`Expr.evalUpTo_restores`). The variables
and the sink are part of the refinement; that a table only grows is a property that every step of an
evaluation keeps.
-/

namespace LetLang

namespace PureEval

/-- The evaluation only adds to the declared functions. -/
def Grows (m : PureEval α) : Prop :=
  ∀ w : World, w.functions.Grows (m.run w).world.functions

/-- A sequence declares what its first part does and what its second part does. -/
theorem Grows.bind {m : PureEval α} {f : α → PureEval β} (hm : m.Grows) (hf : ∀ a, (f a).Grows) :
    (m >>= f).Grows := by
  intro w
  have hw := hm w
  rw [run_bind]
  rcases hr : m.run w with ⟨a | e | _, printed, w'⟩ <;> rw [hr] at hw
  · exact hw.trans (hf a w')
  · exact hw
  · exact hw

/-- A declaration adds a function to the table, or fails. -/
theorem grows_declare (f : Function) : (declare f).Grows := by
  intro ⟨F, r⟩
  obtain ⟨e, -, hrun⟩ | ⟨hbuiltin, hfree, -, hrun⟩ := run_declare_cases f F
  · rw [hrun]
    exact .refl
  · rw [hrun]
    exact .declare .refl hbuiltin hfree

theorem grows_findFunction (name : String) (count line : Nat) :
    (findFunction name count line).Grows := by
  intro ⟨F, r⟩
  obtain ⟨e, hrun⟩ | ⟨f, -, hrun⟩ := run_findFunction_cases name count line F
  · rw [hrun]
    exact .refl
  · rw [hrun]
    exact .refl

theorem grows_ofExcept (x : Except RuntimeError α) : (ofExcept x).Grows := by
  intro w
  cases x <;> exact .refl

/-- A builtin declares nothing. -/
theorem grows_builtin (b : Builtin) (args : List Value) (line : Nat) :
    (b.evalPure args line).Grows := by
  intro w
  obtain ⟨x, hx⟩ | ⟨-, hrun⟩ | ⟨v, hrun⟩ := b.evalPure_cases args line
  · rw [hx]
    exact grows_ofExcept x w
  · rw [hrun]
    exact .refl
  · rw [hrun]
    exact .refl

/-- Growing is kept by the steps of an evaluation, whatever its nodes and functions are. -/
theorem keptBySteps_grows {enter : Expr → Env → PureEval Value}
    (h : ∀ e ρ, (enter e ρ).Grows) :
    KeptBySteps Grows (fun _ => True) (fun _ => True) enter where
  pure _ := fun _ => .refl
  fail _ := fun _ => .refl
  bind := .bind
  declare _ := grows_declare _
  builtin vs _ _ := grows_builtin _ vs _
  findFunction hf := (grows_findFunction _ _ _).bind fun g => hf g trivial
  enter ρ _ := h _ ρ

end PureEval

namespace Expr

/-- Whatever an evaluation does to the table of functions is to declare more of them. -/
theorem evalIn_grows (depth : Nat) (e : Expr) (ρ : Env) : (evalIn depth e ρ).Grows := by
  induction depth generalizing e ρ with
  | zero =>
    have hsteps := PureEval.keptBySteps_grows fun (_ : Expr) (_ : Env) =>
      show PureEval.Grows PureEval.tooDeep from fun _ => .refl
    exact evalInWith_keeps hsteps e ρ fun _ _ => trivial
  | succ n ih => exact evalInWith_keeps (PureEval.keptBySteps_grows ih) e ρ fun _ _ => trivial

/-- **Scope restoration**: in every context, for every tree and however its evaluation ends, the
variables afterwards are those before, every declared function is still there with the same
definition, and the sink holds what it held, followed by more text. -/
theorem evalUpTo_restores (depth : Nat) (e : Expr) (c : Context) :
    let c' := ((e.evalUpTo depth).run c).2
    c'.vars = c.vars ∧
    (∀ name arity f, c.functions.find? name arity = some f →
      c'.functions.find? name arity = some f) ∧
    ∃ text, c'.sink.text = c.sink.text ++ text := by
  intro c'
  have hrun : c' = c.after ((evalIn depth e c.visible).run c.world) := by
    show ((e.evalUpTo depth).run c).2 = _
    rw [evalUpTo_refines_evalIn depth e c]
  rw [hrun]
  -- `after` changes neither the variables nor what was written before
  refine ⟨rfl, fun name arity f hf => ?_, _, Sink.text_writeAll _ _⟩
  exact (evalIn_grows depth e c.visible c.world).find?_eq_some hf

end Expr

end LetLang
