import LetLang.Proofs.Eval.Invariant
import LetLang.Proofs.Eval.Refinement
import LetLang.Proofs.Eval.Uniform

/-!
# Evaluation with more functions

Declaring more functions does not change what already works. A tree without declarations, evaluated
among functions whose bodies have none either, ends with the same value or error when more functions
are declared, and prints the same (`Expr.evalUpTo_more_functions`). The exception is an evaluation
that ended because a function was missing, which is what the faults `expectedFunction` and
`incorrectArity` say.

The reason is that a table of functions is only ever asked for a name and an arity. An answer that
is a function stays the same in a larger table, and any other answer is one of the two faults, which
no evaluation recovers from.
-/

namespace LetLang

/-- Every name and arity that stand for a function in `F` stand for the same one in `F'`. -/
def FunctionTable.Extends (F' F : FunctionTable) : Prop :=
  ∀ name arity f, F.find? name arity = some f → F'.find? name arity = some f

/-- The fault is that there is no function of some name, or none of some arity. -/
def RuntimeFault.IsMissing (fault : RuntimeFault) : Prop :=
  fault = .expectedFunction ∨ ∃ found declared, fault = .incorrectArity found declared

/-- The evaluation has ended, and not because a function was missing. -/
def Outcome.Settled : Outcome α → Prop
  | value _ => True
  | error e => ¬ e.fault.IsMissing
  | tooDeep => False

namespace PureEval

/-- Among the functions `F` the evaluation declares none, and what it settles among `F` it settles
in the same way among `F'`. -/
def Persists (F F' : FunctionTable) (m : PureEval α) : Prop :=
  ∀ r, ∃ outcome printed q, m.run ⟨F, r⟩ = ⟨outcome, printed, ⟨F, q⟩⟩ ∧
    (outcome.Settled → m.run ⟨F', r⟩ = ⟨outcome, printed, ⟨F', q⟩⟩)

variable {F F' : FunctionTable}

theorem persists_pure (a : α) : Persists F F' (pure a : PureEval α) :=
  fun r => ⟨_, _, r, rfl, fun _ => rfl⟩

theorem persists_fail (e : RuntimeError) : Persists F F' (fail e : PureEval α) :=
  fun r => ⟨_, _, r, rfl, fun _ => rfl⟩

theorem persists_tooDeep : Persists F F' (tooDeep : PureEval α) :=
  fun r => ⟨_, _, r, rfl, fun _ => rfl⟩

theorem persists_ofExcept (x : Except RuntimeError α) : Persists F F' (ofExcept x) := by
  cases x with
  | ok a => exact persists_pure a
  | error e => exact persists_fail e

/-- An evaluation that is settled had a first part that is settled, which gave the same value. -/
theorem Persists.bind {m : PureEval α} {f : α → PureEval β} (hm : Persists F F' m)
    (hf : ∀ a, Persists F F' (f a)) : Persists F F' (m >>= f) := by
  intro r
  obtain ⟨outcome, printed, q, hrun, hrun'⟩ := hm r
  rw [run_bind, run_bind, hrun]
  cases outcome with
  | value a =>
    obtain ⟨outcome, printed', p, hnext, hnext'⟩ := hf a q
    refine ⟨outcome, printed ++ printed', p, by simp only [hnext], fun hsettled => ?_⟩
    rw [hrun' trivial]
    simp only [hnext' hsettled]
  | error e => exact ⟨_, _, q, rfl, fun hsettled => by rw [hrun' hsettled]⟩
  | tooDeep => exact ⟨_, _, q, rfl, False.elim⟩

/-- A function that is found among `F` is found among `F'`, and otherwise nothing is settled. -/
theorem Persists.findFunction (hF' : F'.Extends F) {name : String} {count line : Nat}
    {f : Function → PureEval α} (hf : ∀ g ∈ F, Persists F F' (f g)) :
    Persists F F' (findFunction name count line >>= f) := by
  intro r
  rw [run_bind, run_bind]
  dsimp only [run, PureEval.findFunction]
  cases hfind : F.find? name count with
  | some g =>
    rw [hF' name count g hfind]
    exact hf g (List.mem_of_find?_eq_some hfind) r
  | none =>
    dsimp only
    by_cases hname : F.isFunction name = true
    · rw [if_pos hname]
      exact ⟨_, _, r, rfl, fun hsettled => absurd (.inr ⟨_, _, rfl⟩) hsettled⟩
    · rw [if_neg hname]
      exact ⟨_, _, r, rfl, fun hsettled => absurd (.inl rfl) hsettled⟩

theorem persists_builtin (b : Builtin) (args : List Value) (line : Nat) :
    Persists F F' (b.evalPure args line) := by
  intro r
  obtain ⟨x, hx⟩ | ⟨-, hrun⟩ | ⟨v, hrun⟩ := b.evalPure_cases args line
  · rw [hx]
    exact persists_ofExcept x r
  · exact ⟨_, _, r.advance, hrun _, fun _ => hrun _⟩
  · exact ⟨_, _, r, hrun _, fun _ => hrun _⟩

/-- Persisting is kept by the steps of an evaluation that enters bodies that persist. -/
theorem keptBySteps_persists (hF' : F'.Extends F) {enter : Expr → Env → PureEval Value}
    (henter : ∀ f ∈ F, ∀ ρ, Persists F F' (enter f.body ρ)) :
    KeptBySteps (Persists F F') (fun e => e.isFunction = false) (· ∈ F) enter where
  pure := persists_pure
  fail := persists_fail
  bind := .bind
  declare h := by cases h
  builtin vs _ _ := persists_builtin _ vs _
  findFunction := .findFunction hF'
  enter ρ hf := henter _ hf ρ

end PureEval

namespace Expr

variable {F F' : FunctionTable}

theorem evalIn_persists (hF' : F'.Extends F) (hF : F.AllBodies fun e => e.isFunction = false)
    (depth : Nat) :
    ∀ (e : Expr) (ρ : Env), e.FunctionFree → PureEval.Persists F F' (evalIn depth e ρ) := by
  -- bodies are entered with one call less, and all of them are among `F`
  induction depth with
  | zero =>
    exact evalInWith_keeps
      (PureEval.keptBySteps_persists hF' fun _ _ _ => PureEval.persists_tooDeep)
  | succ n ih =>
    exact evalInWith_keeps
      (PureEval.keptBySteps_persists hF' fun f hf ρ => ih f.body ρ (hF f hf))

/-- **More functions**: let a tree without declarations be evaluated in a context whose functions
have bodies without declarations, and let the evaluation end with a value, or with an error that is
not about a missing function. With any functions `F'` that include those of the context it ends with
the same value or error, and leaves the same context, in particular the same printed text, except
that its functions are `F'`. -/
theorem evalUpTo_more_functions {depth : Nat} {tree : Expr} {c c₁ : Context} {F' : FunctionTable}
    {outcome : Outcome Value} (htree : tree.FunctionFree)
    (hF : c.functions.AllBodies fun e => e.isFunction = false) (hF' : F'.Extends c.functions)
    (hrun : (tree.evalUpTo depth).run c = (outcome, c₁)) (hsettled : outcome.Settled) :
    (tree.evalUpTo depth).run { c with functions := F' } =
      (outcome, { c₁ with functions := F' }) := by
  obtain ⟨outcome', printed, q, hpure, hpure'⟩ :=
    evalIn_persists hF' hF depth tree c.visible htree c.random
  have hstart : (evalIn depth tree c.visible).run c.world = ⟨outcome', printed, ⟨_, q⟩⟩ := hpure
  rw [evalUpTo_refines_evalIn, hstart] at hrun
  obtain ⟨rfl, rfl⟩ := Prod.mk.inj hrun
  -- the larger table changes neither the visible variables nor the random numbers
  have hstart' : (evalIn depth tree ({ c with functions := F' } : Context).visible).run
      ({ c with functions := F' } : Context).world = ⟨outcome', printed, ⟨F', q⟩⟩ :=
    hpure' hsettled
  rw [evalUpTo_refines_evalIn, hstart']
  rfl

/-- A call prints and its value is then used wrongly. Another function of the same name makes no
difference. -/
theorem evalUpTo_with_overload :
    let f : Function := ⟨"f", ["x"], call "print" [var "x" 1] 1, 1⟩
    let g : Function := ⟨"f", [], var "y" 2, 2⟩
    let tree := unary .negate (call "f" [literal (.quoted "a") 3] 3) 3
    ∃ c₁ : Context, c₁.sink.written = #[.text "a"] ∧
      (tree.evalUpTo 1).run { functions := [f] } = (.error ⟨.expectedNumber, "a", 3⟩, c₁) ∧
      (tree.evalUpTo 1).run { functions := [g, f] } =
        (.error ⟨.expectedNumber, "a", 3⟩, { c₁ with functions := [g, f] }) := by
  intro f g tree
  have hrun : (tree.evalUpTo 1).run { functions := [f] } =
      (.error ⟨.expectedNumber, "a", 3⟩, _) := rfl
  have htree : tree.FunctionFree := by
    simp [tree, FunctionFree, subtrees, listSubtrees, isFunction]
  have hF : FunctionTable.AllBodies [f] fun e => e.isFunction = false := by
    simp [FunctionTable.AllBodies, f, subtrees, listSubtrees, isFunction]
  have hgrows : FunctionTable.Grows [f] [g, f] := .declare .refl (by decide) (by decide)
  have hextends : FunctionTable.Extends [g, f] [f] := fun _ _ _ => hgrows.find?_eq_some
  refine ⟨_, rfl, hrun, evalUpTo_more_functions htree hF hextends hrun ?_⟩
  simp [Outcome.Settled, RuntimeFault.IsMissing]

end Expr

end LetLang
