import LetLang.Proofs.Eval.Lookups
import LetLang.Proofs.Eval.Refinement
import LetLang.Proofs.Eval.Relational

/-!
# Variables that are not mentioned

A body sees the variables of whoever calls it, so a tree may read variables that do not occur in it.
But all those that it may read occur in it or in the body of a declared function. Contexts that
agree on the values of these are the same for the tree (`Expr.evalUpTo_unmentioned`). Functions that
are declared on the way have bodies from the tree, and mention nothing new. It does not matter in
which order the functions of the two contexts were declared.
-/

namespace LetLang

/-- All the nodes in the bodies of the functions that can be found are `allowed`. -/
def FunctionTable.FoundBodies (F : FunctionTable) (allowed : Expr → Prop) : Prop :=
  ∀ name arity f, F.find? name arity = some f → ∀ s ∈ f.body.subtrees, allowed s

theorem FunctionTable.FoundBodies.declare {F : FunctionTable} {allowed : Expr → Prop}
    (hF : F.FoundBodies allowed) {f : Function} (hf : ∀ s ∈ f.body.subtrees, allowed s) :
    (F.declare f).FoundBodies allowed := by
  intro name arity g hg
  unfold FunctionTable.declare at hg
  by_cases htaken : Builtin.isBuiltin f.name f.arity ∨ F.hasOverload f.name f.arity
  · rw [if_pos htaken] at hg
    exact hF name arity g hg
  · rw [if_neg htaken, find?_cons] at hg
    by_cases hname : f.name = name ∧ f.arity = arity
    · rw [if_pos hname] at hg
      rwa [← Option.some.inj hg]
    · rw [if_neg hname] at hg
      exact hF name arity g hg

/-- The node occurs in the tree or in the body of a function that can be found. -/
def FunctionTable.Mentions (F : FunctionTable) (tree s : Expr) : Prop :=
  s ∈ tree.subtrees ∨ ∃ name arity f, F.find? name arity = some f ∧ s ∈ f.body.subtrees

/-- The environments agree on the variables among the nodes. -/
def Env.AgreeOn (allowed : Expr → Prop) (ρ ρ' : Env) : Prop :=
  ∀ name line, allowed (.var name line) → ρ name = ρ' name

/-- They still do after the same definition in both, whether the variable is among the nodes or
not. -/
theorem Env.AgreeOn.bind {allowed : Expr → Prop} {ρ ρ' : Env} (h : AgreeOn allowed ρ ρ')
    (name : String) (v : Value) : AgreeOn allowed (ρ.bind name v) (ρ'.bind name v) := by
  intro x line hx
  unfold Env.bind
  by_cases hname : x = name
  · rw [hname, Function.update_self, Function.update_self]
  · rw [Function.update_of_ne hname, Function.update_of_ne hname, h x line hx]

namespace Expr

/-- Environments that agree on the variables among the nodes are enough, with sources of random
numbers that are equal if one of the nodes draws a number. -/
theorem agreement_agreeOn (allowed : Expr → Prop) :
    PureEval.Agreement (·.FoundBodies allowed)
      (fun r r' => ∀ s, allowed s → s.isRand = true → r = r') (Env.AgreeOn allowed) allowed where
  lookup hvar h := h _ _ hvar
  extend name v h := h.bind name v
  declare hfunction hF := hF.declare (forall_mem_subtrees_function.mp hfunction).2
  draw hs hrand := by
    intro r r' h
    obtain rfl := h _ hs hrand
    exact ⟨rfl, fun _ _ _ => rfl⟩
  bodies hF hg := hF _ _ _ hg

/-- **Variables that are not mentioned do not matter**: take two contexts in which every name and
arity stand for the same function, which give the same values to all variables that occur in the
tree or in the body of a function, and the same random numbers if any are drawn there. The tree has
the same outcome in both, with the same values printed, and afterwards every name and arity stand
for the same function in both; if the functions were also declared in the same order, they still
are. -/
theorem evalUpTo_unmentioned {tree : Expr} {c c' : Context}
    (hfunctions : c.functions.SameLookups c'.functions)
    (hvisible : ∀ name line, c.functions.Mentions tree (var name line) →
      c.visible name = c'.visible name)
    (hrandom : ∀ s, c.functions.Mentions tree s → s.isRand = true → c.random = c'.random)
    (n : Nat) :
    let final := (tree.evalUpTo n).run c
    let final' := (tree.evalUpTo n).run c'
    final.1 = final'.1 ∧ final.2.functions.SameLookups final'.2.functions ∧
    (c.functions = c'.functions → final.2.functions = final'.2.functions) ∧
    ∃ printed, final.2.sink = c.sink.writeAll printed ∧
      final'.2.sink = c'.sink.writeAll printed := by
  intro final final'
  have htree : ∀ s ∈ tree.subtrees, c.functions.Mentions tree s := fun s hs => .inl hs
  have hbodies : c.functions.FoundBodies (c.functions.Mentions tree) :=
    fun name arity f hf s hs => .inr ⟨name, arity, f, hf, hs⟩
  have hmatches := evalIn_matches (agreement_agreeOn _) n htree hvisible
  obtain ⟨outcome, outcome', printed, F, q, q', houtcome, -, -, hrun, hrun'⟩ :=
    hmatches c.functions c.random c'.random hbodies hrandom
  -- in the second environment the functions of the first context give way to those of the second
  obtain ⟨o, p, G, F', r, hlookups, hswap, hswap'⟩ :=
    evalIn_onlyLooksUp n tree c'.visible c.functions c'.functions c'.random hfunctions
  obtain ⟨rfl, rfl, hworld⟩ := Result.mk.inj (hswap.symm.trans hrun')
  obtain ⟨rfl, -⟩ := World.mk.inj hworld
  -- the results in the two environments are those in the two contexts
  have hfinal : final = (outcome, c.after ⟨outcome, p, ⟨G, q⟩⟩) :=
    (evalUpTo_refines_evalIn n tree).run_eq hrun
  have hfinal' : final' = (o, c'.after ⟨o, p, ⟨F', r⟩⟩) :=
    (evalUpTo_refines_evalIn n tree).run_eq hswap'
  rw [hfinal, hfinal']
  refine ⟨houtcome.eq, hlookups, fun horder => ?_, p, rfl, rfl⟩
  rw [horder] at hswap
  exact congrArg (·.world.functions) (hswap.symm.trans hswap')

/-- The body reads a variable `y` of its caller. The contexts agree on it, but not on `x`, nor on
what was written before, and in the second one another value of `y` is hidden, and the functions
were declared in another order. -/
theorem evalUpTo_unmentioned_hidden :
    let f : Function := ⟨"f", ["x"], call "print" [var "y" 1] 1, 1⟩
    let g : Function := ⟨"f", [], var "y" 1, 1⟩
    let tree := unary .not (call "f" [literal (.bool true) 2] 2) 2
    let c : Context := { functions := [f, g], vars := [("y", .text "a"), ("x", .bool true)] }
    let c' : Context :=
      { functions := [g, f], vars := [("y", .text "a"), ("y", .nil)], sink := ⟨#[.nil], true⟩ }
    c.visible "x" ≠ c'.visible "x" ∧
    ((tree.evalUpTo 1).run c).1 = .error ⟨.expectedBool, "a", 2⟩ ∧
    ((tree.evalUpTo 1).run c').1 = .error ⟨.expectedBool, "a", 2⟩ ∧
    ∃ printed, ((tree.evalUpTo 1).run c).2.sink = c.sink.writeAll printed ∧
      ((tree.evalUpTo 1).run c').2.sink = c'.sink.writeAll printed := by
  intro f g tree c c'
  have hfunctions : c.functions.SameLookups c'.functions :=
    FunctionTable.sameLookups_swap (by decide) []
  have hvisible (name : String) (line : Nat) (h : c.functions.Mentions tree (var name line)) :
      c.visible name = c'.visible name := by
    have hy : name = "y" := by
      rcases h with h | ⟨x, arity, k, hk, h⟩
      · simp [tree, subtrees, listSubtrees] at h
      · have hmem : k = f ∨ k = g := by simpa [c] using List.mem_of_find?_eq_some hk
        rcases hmem with rfl | rfl <;> simp [f, g, subtrees, listSubtrees] at h <;> exact h.1
    rw [hy]
    rfl
  have hrandom (s : Expr) (_ : c.functions.Mentions tree s) (_ : s.isRand = true) :
      c.random = c'.random := rfl
  obtain ⟨houtcome, -, -, hprinted⟩ := evalUpTo_unmentioned hfunctions hvisible hrandom 1
  have hrun : ((tree.evalUpTo 1).run c).1 = .error ⟨.expectedBool, "a", 2⟩ := rfl
  exact ⟨by decide, hrun, houtcome.symm.trans hrun, hprinted⟩

end Expr

end LetLang
