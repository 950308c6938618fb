import LetLang.Proofs.Eval.Relational

/-!
# Evaluations that the random numbers do not influence

Two evaluations of a tree with the same functions, but with different sources of random numbers,
print the same and end in the same way, and neither of them declares a function, if no declaration
and no call of `rand` can be met: not in the tree, and not in the body of any function
(`Expr.evalIn_uniform`). The sources are related by any relation `S` that drawing a number respects.
With equality for `S` the calls of `rand` do not matter, and what is left is that no function is
declared.
-/

namespace LetLang

/-- Sources that are equal draw alike. -/
theorem RandomSource.drawAlike_eq : DrawAlike Eq := by
  rintro r _ rfl
  exact ⟨rfl, rfl⟩

/-- Trees that are `allowed` declare no function, and those of them that draw a random number draw
the same one from sources related by `S`, which are related afterwards. -/
structure Admits (S : RandomSource → RandomSource → Prop) (allowed : Expr → Prop) : Prop where
  isFunction {e : Expr} : allowed e → e.isFunction = false
  isRand {e : Expr} : allowed e → e.isRand = true → RandomSource.DrawAlike S

/-- Among allowed bodies, evaluations in one environment agree, and the table does not change. -/
theorem Admits.agreement {S : RandomSource → RandomSource → Prop} {allowed : Expr → Prop}
    (hS : Admits S allowed) {F : FunctionTable} (hF : F.AllBodies allowed) :
    PureEval.Agreement (· = F) S Eq allowed where
  lookup _ hρ := congrFun hρ _
  extend name v hρ := congrArg (·.bind name v) hρ
  declare := by
    intro name params body line F' hfunction
    cases hS.isFunction (Expr.forall_mem_subtrees_function.mp hfunction).1
  draw := hS.isRand
  bodies := by
    rintro _ _ _ _ rfl hg
    exact hF.of_find? hg

/-- Without declarations, evaluations with one and the same source of random numbers are alike. -/
theorem admits_functionFree : Admits Eq fun e => e.isFunction = false where
  isFunction h := h
  isRand _ _ := RandomSource.drawAlike_eq

/-- Without declarations and without `rand`, evaluations with any sources are alike. -/
theorem admits_randFree :
    Admits (fun _ _ => True) fun e => e.isFunction = false ∧ e.isRand = false where
  isFunction h := h.1
  isRand h hrand := by
    rw [h.2] at hrand
    cases hrand

namespace PureEval

/-- With sources of random numbers related by `S`, the evaluation ends in the same way and prints
the same, turns the functions `F` into `F'`, and leaves sources related by `S`. -/
def Uniform (S : RandomSource → RandomSource → Prop) (F F' : FunctionTable) (m : PureEval α) :
    Prop :=
  ∀ r r', S r r' → ∃ outcome printed q q', S q q' ∧
    m.run ⟨F, r⟩ = ⟨outcome, printed, ⟨F', q⟩⟩ ∧ m.run ⟨F, r'⟩ = ⟨outcome, printed, ⟨F', q'⟩⟩

/-- An evaluation that matches itself among the functions `F` is uniform. -/
theorem Matches.uniform {S : RandomSource → RandomSource → Prop} {F : FunctionTable} {deep : Prop}
    {m : PureEval α} (h : Matches deep (· = F) S Eq m m) : Uniform S F F m := by
  intro r r' hr
  obtain ⟨outcome, outcome', printed, F', q, q', houtcome, rfl, hq, hrun, hrun'⟩ := h F r r' rfl hr
  obtain rfl := houtcome.eq
  exact ⟨outcome, printed, q, q', hq, hrun, hrun'⟩

end PureEval

namespace FunctionTable

/-- The functions after the evaluation of a tree that has no declaration except at its root. -/
def extend (F : FunctionTable) : Expr → FunctionTable
  | .function name params body line => F.declare ⟨name, params, body, line⟩
  | _ => F

end FunctionTable

namespace Expr

variable {S : RandomSource → RandomSource → Prop} {F : FunctionTable} {allowed : Expr → Prop}

/-- Trees and bodies of which all nodes are allowed are evaluated uniformly. -/
theorem evalIn_uniform (hS : Admits S allowed) (hF : F.AllBodies allowed) (depth : Nat) (e : Expr)
    (ρ : Env) (he : ∀ s ∈ e.subtrees, allowed s) : PureEval.Uniform S F F (evalIn depth e ρ) :=
  (evalIn_matches (hS.agreement hF) depth he rfl).uniform

theorem evalIn_function (depth : Nat) (name : String) (params : List String) (body : Expr)
    (line : Nat) (ρ : Env) :
    evalIn depth (function name params body line) ρ =
      PureEval.declare ⟨name, params, body, line⟩ >>= fun _ => pure .nil := by
  cases depth <;> simp only [evalIn, evalInWith]

/-- The evaluation of a declaration adds the function or fails, whatever the random numbers are. -/
theorem evalIn_function_cases (F : FunctionTable) (depth : Nat) (name : String)
    (params : List String) (body : Expr) (line : Nat) (ρ : Env) :
    (∃ e, F.extend (function name params body line) = F ∧
      ∀ r, (evalIn depth (function name params body line) ρ).run ⟨F, r⟩ =
        ⟨.error e, [], ⟨F, r⟩⟩) ∨
    ∀ r, (evalIn depth (function name params body line) ρ).run ⟨F, r⟩ =
      ⟨.value .nil, [], ⟨F.extend (function name params body line), r⟩⟩ := by
  simp only [evalIn_function, PureEval.run_bind]
  obtain ⟨e, htable, hrun⟩ | ⟨-, -, htable, hrun⟩ :=
    PureEval.run_declare_cases ⟨name, params, body, line⟩ F
  · exact .inl ⟨e, htable, fun r => by rw [hrun]⟩
  · refine .inr fun r => ?_
    rw [hrun, FunctionTable.extend, htable]
    rfl

/-- A tree without a declaration, or with one at its root only, is evaluated uniformly. -/
theorem evalIn_statement_uniform (hS : Admits S allowed) (hF : F.AllBodies allowed) (depth : Nat)
    {e : Expr} (he : ∀ s ∈ e.parts, allowed s) (ρ : Env) :
    PureEval.Uniform S F (F.extend e) (evalIn depth e ρ) := by
  cases e with
  | function name params body line =>
    intro r r' h
    obtain ⟨error, htable, hrun⟩ | hrun := evalIn_function_cases F depth name params body line ρ
    · exact ⟨_, _, r, r', h, by rw [hrun, htable], by rw [hrun, htable]⟩
    · exact ⟨_, _, r, r', h, hrun r, hrun r'⟩
  | _ => exact evalIn_uniform hS hF depth _ ρ he

end Expr

end LetLang
