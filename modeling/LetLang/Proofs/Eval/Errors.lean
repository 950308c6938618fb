import LetLang.Proofs.Context.Overloads
import LetLang.Proofs.Eval.Restore

/-!
# What a runtime error tells

A runtime error names what is at fault and a line. When it is reported, all scopes and calls that
were open have been left, and functions may have been declared on the way. Still the error is true
of the context that is left (`Expr.evalUpTo_error_truthful`): an undeclared variable is unbound
there, a function that is expected is not declared there, and so on.

The proof follows the error from the node that raises it. `RuntimeError.Justified` says for each
fault which node can raise it, in which environment and with which functions; `PureEval.Explains`
says that all the errors of an evaluation are justified, with the functions that the evaluation
leaves. No function is declared after an error is raised, so the functions at the node and at the
end are the same, and a name that is unbound in an inner environment is unbound in the outer ones.
-/

namespace LetLang

/-! ### Operands of a wrong kind -/

/-- The error is about an operand of a wrong kind on `line`. -/
def RuntimeError.IsMismatch (line : Nat) (e : RuntimeError) : Prop :=
  e.fault ∈ [.expectedNumber, .expectedBool, .expectedText] ∧ e.line = line

/-- The computation can fail only because of an operand of a wrong kind on `line`. -/
def Mismatches (line : Nat) (x : Except RuntimeError α) : Prop :=
  ∀ e, x = .error e → e.IsMismatch line

section Mismatches

variable {line : Nat}

theorem mismatches_ok (a : α) : Mismatches line (.ok a) := by
  intro e h
  cases h

/-- The faults of a sequence are those of its parts. -/
theorem Mismatches.bind {x : Except RuntimeError α} {f : α → Except RuntimeError β}
    (hx : Mismatches line x) (hf : ∀ a, Mismatches line (f a)) : Mismatches line (x >>= f) := by
  intro e h
  cases x with
  | ok a => exact hf a e h
  | error e' =>
    apply hx
    rw [← Except.error.inj h]

theorem mismatches_asNumber (v : Value) : Mismatches line (v.asNumber line) := by
  intro e h
  cases v <;> cases h <;> exact ⟨by simp, rfl⟩

theorem mismatches_asBool (v : Value) : Mismatches line (v.asBool line) := by
  intro e h
  cases v <;> cases h <;> exact ⟨by simp, rfl⟩

theorem mismatches_asText (v : Value) : Mismatches line (v.asText line) := by
  intro e h
  cases v <;> cases h <;> exact ⟨by simp, rfl⟩

theorem mismatches_asNumbers (l r : Value) : Mismatches line (Value.asNumbers line l r) :=
  (mismatches_asNumber l).bind fun _ => (mismatches_asNumber r).bind fun _ => mismatches_ok _

theorem mismatches_asBools (l r : Value) : Mismatches line (Value.asBools line l r) :=
  (mismatches_asBool l).bind fun _ => (mismatches_asBool r).bind fun _ => mismatches_ok _

/-- A unary operator fails only on a value of another type. -/
theorem mismatches_applyUnary (op : UnaryOp) (v : Value) :
    Mismatches line (v.applyUnary op line) := by
  cases op with
  | negate => exact (mismatches_asNumber v).bind fun _ => mismatches_ok _
  | not => exact (mismatches_asBool v).bind fun _ => mismatches_ok _

/-- A binary operator fails only on a value of another type. -/
theorem mismatches_applyBinary (op : BinaryOp) (l r : Value) :
    Mismatches line (l.applyBinary op r line) := by
  unfold Value.applyBinary
  cases op.action with
  | arithmetic f => exact (mismatches_asNumbers l r).bind fun _ => mismatches_ok _
  | order f => exact (mismatches_asNumbers l r).bind fun _ => mismatches_ok _
  | equality outcome => exact mismatches_ok _
  | connective f => exact (mismatches_asBools l r).bind fun _ => mismatches_ok _
  | concatenation =>
    exact (mismatches_asText l).bind fun _ => (mismatches_asText r).bind fun _ => mismatches_ok _

theorem mismatches_applyReal (b : Builtin) (f : Float → Float) {args : List Value}
    (hargs : args.length = 1) : Mismatches line (b.applyReal f args line) := by
  obtain ⟨v, rfl⟩ := List.length_eq_one_iff.mp hargs
  exact (mismatches_asNumber v).bind fun _ => mismatches_ok _

theorem mismatches_applyLog {args : List Value} (hargs : args.length = 2) :
    Mismatches line (Builtin.applyLog args line) := by
  obtain ⟨base, v, rfl⟩ := List.length_eq_two.mp hargs
  exact (mismatches_asNumber base).bind fun _ => (mismatches_asNumber v).bind fun _ =>
    mismatches_ok _

/-- Raised by an evaluation, such a failure is about an operand of a wrong kind. -/
theorem Mismatches.isMismatch {x : Except RuntimeError α} (hx : Mismatches line x) {w w' : World}
    {e : RuntimeError} {printed : List Value}
    (h : (PureEval.ofExcept x).run w = ⟨.error e, printed, w'⟩) : e.IsMismatch line := by
  cases x with
  | ok a => cases h
  | error e' =>
    apply hx
    rw [Outcome.error.inj (Result.mk.inj h).1]

/-- With as many arguments as it has parameters, a built-in function only fails because of their
kinds. -/
theorem Builtin.isMismatch_of_run {b : Builtin} {args : List Value} (hargs : args.length = b.arity)
    {w w' : World} {e : RuntimeError} {printed : List Value}
    (h : (b.evalPure args line).run w = ⟨.error e, printed, w'⟩) : e.IsMismatch line := by
  cases b with
  | rand =>
    obtain rfl := List.length_eq_zero_iff.mp hargs
    cases h
  | print =>
    obtain ⟨v, rfl⟩ := List.length_eq_one_iff.mp hargs
    cases h
  | cos => exact (mismatches_applyReal _ Float.cos hargs).isMismatch h
  | sin => exact (mismatches_applyReal _ Float.sin hargs).isMismatch h
  | exp => exact (mismatches_applyReal _ Float.exp hargs).isMismatch h
  | sqrt => exact (mismatches_applyReal _ Float.sqrt hargs).isMismatch h
  | log => exact (mismatches_applyLog hargs).isMismatch h

end Mismatches

/-! ### Justified errors -/

/-- The error is one that some of the nodes can raise, in an environment where at least the names
that are unbound in `ρ` are unbound, and with the functions `F`. -/
inductive RuntimeError.Justified (node : Expr → Prop) (ρ : Env) (F : FunctionTable) :
    RuntimeError → Prop
  | mismatch {e : RuntimeError} {s : Expr} (hs : node s) (he : e.IsMismatch s.line) :
    Justified node ρ F e
  | condition {c t f : Expr} {line : Nat} (hs : node (.conditional c t f line)) (hc : node c) :
    Justified node ρ F ⟨.conditionNotBool, c.text, c.line⟩
  | undeclared {name : String} {line : Nat} (hs : node (.var name line)) (hname : ρ name = none) :
    Justified node ρ F ⟨.undeclaredVariable, name, line⟩
  | noFunction {name : String} {args : List Expr} {line : Nat} (hs : node (.call name args line))
    (hname : F.isFunction name = false) : Justified node ρ F ⟨.expectedFunction, name, line⟩
  | noOverload {name : String} {args : List Expr} {line : Nat} (hs : node (.call name args line))
    (hbuiltin : Builtin.isBuiltin name args.length = false)
    (hnone : F.hasOverload name args.length = false) (hname : F.isFunction name = true) :
    Justified node ρ F ⟨.incorrectArity args.length (F.arities name), name, line⟩
  | isBuiltin {f : Function} (hs : node (.function f.name f.params f.body f.line))
    (hbuiltin : Builtin.isBuiltin f.name f.arity = true) :
    Justified node ρ F ⟨.builtinRedefinition f.arity, f.name, f.line⟩
  | exists_ {f : Function} (hs : node (.function f.name f.params f.body f.line))
    (hoverload : F.hasOverload f.name f.arity = true) :
    Justified node ρ F ⟨.functionAlreadyExists f.arity, f.name, f.line⟩

/-- More nodes can raise an error, and in an environment with fewer names. -/
theorem RuntimeError.Justified.mono {node node' : Expr → Prop} {ρ ρ' : Env} {F : FunctionTable}
    {e : RuntimeError} (h : e.Justified node ρ F) (hnode : ∀ s, node s → node' s)
    (hρ : ∀ x, ρ x = none → ρ' x = none) : e.Justified node' ρ' F := by
  cases h with
  | mismatch hs he => exact .mismatch (hnode _ hs) he
  | condition hs hc => exact .condition (hnode _ hs) (hnode _ hc)
  | undeclared hs hname => exact .undeclared (hnode _ hs) (hρ _ hname)
  | noFunction hs hname => exact .noFunction (hnode _ hs) hname
  | noOverload hs hbuiltin hnone hname => exact .noOverload (hnode _ hs) hbuiltin hnone hname
  | isBuiltin hs hbuiltin => exact .isBuiltin (hnode _ hs) hbuiltin
  | exists_ hs hoverload => exact .exists_ (hnode _ hs) hoverload

namespace RuntimeError.Justified

variable {node : Expr → Prop} {ρ : Env} {F : FunctionTable} {e : RuntimeError}

/-- An error that is not about the kind of an operand has another fault. -/
theorem fault_ne {fault : RuntimeFault} {line : Nat} (h : e.IsMismatch line)
    (hfault : fault ∉ [.expectedNumber, .expectedBool, .expectedText]) : e.fault ≠ fault := by
  intro heq
  rw [← heq] at hfault
  exact hfault h.1

theorem eq_none_of_undeclared (h : e.Justified node ρ F) (hfault : e.fault = .undeclaredVariable) :
    ρ e.token = none := by
  cases h with
  | undeclared hs hname => exact hname
  | mismatch hs he => exact absurd hfault (fault_ne he (by simp))
  | _ => cases hfault

theorem not_isFunction (h : e.Justified node ρ F) (hfault : e.fault = .expectedFunction) :
    F.isFunction e.token = false := by
  cases h with
  | noFunction hs hname => exact hname
  | mismatch hs he => exact absurd hfault (fault_ne he (by simp))
  | _ => cases hfault

theorem arities_eq {found : Nat} {declared : List Nat} (h : e.Justified node ρ F)
    (hfault : e.fault = .incorrectArity found declared) :
    declared = F.arities e.token ∧ F.isFunction e.token = true ∧
      F.hasOverload e.token found = false ∧ Builtin.isBuiltin e.token found = false := by
  cases h with
  | noOverload hs hbuiltin hnone hname =>
    obtain ⟨rfl, rfl⟩ := RuntimeFault.incorrectArity.inj hfault
    exact ⟨rfl, hname, hnone, hbuiltin⟩
  | mismatch hs he => exact absurd hfault (fault_ne he (by simp))
  | _ => cases hfault

theorem hasOverload {arity : Nat} (h : e.Justified node ρ F)
    (hfault : e.fault = .functionAlreadyExists arity) : F.hasOverload e.token arity = true := by
  cases h with
  | exists_ hs hoverload =>
    rw [← RuntimeFault.functionAlreadyExists.inj hfault]
    exact hoverload
  | mismatch hs he => exact absurd hfault (fault_ne he (by simp))
  | _ => cases hfault

theorem isBuiltin_of_redefinition {arity : Nat} (h : e.Justified node ρ F)
    (hfault : e.fault = .builtinRedefinition arity) : Builtin.isBuiltin e.token arity = true := by
  cases h with
  | isBuiltin hs hbuiltin =>
    rw [← RuntimeFault.builtinRedefinition.inj hfault]
    exact hbuiltin
  | mismatch hs he => exact absurd hfault (fault_ne he (by simp))
  | _ => cases hfault

theorem exists_conditional (h : e.Justified node ρ F) (hfault : e.fault = .conditionNotBool) :
    ∃ condition onTrue onFalse line, node (.conditional condition onTrue onFalse line) ∧
      e.token = condition.text ∧ e.line = condition.line := by
  cases h with
  | condition hs hc => exact ⟨_, _, _, _, hs, rfl, rfl⟩
  | mismatch hs he => exact absurd hfault (fault_ne he (by simp))
  | _ => cases hfault

/-- A justified error is on the line of a node. -/
theorem exists_line (h : e.Justified node ρ F) : ∃ s, node s ∧ e.line = s.line := by
  cases h with
  | mismatch hs he => exact ⟨_, hs, he.2⟩
  | condition hs hc => exact ⟨_, hc, rfl⟩
  | undeclared hs _ => exact ⟨_, hs, rfl⟩
  | noFunction hs _ => exact ⟨_, hs, rfl⟩
  | noOverload hs _ _ _ => exact ⟨_, hs, rfl⟩
  | isBuiltin hs _ => exact ⟨_, hs, rfl⟩
  | exists_ hs _ => exact ⟨_, hs, rfl⟩

end RuntimeError.Justified

/-- The tree stands in the body of a declared function. -/
def FunctionTable.InBody (F : FunctionTable) (s : Expr) : Prop :=
  ∃ name arity f, F.find? name arity = some f ∧ s ∈ f.body.subtrees

/-! ### Evaluations whose errors are justified -/

namespace PureEval

/-- Each error of the evaluation is justified by one of the nodes or by one in the body of a
declared function, with the functions that the evaluation leaves. -/
def Explains (node : Expr → Prop) (ρ : Env) (m : PureEval α) : Prop :=
  ∀ (w w' : World) (e : RuntimeError) (printed : List Value),
    m.run w = ⟨.error e, printed, w'⟩ →
      e.Justified (fun s => node s ∨ w'.functions.InBody s) ρ w'.functions

variable {node : Expr → Prop} {ρ : Env}

/-- An evaluation may be part of another one, in an environment with fewer names. -/
theorem Explains.outer {ρ' : Env} {m : PureEval α} (h : m.Explains node ρ)
    (hρ : ∀ x, ρ x = none → ρ' x = none) : m.Explains node ρ' := by
  intro w w' e printed hrun
  exact (h w w' e printed hrun).mono (fun s hs => hs) hρ

theorem explains_pure (a : α) : (pure a : PureEval α).Explains node ρ := by
  intro w w' e printed h
  cases h

theorem explains_tooDeep : (tooDeep : PureEval α).Explains node ρ := by
  intro w w' e printed h
  cases h

/-- Of the second evaluation it is enough to know something for the values that the first one can
have. -/
theorem Explains.bind {m : PureEval α} {f : α → PureEval β} (hm : m.Explains node ρ)
    (hf : ∀ w w' a printed, m.run w = ⟨.value a, printed, w'⟩ → (f a).Explains node ρ) :
    (m >>= f).Explains node ρ := by
  intro w w' e printed h
  obtain ⟨p, hrun⟩ | ⟨a, p, w₁, p', hrun, hrun'⟩ := run_bind_eq_error h
  · exact hm w w' e p hrun
  · exact hf w w₁ a p hrun w₁ w' e p' hrun'

theorem explains_ofExcept {s : Expr} (hs : node s) {x : Except RuntimeError α}
    (hx : Mismatches s.line x) : (ofExcept x).Explains node ρ := by
  intro w w' e printed h
  exact .mismatch (.inl hs) (hx.isMismatch h)

/-- A lookup that fails is of a variable that is not declared. -/
theorem explains_lookup {name : String} {line : Nat} (hs : node (.var name line)) :
    (ofExcept (ρ.lookup name line)).Explains node ρ := by
  intro w w' e printed h
  unfold Env.lookup at h
  cases hname : ρ name with
  | some v =>
    rw [hname] at h
    cases h
  | none =>
    rw [hname] at h
    obtain ⟨⟨rfl⟩, -, rfl⟩ := Result.mk.inj h
    exact .undeclared (.inl hs) hname

/-- A declaration that fails is of a builtin, or of an overload that exists. -/
theorem explains_declare {f : Function} (hs : node (.function f.name f.params f.body f.line)) :
    (declare f).Explains node ρ := by
  intro w w' e printed h
  dsimp only [declare, run] at h
  by_cases hbuiltin : Builtin.isBuiltin f.name f.arity = true
  · rw [if_pos hbuiltin] at h
    obtain ⟨⟨rfl⟩, -, rfl⟩ := Result.mk.inj h
    exact .isBuiltin (.inl hs) hbuiltin
  · rw [if_neg hbuiltin] at h
    by_cases hoverload : w.functions.hasOverload f.name f.arity = true
    · rw [if_pos hoverload] at h
      obtain ⟨⟨rfl⟩, -, rfl⟩ := Result.mk.inj h
      exact .exists_ (.inl hs) hoverload
    · rw [if_neg hoverload] at h
      cases h

/-- A call finds a function, which stays where it is, or its error is justified. -/
theorem run_findFunction {name : String} {args : List Expr} {line : Nat}
    (hs : node (.call name args line)) (hbuiltin : Builtin.isBuiltin name args.length = false)
    (w : World) :
    (∃ f, w.functions.find? name args.length = some f ∧
      (findFunction name args.length line).run w = ⟨.value f, [], w⟩) ∨
    ∃ e, (findFunction name args.length line).run w = ⟨.error e, [], w⟩ ∧
      e.Justified (fun s => node s ∨ w.functions.InBody s) ρ w.functions := by
  dsimp only [findFunction, run]
  cases hfind : w.functions.find? name args.length with
  | some f => exact .inl ⟨f, rfl, rfl⟩
  | none =>
    right
    have hnone : w.functions.hasOverload name args.length = false := by
      rw [FunctionTable.hasOverload, hfind]
      rfl
    dsimp only
    by_cases hname : w.functions.isFunction name = true
    · exact ⟨_, if_pos hname, .noOverload (.inl hs) hbuiltin hnone hname⟩
    · exact ⟨_, if_neg hname, .noFunction (.inl hs) (Bool.eq_false_iff.mpr hname)⟩

end PureEval

/-! ### Trees -/

/-- Names that are unbound after a definition were unbound before. -/
theorem Env.eq_none_of_bind {ρ : Env} {name x : String} {v : Value} (h : ρ.bind name v x = none) :
    ρ x = none := by
  unfold Env.bind at h
  by_cases hx : x = name
  · rw [hx, Function.update_self] at h
    cases h
  · rwa [Function.update_of_ne hx] at h

theorem Env.eq_none_of_bindAll {definitions : List (String × Value)} {ρ : Env} {x : String}
    (h : ρ.bindAll definitions x = none) : ρ x = none := by
  induction definitions generalizing ρ with
  | nil => exact h
  | cons d definitions ih => exact eq_none_of_bind (ih h)

namespace Expr

open PureEval

theorem mem_subtrees_self (e : Expr) : e ∈ e.subtrees := by
  cases e <;> simp only [subtrees] <;> exact List.mem_cons_self

section

variable {enter : Expr → Env → PureEval Value}

/-- The environment of the body of a `let` has the names of the environment around it. -/
theorem eq_none_of_extendWith {bs : List (Binding Expr)} {ρ inner : Env} {w w' : World}
    {printed : List Value} (h : (extendWith enter bs ρ).run w = ⟨.value inner, printed, w'⟩)
    {x : String} (hx : inner x = none) : ρ x = none := by
  induction bs generalizing ρ w printed with
  | nil =>
    rw [extendWith] at h
    obtain ⟨⟨rfl⟩, -, -⟩ := Result.mk.inj h
    exact hx
  | cons b bs ih =>
    rw [extendWith] at h
    obtain ⟨v, p, w₁, p', -, hmore⟩ := run_bind_eq_value h
    exact Env.eq_none_of_bind (ih hmore)

variable {node : Expr → Prop}

/-- A built-in function that is dispatched gets as many values as it has parameters, so its errors
are mismatches of types. -/
theorem isMismatch_of_dispatch {name : String} {args : List Expr} {line : Nat} {ρ : Env}
    {b : Builtin} (hb : Builtin.find? name args.length = some b) {w₁ w₂ w w' : World}
    {vs p printed : List Value} {e : RuntimeError}
    (hvs : (evalListInWith enter args ρ).run w₁ = ⟨.value vs, p, w₂⟩)
    (hrun : (b.evalPure vs line).run w = ⟨.error e, printed, w'⟩) : e.IsMismatch line := by
  have harity : b.arity = args.length := by
    have hfound := List.find?_some hb
    exact (of_decide_eq_true hfound).2
  have hlength : vs.length = b.arity := (length_of_run_evalListInWith hvs).trans harity.symm
  exact Builtin.isMismatch_of_run hlength hrun

/-- A built-in function whose arguments raise justified errors raises justified errors. -/
theorem explains_builtin {name : String} {args : List Expr} {line : Nat} {ρ : Env} {b : Builtin}
    (hb : Builtin.find? name args.length = some b) (hself : node (call name args line))
    (hargs : (evalListInWith enter args ρ).Explains node ρ) :
    (evalListInWith enter args ρ >>= fun vs => b.evalPure vs line).Explains node ρ := by
  refine hargs.bind fun w₁ w₂ vs p hvs => ?_
  intro w w' e printed hrun
  exact .mismatch (.inl hself) (isMismatch_of_dispatch hb hvs hrun)

/-- The errors of the body that a call enters are justified: its function is still declared when
the body fails. -/
theorem justified_of_enter (hgrows : ∀ e ρ, (enter e ρ).Grows)
    (henter : ∀ e ρ, (enter e ρ).Explains (· ∈ e.subtrees) ρ) {name : String} {args : List Expr}
    {ρ : Env} {f : Function} {vs p p' : List Value} {w w₁ w' : World} {e : RuntimeError}
    (hf : w.functions.find? name args.length = some f)
    (hvs : (evalListInWith enter args ρ).run w = ⟨.value vs, p, w₁⟩)
    (hbody : (enter f.body (ρ.bindAll (f.params.zip vs))).run w₁ = ⟨.error e, p', w'⟩) :
    e.Justified (fun s => node s ∨ w'.functions.InBody s) ρ w'.functions := by
  have hgrown : w.functions.Grows w'.functions := by
    have hlist : (evalListInWith enter args ρ).Grows :=
      evalListInWith_keeps (keptBySteps_grows hgrows) args ρ fun _ _ => trivial
    have hfirst := hlist w
    have hsecond := hgrows f.body (ρ.bindAll (f.params.zip vs)) w₁
    rw [hvs] at hfirst
    rw [hbody] at hsecond
    exact hfirst.trans hsecond
  have hstill := hgrown.find?_eq_some hf
  refine (henter _ _ w₁ w' e p' hbody).mono (fun s hs => ?_) fun x => Env.eq_none_of_bindAll
  obtain hs | hs := hs
  · exact .inr ⟨_, _, f, hstill, hs⟩
  · exact .inr hs

/-- A call whose arguments raise justified errors raises justified errors. -/
theorem explains_call (hgrows : ∀ e ρ, (enter e ρ).Grows)
    (henter : ∀ e ρ, (enter e ρ).Explains (· ∈ e.subtrees) ρ) {name : String} {args : List Expr}
    {line : Nat} {ρ : Env} (hself : node (call name args line))
    (hargs : (evalListInWith enter args ρ).Explains node ρ) :
    (evalInWith enter (call name args line) ρ).Explains node ρ := by
  simp only [evalInWith]
  cases hb : Builtin.find? name args.length with
  | some b => exact explains_builtin hb hself hargs
  | none =>
    have hbuiltin : Builtin.isBuiltin name args.length = false := by
      rw [Builtin.isBuiltin, hb]
      rfl
    intro w w' e printed hrun
    obtain ⟨f, hf, hfind⟩ | ⟨e', hfind, he'⟩ := run_findFunction hself hbuiltin w
    · obtain ⟨p, hfail⟩ | ⟨g, p, w₁, p', hfound, hmore⟩ := run_bind_eq_error hrun
      · rw [hfind] at hfail
        cases hfail
      · rw [hfind] at hfound
        obtain ⟨⟨rfl⟩, -, rfl⟩ := Result.mk.inj hfound
        obtain ⟨p, hrun⟩ | ⟨vs, p, w₁, p', hvs, hbody⟩ := run_bind_eq_error hmore
        · exact hargs w w' e p hrun
        · exact justified_of_enter hgrows henter hf hvs hbody
    · rw [run_bind, hfind] at hrun
      obtain ⟨⟨rfl⟩, -, rfl⟩ := Result.mk.inj hrun
      exact he'

mutual

/-- The errors of a tree are justified by its nodes. -/
theorem evalInWith_explains (hgrows : ∀ e ρ, (enter e ρ).Grows)
    (henter : ∀ e ρ, (enter e ρ).Explains (· ∈ e.subtrees) ρ) :
    ∀ (e : Expr) (ρ : Env), (∀ s ∈ e.subtrees, node s) → (evalInWith enter e ρ).Explains node ρ
  | literal v line, ρ, _ => by
    simp only [evalInWith]
    exact explains_pure v.value
  | unary op operand line, ρ, he => by
    simp only [subtrees, List.forall_mem_cons] at he
    have hoperand := evalInWith_explains hgrows henter operand ρ he.2
    simp only [evalInWith]
    exact hoperand.bind fun _ _ v _ _ => explains_ofExcept he.1 (mismatches_applyUnary op v)
  | binary op left right line, ρ, he => by
    simp only [subtrees, List.forall_mem_cons, List.forall_mem_append] at he
    have hleft := evalInWith_explains hgrows henter left ρ he.2.1
    have hright := evalInWith_explains hgrows henter right ρ he.2.2
    simp only [evalInWith]
    exact hleft.bind fun _ _ l _ _ => hright.bind fun _ _ r _ _ =>
      explains_ofExcept he.1 (mismatches_applyBinary op l r)
  | conditional condition onTrue onFalse line, ρ, he => by
    simp only [subtrees, List.forall_mem_cons, List.forall_mem_append] at he
    have hcondition := he.2.1 condition (mem_subtrees_self condition)
    have hfail : (fail ⟨.conditionNotBool, condition.text, condition.line⟩ :
        PureEval Value).Explains node ρ := by
      intro w w' e printed hrun
      obtain ⟨⟨rfl⟩, -, rfl⟩ := Result.mk.inj hrun
      exact .condition (.inl he.1) (.inl hcondition)
    simp only [evalInWith]
    refine (evalInWith_explains hgrows henter condition ρ he.2.1).bind fun _ _ v _ _ => ?_
    cases v with
    | bool b =>
      cases b with
      | true => exact evalInWith_explains hgrows henter onTrue ρ he.2.2.1
      | false => exact evalInWith_explains hgrows henter onFalse ρ he.2.2.2
    | number _ => exact hfail
    | text _ => exact hfail
    | nil => exact hfail
  | var name line, ρ, he => by
    simp only [evalInWith]
    exact explains_lookup (he _ (mem_subtrees_self (var name line)))
  | letIn bindings body line, ρ, he => by
    simp only [subtrees, List.forall_mem_cons, List.forall_mem_append] at he
    simp only [evalInWith]
    refine (extendWith_explains hgrows henter bindings ρ he.2.1).bind fun _ _ inner _ hinner => ?_
    -- a name that is unbound in the body is unbound outside
    have hbody := evalInWith_explains hgrows henter body inner he.2.2
    exact hbody.outer fun x => eq_none_of_extendWith hinner
  | function name params body line, ρ, he => by
    have hself := he _ (mem_subtrees_self (function name params body line))
    simp only [evalInWith]
    exact (explains_declare hself).bind fun _ _ _ _ _ => explains_pure _
  | call name args line, ρ, he => by
    simp only [subtrees, List.forall_mem_cons] at he
    exact explains_call hgrows henter he.1 (evalListInWith_explains hgrows henter args ρ he.2)

/-- The errors of a list of operands are explained by a node of one of them. -/
theorem evalListInWith_explains (hgrows : ∀ e ρ, (enter e ρ).Grows)
    (henter : ∀ e ρ, (enter e ρ).Explains (· ∈ e.subtrees) ρ) :
    ∀ (es : List Expr) (ρ : Env), (∀ s ∈ listSubtrees es, node s) →
      (evalListInWith enter es ρ).Explains node ρ
  | [], ρ, _ => by
    simp only [evalListInWith]
    exact explains_pure []
  | e :: es, ρ, he => by
    simp only [listSubtrees, List.forall_mem_append] at he
    have hfirst := evalInWith_explains hgrows henter e ρ he.1
    have hmore := evalListInWith_explains hgrows henter es ρ he.2
    simp only [evalListInWith]
    exact hfirst.bind fun _ _ v _ _ => hmore.bind fun _ _ vs _ _ => explains_pure (v :: vs)

/-- The errors of the bindings of a `let` are explained by a node of a value. -/
theorem extendWith_explains (hgrows : ∀ e ρ, (enter e ρ).Grows)
    (henter : ∀ e ρ, (enter e ρ).Explains (· ∈ e.subtrees) ρ) :
    ∀ (bs : List (Binding Expr)) (ρ : Env), (∀ s ∈ bindingSubtrees bs, node s) →
      (extendWith enter bs ρ).Explains node ρ
  | [], ρ, _ => by
    simp only [extendWith]
    exact explains_pure ρ
  | ⟨name, value, line⟩ :: bs, ρ, he => by
    simp only [bindingSubtrees, List.forall_mem_append] at he
    have hvalue := evalInWith_explains hgrows henter value ρ he.1
    simp only [extendWith]
    refine hvalue.bind fun _ _ v _ _ => ?_
    have hmore := extendWith_explains hgrows henter bs (ρ.bind name v) he.2
    exact hmore.outer fun x => Env.eq_none_of_bind

end

end

/-- The errors of a tree are justified by its nodes and by those in the bodies that it enters. -/
theorem evalIn_explains (depth : Nat) (e : Expr) (ρ : Env) :
    (evalIn depth e ρ).Explains (· ∈ e.subtrees) ρ := by
  induction depth generalizing e ρ with
  | zero =>
    refine evalInWith_explains (fun _ _ _ => .refl) (fun _ _ => explains_tooDeep) e ρ ?_
    exact fun s hs => hs
  | succ n ih => exact evalInWith_explains (evalIn_grows n) ih e ρ fun s hs => hs

/-- The tree `s` is a node of `tree` or of the body of a function that is declared in `c`. -/
def IsNodeOf (tree : Expr) (c : Context) (s : Expr) : Prop :=
  s ∈ tree.subtrees ∨ c.functions.InBody s

theorem justified_of_run {depth : Nat} {tree : Expr} {c c' : Context} {e : RuntimeError}
    (h : (tree.evalUpTo depth).run c = (.error e, c')) :
    e.Justified (tree.IsNodeOf c') c'.visible c'.functions := by
  rw [evalUpTo_refines_evalIn depth tree c] at h
  obtain ⟨houtcome, hafter⟩ := Prod.mk.inj h
  rcases hrun : (evalIn depth tree c.visible).run c.world with ⟨outcome, printed, w⟩
  rw [hrun] at houtcome hafter
  subst houtcome hafter
  exact evalIn_explains depth tree c.visible c.world w e printed hrun

/-- **Truthful errors**: a runtime error is true of the context that the evaluation leaves. An
undeclared variable is unbound, an expected function is not declared, an incorrect arity is none of
the declared ones, which are listed in ascending order, and none of a built-in function; what exists
already is declared, and what is built in is built in. A condition that is not boolean is that of a
conditional in the tree or in the body of a declared function, and every error is on the line of
some node there. -/
theorem evalUpTo_error_truthful {depth : Nat} {tree : Expr} {c c' : Context} {e : RuntimeError}
    (h : (tree.evalUpTo depth).run c = (.error e, c')) :
    (e.fault = .undeclaredVariable → c'.isBound e.token = false) ∧
    (e.fault = .expectedFunction → c'.functions.isFunction e.token = false) ∧
    (∀ found declared, e.fault = .incorrectArity found declared →
      declared = c'.functions.arities e.token ∧ declared ≠ [] ∧ declared.Pairwise (· < ·) ∧
      found ∉ declared ∧ Builtin.isBuiltin e.token found = false) ∧
    (∀ arity, e.fault = .functionAlreadyExists arity →
      c'.functions.hasOverload e.token arity = true) ∧
    (∀ arity, e.fault = .builtinRedefinition arity → Builtin.isBuiltin e.token arity = true) ∧
    (e.fault = .conditionNotBool → ∃ condition onTrue onFalse line,
      tree.IsNodeOf c' (conditional condition onTrue onFalse line) ∧
      e.token = condition.text ∧ e.line = condition.line) ∧
    ∃ s, tree.IsNodeOf c' s ∧ e.line = s.line := by
  have he := justified_of_run h
  refine ⟨fun hfault => ?_, he.not_isFunction, fun found declared hfault => ?_,
    fun arity => he.hasOverload, fun arity => he.isBuiltin_of_redefinition, he.exists_conditional,
    he.exists_line⟩
  · have hnone : (c'.vars.stack e.token).head? = none := he.eq_none_of_undeclared hfault
    rw [Context.isBound, Variables.lookup?_eq_head?, hnone]
    rfl
  · obtain ⟨rfl, hname, hnone, hbuiltin⟩ := he.arities_eq hfault
    refine ⟨rfl, FunctionTable.isFunction_iff.mp hname, FunctionTable.pairwise_arities _ _, ?_,
      hbuiltin⟩
    intro hmem
    rw [FunctionTable.mem_arities_iff.mp hmem] at hnone
    cases hnone

/-- The function that the value of a `let` declares is called in its body with a wrong number of
arguments. -/
theorem evalUpTo_error_in_let :
    ∃ c' : Context,
      ((letIn [⟨"x", function "f" ["a"] (var "a" 2) 2, 2⟩] (call "f" [] 3) 1).evalUpTo 1).run {} =
        (.error ⟨.incorrectArity 0 [1], "f", 3⟩, c') ∧
      c'.functions.arities "f" = [1] ∧ Builtin.isBuiltin "f" 0 = false := by
  have hrun :
      ((letIn [⟨"x", function "f" ["a"] (var "a" 2) 2, 2⟩] (call "f" [] 3) 1).evalUpTo 1).run {} =
        (.error ⟨.incorrectArity 0 [1], "f", 3⟩, _) := rfl
  obtain ⟨harities, -, -, -, hbuiltin⟩ := (evalUpTo_error_truthful hrun).2.2.1 0 [1] rfl
  exact ⟨_, hrun, harities.symm, hbuiltin⟩

end Expr

end LetLang
