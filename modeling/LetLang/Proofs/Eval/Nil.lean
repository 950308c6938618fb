import LetLang.Proofs.Eval.Nested
import LetLang.Proofs.Eval.Refinement
import LetLang.Proofs.Eval.Uniform

/-!
# Where `nil` comes from

Only a declaration has the value `nil`. Every operator and every built-in function gives another
value, or passes on one that it was given. So among functions whose bodies declare nothing, and
while no variable is `nil`, a tree without declarations does not evaluate to `nil`
(`Context.Clean.run_evalUpTo`). The same then goes for all that is evaluated on the way, since each
evaluation hands on what is needed to those that it starts (`Evaluation.Starts.clean`).
-/

namespace LetLang

/-! ### Values -/

namespace Value

/-- No unary operator gives nil. -/
theorem applyUnary_ne_nil {op : UnaryOp} {v w : Value} {line : Nat}
    (h : v.applyUnary op line = .ok w) : w ≠ .nil := by
  rintro rfl
  cases op <;> cases v <;> cases h

/-- No binary operator gives nil. -/
theorem applyBinary_ne_nil {op : BinaryOp} {l r w : Value} {line : Nat}
    (h : l.applyBinary op r line = .ok w) : w ≠ .nil := by
  rintro rfl
  unfold applyBinary at h
  generalize op.action = action at h
  cases action with
  | equality outcome => cases h
  | _ => cases l <;> cases r <;> cases h

end Value

theorem Literal.value_ne_nil (v : Literal) : v.value ≠ .nil := by
  cases v <;> exact Value.noConfusion

/-- In the environment no name stands for `nil`. -/
def Env.NilFree (ρ : Env) : Prop := ∀ x, ρ x ≠ some .nil

/-- Binding a name to another value than nil keeps the environment free of nil. -/
theorem Env.NilFree.bind {ρ : Env} (h : ρ.NilFree) (name : String) {v : Value} (hv : v ≠ .nil) :
    (ρ.bind name v).NilFree := by
  intro x hx
  unfold Env.bind at hx
  by_cases hname : x = name
  · rw [hname, Function.update_self] at hx
    exact hv (Option.some.inj hx)
  · rw [Function.update_of_ne hname] at hx
    exact h x hx

theorem Env.NilFree.bindAll {ds : List (String × Value)} (hds : ∀ d ∈ ds, d.2 ≠ .nil) {ρ : Env}
    (h : ρ.NilFree) : (ρ.bindAll ds).NilFree := by
  induction ds generalizing ρ with
  | nil => exact h
  | cons d ds ih =>
    obtain ⟨hd, hds⟩ := List.forall_mem_cons.mp hds
    exact ih hds (h.bind d.1 hd)

/-- What is found in an environment without nil is not nil. -/
theorem Env.NilFree.lookup_ne_nil {ρ : Env} (h : ρ.NilFree) {name : String} {line : Nat} {v : Value}
    (hv : ρ.lookup name line = .ok v) : v ≠ .nil := by
  rintro rfl
  unfold Env.lookup at hv
  cases hname : ρ name with
  | some w =>
    rw [hname] at hv
    rw [Except.ok.inj hv] at hname
    exact h name hname
  | none =>
    rw [hname] at hv
    cases hv

/-- Arguments that are not `nil` define no parameter as `nil`. -/
theorem snd_ne_nil_of_mem_zip {params : List String} {vs : List Value} (h : ∀ v ∈ vs, v ≠ .nil) :
    ∀ d ∈ params.zip vs, d.2 ≠ .nil :=
  fun d hd => h d.2 (List.of_mem_zip hd).2

/-! ### Results without `nil` -/

/-- The result leaves the functions `F`, a value in it satisfies `P`, and `nil` is not printed. -/
structure Result.Clean (F : FunctionTable) (P : α → Prop) (r : Result α) : Prop where
  functions : r.world.functions = F
  value : ∀ a, r.outcome = .value a → P a
  printed : ∀ v ∈ r.printed, v ≠ .nil

namespace PureEval

/-- Among the functions `F` the evaluation declares none, its value satisfies `P`, and it does not
print `nil`. -/
def Ensures (F : FunctionTable) (P : α → Prop) (m : PureEval α) : Prop :=
  ∀ r, (m.run ⟨F, r⟩).Clean F P

variable {F : FunctionTable} {P : α → Prop} {Q : β → Prop}

theorem ensures_pure {a : α} (h : P a) : Ensures F P (pure a : PureEval α) := by
  refine fun r => ⟨rfl, fun b hb => ?_, List.forall_mem_nil _⟩
  exact Outcome.value.inj hb ▸ h

theorem ensures_fail (e : RuntimeError) : Ensures F P (fail e : PureEval α) := by
  refine fun r => ⟨rfl, fun a ha => ?_, List.forall_mem_nil _⟩
  cases ha

theorem ensures_tooDeep : Ensures F P (tooDeep : PureEval α) := by
  refine fun r => ⟨rfl, fun a ha => ?_, List.forall_mem_nil _⟩
  cases ha

theorem ensures_ofExcept {x : Except RuntimeError α} (h : ∀ a, x = .ok a → P a) :
    Ensures F P (ofExcept x) := by
  cases x with
  | ok a => exact ensures_pure (h a rfl)
  | error e => exact ensures_fail e

/-- What the first part ensures may be used by the second one. -/
theorem Ensures.bind {m : PureEval α} {f : α → PureEval β} (hm : Ensures F P m)
    (hf : ∀ a, P a → Ensures F Q (f a)) : Ensures F Q (m >>= f) := by
  intro r
  have hfirst := hm r
  rw [run_bind]
  rcases hrun : m.run ⟨F, r⟩ with ⟨a | e | _, printed, ⟨F', q⟩⟩ <;> rw [hrun] at hfirst
  · -- the second evaluation runs among the same functions
    obtain rfl : F' = F := hfirst.functions
    have hsecond := hf a (hfirst.value a rfl) q
    exact ⟨hsecond.functions, hsecond.value,
      List.forall_mem_append.mpr ⟨hfirst.printed, hsecond.printed⟩⟩
  · refine ⟨hfirst.functions, fun b hb => ?_, hfirst.printed⟩
    cases hb
  · refine ⟨hfirst.functions, fun b hb => ?_, hfirst.printed⟩
    cases hb

/-- The function that is found is one of the table. -/
theorem Ensures.findFunction {name : String} {count line : Nat} {f : Function → PureEval α}
    (hf : ∀ g ∈ F, Ensures F P (f g)) : Ensures F P (findFunction name count line >>= f) := by
  intro r
  obtain ⟨e, hrun⟩ | ⟨g, hg, hrun⟩ := run_findFunction_cases name count line F
  · rw [run_bind, hrun]
    exact ensures_fail e r
  · rw [run_bind, hrun]
    exact hf g (List.mem_of_find?_eq_some hg) r

end PureEval

namespace Builtin

open PureEval

theorem applyReal_ne_nil {b : Builtin} {f : Float → Float} {args : List Value} {line : Nat}
    {v : Value} (h : b.applyReal f args line = .ok v) : v ≠ .nil := by
  rintro rfl
  rcases args with _ | ⟨w, _ | _⟩
  · cases h
  · cases w <;> cases h
  · cases h

theorem applyLog_ne_nil {args : List Value} {line : Nat} {v : Value}
    (h : applyLog args line = .ok v) : v ≠ .nil := by
  rintro rfl
  rcases args with _ | ⟨base, _ | ⟨w, _ | _⟩⟩
  · cases h
  · cases h
  · cases base <;> cases w <;> cases h
  · cases h

/-- A built-in function that is not given `nil` does not give it, and does not print it. -/
theorem evalPure_ensures {F : FunctionTable} (b : Builtin) {args : List Value}
    (hargs : ∀ v ∈ args, v ≠ .nil) (line : Nat) :
    Ensures F (· ≠ .nil) (b.evalPure args line) := by
  cases b with
  | rand =>
    rcases args with _ | _
    · refine fun r => ⟨rfl, fun v hv => ?_, List.forall_mem_nil _⟩
      rw [← Outcome.value.inj hv]
      exact Value.noConfusion
    · exact ensures_fail _
  | print =>
    rcases args with _ | ⟨v, _ | _⟩
    · exact ensures_fail _
    · -- what is printed is the argument, and so is the value
      refine fun r => ⟨rfl, fun w hw => ?_, hargs⟩
      rw [← Outcome.value.inj hw]
      exact hargs v List.mem_cons_self
    · exact ensures_fail _
  | cos | sin | exp | sqrt => exact ensures_ofExcept fun v => applyReal_ne_nil
  | log => exact ensures_ofExcept fun v => applyLog_ne_nil

end Builtin

namespace Expr

open PureEval

section

variable {F : FunctionTable} {enter : Expr → Env → PureEval Value}

mutual

/-- A tree without declarations does not evaluate to `nil`, if the bodies of functions do not. -/
theorem evalInWith_ensures
    (henter : ∀ f ∈ F, ∀ ρ : Env, ρ.NilFree → Ensures F (· ≠ .nil) (enter f.body ρ)) :
    ∀ (e : Expr) (ρ : Env), e.FunctionFree → ρ.NilFree →
      Ensures F (· ≠ .nil) (evalInWith enter e ρ)
  | literal v _, _, _, _ => by
    simp only [evalInWith]
    exact ensures_pure v.value_ne_nil
  | unary op operand line, ρ, he, hρ => by
    simp only [evalInWith]
    exact (evalInWith_ensures henter operand ρ (functionFree_unary.mp he) hρ).bind fun v _ =>
      ensures_ofExcept fun w => Value.applyUnary_ne_nil
  | binary op left right line, ρ, he, hρ => by
    obtain ⟨hl, hr⟩ := functionFree_binary.mp he
    simp only [evalInWith]
    exact (evalInWith_ensures henter left ρ hl hρ).bind fun l _ =>
      (evalInWith_ensures henter right ρ hr hρ).bind fun r _ =>
        ensures_ofExcept fun w => Value.applyBinary_ne_nil
  | conditional condition onTrue onFalse _, ρ, he, hρ => by
    obtain ⟨hc, ht, hf⟩ := functionFree_conditional.mp he
    simp only [evalInWith]
    refine (evalInWith_ensures henter condition ρ hc hρ).bind fun v _ => ?_
    cases v with
    | bool b =>
      cases b with
      | true => exact evalInWith_ensures henter onTrue ρ ht hρ
      | false => exact evalInWith_ensures henter onFalse ρ hf hρ
    | number _ => exact ensures_fail _
    | text _ => exact ensures_fail _
    | nil => exact ensures_fail _
  | var name line, ρ, _, hρ => by
    simp only [evalInWith]
    exact ensures_ofExcept fun v => hρ.lookup_ne_nil
  | letIn bindings body _, ρ, he, hρ => by
    obtain ⟨hbindings, hbody⟩ := functionFree_letIn.mp he
    simp only [evalInWith]
    exact (extendWith_ensures henter bindings ρ hbindings hρ).bind fun inner hinner =>
      evalInWith_ensures henter body inner hbody hinner
  | function name params body line, _, he, _ =>
    absurd he (not_functionFree_function name params body line)
  | call name args line, ρ, he, hρ => by
    have hargs := evalListInWith_ensures henter args ρ (functionFree_call.mp he) hρ
    simp only [evalInWith]
    cases Builtin.find? name args.length with
    | some b => exact hargs.bind fun vs hvs => b.evalPure_ensures hvs line
    | none =>
      refine .findFunction fun f hf => hargs.bind fun vs hvs => ?_
      exact henter f hf _ (hρ.bindAll (snd_ne_nil_of_mem_zip hvs))

/-- No value of a list of operands is nil, if no function is declared in them. -/
theorem evalListInWith_ensures
    (henter : ∀ f ∈ F, ∀ ρ : Env, ρ.NilFree → Ensures F (· ≠ .nil) (enter f.body ρ)) :
    ∀ (es : List Expr) (ρ : Env), (∀ e ∈ es, e.FunctionFree) → ρ.NilFree →
      Ensures F (fun vs => ∀ v ∈ vs, v ≠ .nil) (evalListInWith enter es ρ)
  | [], _, _, _ => by
    simp only [evalListInWith]
    exact ensures_pure (List.forall_mem_nil _)
  | e :: es, ρ, he, hρ => by
    obtain ⟨he, hes⟩ := List.forall_mem_cons.mp he
    simp only [evalListInWith]
    exact (evalInWith_ensures henter e ρ he hρ).bind fun v hv =>
      (evalListInWith_ensures henter es ρ hes hρ).bind fun vs hvs =>
        ensures_pure (List.forall_mem_cons.mpr ⟨hv, hvs⟩)

/-- The bindings of a `let` keep the environment free of nil. -/
theorem extendWith_ensures
    (henter : ∀ f ∈ F, ∀ ρ : Env, ρ.NilFree → Ensures F (· ≠ .nil) (enter f.body ρ)) :
    ∀ (bs : List (Binding Expr)) (ρ : Env), (∀ b ∈ bs, b.value.FunctionFree) → ρ.NilFree →
      Ensures F Env.NilFree (extendWith enter bs ρ)
  | [], _, _, hρ => by
    simp only [extendWith]
    exact ensures_pure hρ
  | ⟨name, value, _⟩ :: bs, ρ, hbs, hρ => by
    obtain ⟨hvalue, hbs⟩ := List.forall_mem_cons.mp hbs
    simp only [extendWith]
    exact (evalInWith_ensures henter value ρ hvalue hρ).bind fun v hv =>
      extendWith_ensures henter bs (ρ.bind name v) hbs (hρ.bind name hv)

end

end

theorem enterUpTo_refines (n : Nat) (e : Expr) : (enterUpTo n e).Refines (enterIn n e) := by
  cases n with
  | zero => exact .tooDeep
  | succ n => exact evalUpTo_refines_evalIn n e

/-- The bodies of functions do not evaluate to `nil`, however deep the calls are nested. -/
theorem enterIn_ensures {F : FunctionTable} (hF : F.AllBodies fun e => e.isFunction = false)
    (n : Nat) : ∀ f ∈ F, ∀ ρ : Env, ρ.NilFree → Ensures F (· ≠ .nil) (enterIn n f.body ρ) := by
  induction n with
  | zero => exact fun _ _ _ _ => ensures_tooDeep
  | succ n ih =>
    intro f hf ρ hρ
    rw [enterIn, evalIn_eq]
    exact evalInWith_ensures ih f.body ρ (hF f hf) hρ

end Expr

/-! ### Contexts without `nil` -/

namespace Context

/-- No variable of the context is `nil`, and the bodies of its functions declare nothing. -/
structure Clean (c : Context) : Prop where
  vars : ∀ d ∈ c.vars, d.2 ≠ .nil
  bodies : c.functions.AllBodies fun e => e.isFunction = false

variable {c c' : Context}

/-- No visible variable of a clean context is nil. -/
theorem Clean.nilFree_visible (h : c.Clean) : c.visible.NilFree := by
  intro x hx
  have hmem : .nil ∈ c.vars.stack x := List.mem_of_mem_head? hx
  obtain ⟨d, hd, hnil⟩ := List.mem_map.mp hmem
  exact h.vars d (List.mem_filter.mp hd).1 hnil

theorem Clean.define (h : c.Clean) (name : String) {v : Value} (hv : v ≠ .nil) :
    (c.define name v).Clean :=
  ⟨List.forall_mem_cons.mpr ⟨hv, h.vars⟩, h.bodies⟩

theorem Clean.defineAll {ds : List (String × Value)} (hds : ∀ d ∈ ds, d.2 ≠ .nil) {c : Context}
    (h : c.Clean) : (c.defineAll ds).Clean := by
  induction ds generalizing c with
  | nil => exact h
  | cons d ds ih =>
    obtain ⟨hd, hds⟩ := List.forall_mem_cons.mp hds
    exact ih hds (h.define d.1 hd)

/-- What an evaluation in an environment ensures, the evaluation in a context ensures. -/
theorem Clean.of_refines (h : c.Clean) {m : Eval α} {f : Env → PureEval α} {P : α → Prop}
    (hm : m.Refines f) (hf : ∀ ρ : Env, ρ.NilFree → (f ρ).Ensures c.functions P)
    {outcome : Outcome α} (hrun : m.run c = (outcome, c')) :
    c'.Clean ∧ ∀ a, outcome = .value a → P a := by
  have hresult := hf c.visible h.nilFree_visible c.random
  rw [hm c] at hrun
  obtain ⟨rfl, rfl⟩ := Prod.mk.inj hrun
  refine ⟨⟨h.vars, ?_⟩, hresult.value⟩
  show FunctionTable.AllBodies ((f c.visible).run c.world).world.functions _
  rw [show ((f c.visible).run c.world).world.functions = c.functions from hresult.functions]
  exact h.bodies

/-- A tree without declarations leaves no `nil` behind and does not evaluate to it. -/
theorem Clean.run_evalUpTo (h : c.Clean) {e : Expr} (he : e.FunctionFree) {depth : Nat}
    {outcome : Outcome Value} (hrun : (e.evalUpTo depth).run c = (outcome, c')) :
    c'.Clean ∧ ∀ v, outcome = .value v → v ≠ .nil := by
  refine h.of_refines (Expr.evalUpTo_refines_evalIn depth e) (fun ρ hρ => ?_) hrun
  rw [Expr.evalIn_eq]
  exact Expr.evalInWith_ensures (Expr.enterIn_ensures h.bodies depth) e ρ he hρ

/-- Evaluating a list of operands keeps a context clean and gives no nil. -/
theorem Clean.run_evalList (h : c.Clean) {es : List Expr}
    (hes : ∀ e ∈ es, e.FunctionFree) {depth : Nat}
    {outcome : Outcome (List Value)}
    (hrun : (Expr.evalList (Expr.enterUpTo depth) es).run c = (outcome, c')) :
    c'.Clean ∧ ∀ vs, outcome = .value vs → ∀ v ∈ vs, v ≠ .nil := by
  refine h.of_refines (Expr.evalList_refines (Expr.enterUpTo_refines depth) es) (fun ρ hρ => ?_)
    hrun
  exact Expr.evalListInWith_ensures (Expr.enterIn_ensures h.bodies depth) es ρ hes hρ

end Context

/-! ### Evaluations without `nil` -/

namespace Evaluation

/-- The tree and the functions declare nothing, and no variable is `nil`. -/
structure Clean (E : Evaluation) : Prop where
  tree : E.tree.FunctionFree
  context : E.context.Clean

variable {E E' : Evaluation}

theorem Defines.clean {depth : Nat} {bs : List (Binding Expr)} {c c' : Context}
    (h : Defines depth bs c c') (hbs : ∀ b ∈ bs, b.value.FunctionFree) (hc : c.Clean) :
    c'.Clean := by
  induction h with
  | nil c => exact hc
  | @cons name value line bs c c₁ c' v hvalue more ih =>
    obtain ⟨hfree, hbs⟩ := List.forall_mem_cons.mp hbs
    obtain ⟨hc₁, hv⟩ := hc.run_evalUpTo hfree hvalue
    exact ih hbs (hc₁.define name (hv v rfl))

/-- What an evaluation starts is as clean as the evaluation itself. -/
theorem Starts.clean (h : E.Starts E') (hE : E.Clean) : E'.Clean := by
  obtain ⟨htree, hc⟩ := hE
  cases h with
  | operand => exact ⟨Expr.functionFree_unary.mp htree, hc⟩
  | left => exact ⟨(Expr.functionFree_binary.mp htree).1, hc⟩
  | right hleft =>
    obtain ⟨hl, hr⟩ := Expr.functionFree_binary.mp htree
    exact ⟨hr, (hc.run_evalUpTo hl hleft).1⟩
  | condition => exact ⟨(Expr.functionFree_conditional.mp htree).1, hc⟩
  | @branch _ _ _ _ _ _ _ b hcondition =>
    obtain ⟨he, ht, hf⟩ := Expr.functionFree_conditional.mp htree
    refine ⟨?_, (hc.run_evalUpTo he hcondition).1⟩
    cases b with
    | true => exact ht
    | false => exact hf
  | binding hbefore =>
    have hbindings := (Expr.functionFree_letIn.mp htree).1
    obtain ⟨hfree, hb⟩ := List.forall_mem_append.mp hbindings
    exact ⟨hb _ List.mem_cons_self, hbefore.clean hfree hc⟩
  | body hbs =>
    obtain ⟨hbindings, hbody⟩ := Expr.functionFree_letIn.mp htree
    exact ⟨hbody, hbs.clean hbindings hc⟩
  | argument hname hbefore =>
    obtain ⟨hfree, he⟩ := List.forall_mem_append.mp (Expr.functionFree_call.mp htree)
    exact ⟨he _ List.mem_cons_self, (hc.run_evalList hfree hbefore).1⟩
  | enter hbuiltin hf hargs =>
    -- the body is that of a declared function, and its parameters are the values of arguments
    obtain ⟨hc', hvs⟩ := hc.run_evalList (Expr.functionFree_call.mp htree) hargs
    exact ⟨hc.bodies _ (List.mem_of_find?_eq_some hf),
      hc'.defineAll (snd_ne_nil_of_mem_zip (hvs _ rfl))⟩

/-- All that is evaluated inside a clean evaluation is clean. -/
theorem Includes.clean (h : E.Includes E') (hE : E.Clean) : E'.Clean := by
  induction h with
  | refl => exact hE
  | tail _ hstarts ih => exact hstarts.clean ih

/-- A clean evaluation does not give nil. -/
theorem Clean.ne_nil (h : E.Clean) {v : Value} {c : Context} (hrun : E.run = (.value v, c)) :
    v ≠ .nil :=
  (h.context.run_evalUpTo h.tree hrun).2 v rfl

/-- No argument of a call is `nil`. -/
theorem Clean.nil_not_mem (h : E.Clean) {name : String} {args : List Expr} {line : Nat}
    (htree : E.tree = .call name args line) {vs : List Value} {c : Context}
    (hrun : (Expr.evalList (Expr.enterUpTo E.depth) args).run E.context = (.value vs, c)) :
    .nil ∉ vs := by
  have hargs : ∀ e ∈ args, e.FunctionFree := Expr.functionFree_call.mp (htree ▸ h.tree)
  intro hnil
  exact (h.context.run_evalList hargs hrun).2 vs rfl .nil hnil rfl

end Evaluation

end LetLang
