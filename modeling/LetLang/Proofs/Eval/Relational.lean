import LetLang.Proofs.Eval.Environment
import LetLang.Proofs.Expr.Subtrees

/-!
# Two evaluations of one tree

A tree that is evaluated twice, in two environments and with two ways to enter the bodies of
functions, goes through the same steps both times for as long as the steps end alike. A relation
between evaluations that every step respects therefore holds of the two evaluations of the tree.
`PureEval.RelatedBySteps` names what each step has to respect, and `Expr.evalInWith_related` is the
induction over the tree.

The relation `R` comes with a relation between the values that the two evaluations may end with. For
trees the values are equal, and for the bindings of a `let` they are the two extended environments.

`PureEval.Matches` is such a relation: the two evaluations print the same and end alike. It says
under which condition on the declared functions that is so, which the evaluations keep, and how the
two sources of random numbers are related. `PureEval.Agreement` says what a tree needs for two
evaluations of it to match, and `Expr.evalIn_matches` is the induction over the open calls.
-/

namespace LetLang

/-- The relation `R` between evaluations is respected by all that an evaluation is made of. The
environments are related by `S`, the nodes of the tree are `allowed`, and the functions whose bodies
are entered are `known`. -/
structure PureEval.RelatedBySteps
    (R : ∀ {α : Type}, (α → α → Prop) → PureEval α → PureEval α → Prop) (S : Env → Env → Prop)
    (allowed : Expr → Prop) (known : Function → Prop) (enter enter' : Expr → Env → PureEval Value) :
    Prop where
  pure {α : Type} {P : α → α → Prop} {a a' : α} : P a a' → R P (Pure.pure a) (Pure.pure a')
  fail {α : Type} {P : α → α → Prop} (e : RuntimeError) : R P (PureEval.fail e) (PureEval.fail e)
  bind {α β : Type} {P : α → α → Prop} {Q : β → β → Prop} {m m' : PureEval α}
    {f f' : α → PureEval β} : R P m m' → (∀ a a', P a a' → R Q (f a) (f' a')) →
      R Q (m >>= f) (m' >>= f')
  /-- The environments agree on a variable that the tree uses. -/
  lookup {name : String} {line : Nat} {ρ ρ' : Env} : allowed (.var name line) → S ρ ρ' →
    ρ name = ρ' name
  extend {ρ ρ' : Env} (name : String) (v : Value) : S ρ ρ' → S (ρ.bind name v) (ρ'.bind name v)
  declare {name : String} {params : List String} {body : Expr} {line : Nat} :
    (∀ s ∈ (Expr.function name params body line).subtrees, allowed s) →
      R Eq (PureEval.declare ⟨name, params, body, line⟩)
        (PureEval.declare ⟨name, params, body, line⟩)
  builtin {name : String} {args : List Expr} {line : Nat} {b : Builtin} (vs : List Value) :
    allowed (.call name args line) → Builtin.find? name args.length = some b →
      R Eq (b.evalPure vs line) (b.evalPure vs line)
  findFunction {α : Type} {P : α → α → Prop} {name : String} {args : List Expr} {line : Nat}
    {f f' : Function → PureEval α} : allowed (.call name args line) →
      (∀ g, known g → R P (f g) (f' g)) →
      R P (PureEval.findFunction name args.length line >>= f)
        (PureEval.findFunction name args.length line >>= f')
  enter {f : Function} {ρ ρ' : Env} : known f → S ρ ρ' →
    R Eq (enter f.body ρ) (enter' f.body ρ')

namespace PureEval.RelatedBySteps

variable {R : ∀ {α : Type}, (α → α → Prop) → PureEval α → PureEval α → Prop}
  {S : Env → Env → Prop} {allowed : Expr → Prop} {known : Function → Prop}
  {enter enter' : Expr → Env → PureEval Value}

theorem ofExcept (h : RelatedBySteps R S allowed known enter enter') (x : Except RuntimeError α) :
    R Eq (PureEval.ofExcept x) (PureEval.ofExcept x) := by
  cases x with
  | ok a => exact h.pure rfl
  | error e => exact h.fail e

/-- Evaluations that follow equal values are to be related for every value. -/
theorem bindEq (h : RelatedBySteps R S allowed known enter enter') {Q : β → β → Prop}
    {m m' : PureEval α} {f f' : α → PureEval β} (hm : R Eq m m') (hf : ∀ a, R Q (f a) (f' a)) :
    R Q (m >>= f) (m' >>= f') := by
  refine h.bind hm fun a a' heq => ?_
  subst heq
  exact hf a

/-- A call in two related environments defines the same parameters in both. -/
theorem extendAll (h : RelatedBySteps R S allowed known enter enter')
    (ds : List (String × Value)) {ρ ρ' : Env} (hρ : S ρ ρ') :
    S (ρ.bindAll ds) (ρ'.bindAll ds) := by
  induction ds generalizing ρ ρ' with
  | nil => exact hρ
  | cons d ds ih => exact ih (h.extend d.1 d.2 hρ)

end PureEval.RelatedBySteps

namespace Expr

variable {R : ∀ {α : Type}, (α → α → Prop) → PureEval α → PureEval α → Prop}
  {S : Env → Env → Prop} {allowed : Expr → Prop} {known : Function → Prop}
  {enter enter' : Expr → Env → PureEval Value}

mutual

/-- The two evaluations of a tree are related by every relation that the steps respect. -/
theorem evalInWith_related (h : PureEval.RelatedBySteps R S allowed known enter enter') :
    ∀ (e : Expr) (ρ ρ' : Env), (∀ s ∈ e.subtrees, allowed s) → S ρ ρ' →
      R Eq (evalInWith enter e ρ) (evalInWith enter' e ρ')
  | literal v _, _, _, _, _ => by
    simp only [evalInWith]
    exact h.pure rfl
  | unary op operand line, ρ, ρ', he, hρ => by
    have hoperand := (forall_mem_subtrees_unary.mp he).2
    simp only [evalInWith]
    exact h.bindEq (evalInWith_related h operand ρ ρ' hoperand hρ) fun v =>
      h.ofExcept (v.applyUnary op line)
  | binary op left right line, ρ, ρ', he, hρ => by
    obtain ⟨-, hleft, hright⟩ := forall_mem_subtrees_binary.mp he
    simp only [evalInWith]
    exact h.bindEq (evalInWith_related h left ρ ρ' hleft hρ) fun l =>
      h.bindEq (evalInWith_related h right ρ ρ' hright hρ) fun r =>
        h.ofExcept (l.applyBinary op r line)
  | conditional condition onTrue onFalse _, ρ, ρ', he, hρ => by
    obtain ⟨-, hcondition, htrue, hfalse⟩ := forall_mem_subtrees_conditional.mp he
    simp only [evalInWith]
    refine h.bindEq (evalInWith_related h condition ρ ρ' hcondition hρ) fun v => ?_
    cases v with
    | bool b =>
      cases b with
      | true => exact evalInWith_related h onTrue ρ ρ' htrue hρ
      | false => exact evalInWith_related h onFalse ρ ρ' hfalse hρ
    | number _ => exact h.fail _
    | text _ => exact h.fail _
    | nil => exact h.fail _
  | var name line, ρ, ρ', he, hρ => by
    have hname := h.lookup (forall_mem_subtrees_var.mp he) hρ
    have hlookup : ρ.lookup name line = ρ'.lookup name line := by
      unfold Env.lookup
      rw [hname]
    simp only [evalInWith, hlookup]
    exact h.ofExcept (ρ'.lookup name line)
  | letIn bindings body _, ρ, ρ', he, hρ => by
    obtain ⟨-, hbindings, hbody⟩ := forall_mem_subtrees_letIn.mp he
    simp only [evalInWith]
    exact h.bind (extendWith_related h bindings ρ ρ' hbindings hρ) fun inner inner' hinner =>
      evalInWith_related h body inner inner' hbody hinner
  | function name params body line, _, _, he, _ => by
    simp only [evalInWith]
    exact h.bindEq (h.declare he) fun _ => h.pure rfl
  | call name args line, ρ, ρ', he, hρ => by
    obtain ⟨hcall, hargs⟩ := forall_mem_subtrees_call.mp he
    have hvalues := evalListInWith_related h args ρ ρ' hargs hρ
    simp only [evalInWith]
    cases hb : Builtin.find? name args.length with
    | some b => exact h.bindEq hvalues fun vs => h.builtin vs hcall hb
    | none =>
      -- the function is looked up before the arguments are evaluated
      refine h.findFunction hcall fun f hf => h.bindEq hvalues fun vs => ?_
      exact h.enter hf (h.extendAll (f.params.zip vs) hρ)

theorem evalListInWith_related (h : PureEval.RelatedBySteps R S allowed known enter enter') :
    ∀ (es : List Expr) (ρ ρ' : Env), (∀ s ∈ listSubtrees es, allowed s) → S ρ ρ' →
      R Eq (evalListInWith enter es ρ) (evalListInWith enter' es ρ')
  | [], _, _, _, _ => by
    simp only [evalListInWith]
    exact h.pure rfl
  | e :: es, ρ, ρ', he, hρ => by
    obtain ⟨hfirst, hmore⟩ := forall_mem_listSubtrees_cons.mp he
    simp only [evalListInWith]
    exact h.bindEq (evalInWith_related h e ρ ρ' hfirst hρ) fun v =>
      h.bindEq (evalListInWith_related h es ρ ρ' hmore hρ) fun vs => h.pure rfl

theorem extendWith_related (h : PureEval.RelatedBySteps R S allowed known enter enter') :
    ∀ (bs : List (Binding Expr)) (ρ ρ' : Env), (∀ s ∈ bindingSubtrees bs, allowed s) → S ρ ρ' →
      R S (extendWith enter bs ρ) (extendWith enter' bs ρ')
  | [], ρ, ρ', _, hρ => by
    simp only [extendWith]
    exact h.pure hρ
  | ⟨name, value, _⟩ :: bs, ρ, ρ', he, hρ => by
    obtain ⟨hvalue, hmore⟩ := forall_mem_bindingSubtrees_cons.mp he
    simp only [extendWith]
    exact h.bindEq (evalInWith_related h value ρ ρ' hvalue hρ) fun v =>
      extendWith_related h bs (ρ.bind name v) (ρ'.bind name v) hmore (h.extend name v hρ)

end

end Expr

/-! ### Functions with allowed bodies -/

namespace FunctionTable

/-- All the nodes in the bodies of the functions are `allowed`. -/
def AllBodies (F : FunctionTable) (allowed : Expr → Prop) : Prop :=
  ∀ f ∈ F, ∀ s ∈ f.body.subtrees, allowed s

theorem AllBodies.declare {F : FunctionTable} {allowed : Expr → Prop} (hF : F.AllBodies allowed)
    {f : Function} (hf : ∀ s ∈ f.body.subtrees, allowed s) : (F.declare f).AllBodies allowed := by
  unfold FunctionTable.declare
  split_ifs
  · exact hF
  · intro g hg
    obtain rfl | hg := List.mem_cons.mp hg
    · exact hf
    · exact hF g hg

theorem AllBodies.of_find? {F : FunctionTable} {allowed : Expr → Prop} (hF : F.AllBodies allowed)
    {name : String} {arity : Nat} {f : Function} (hf : F.find? name arity = some f) :
    ∀ s ∈ f.body.subtrees, allowed s :=
  hF f (List.mem_of_find?_eq_some hf)

end FunctionTable

/-! ### Evaluations that match -/

/-- The evaluations end alike: with values related by `P`, with the same error, or, if that may be,
both without either. -/
inductive Outcome.Alike (deep : Prop) (P : α → α → Prop) : Outcome α → Outcome α → Prop
  | value {a a' : α} (h : P a a') : Alike deep P (.value a) (.value a')
  | error (e : RuntimeError) : Alike deep P (.error e) (.error e)
  | tooDeep (h : deep) : Alike deep P .tooDeep .tooDeep

theorem Outcome.Alike.eq {deep : Prop} {o o' : Outcome α} (h : o.Alike deep Eq o') : o = o' := by
  cases h with
  | value h => rw [h]
  | error e => rfl
  | tooDeep h => rfl

/-- Sources related by `T` give the same number, and they are related after it is drawn. -/
def RandomSource.DrawAlike (T : RandomSource → RandomSource → Prop) : Prop :=
  ∀ {r r' : RandomSource}, T r r' → r.current = r'.current ∧ T r.advance r'.advance

/-- A call that runs the built-in source of random numbers is a call of it. -/
theorem Expr.isRand_of_find? {name : String} {args : List Expr} (line : Nat)
    (h : Builtin.find? name args.length = some .rand) : (call name args line).isRand = true := by
  have hfound := List.find?_some h
  obtain ⟨hname, hcount⟩ : "rand" = name ∧ 0 = args.length := of_decide_eq_true hfound
  have hargs : args = [] := List.length_eq_zero_iff.mp hcount.symm
  simp [isRand, ← hname, hargs]

namespace PureEval

/-- Among functions that satisfy `I`, and with sources of random numbers related by `T`, the two
evaluations print the same and end alike, with values related by `P`. They leave the same functions,
which satisfy `I`, and sources related by `T`. -/
def Matches (deep : Prop) (I : FunctionTable → Prop) (T : RandomSource → RandomSource → Prop)
    (P : α → α → Prop) (m m' : PureEval α) : Prop :=
  ∀ F r r', I F → T r r' → ∃ outcome outcome' printed F' q q',
    outcome.Alike deep P outcome' ∧ I F' ∧ T q q' ∧
    m.run ⟨F, r⟩ = ⟨outcome, printed, ⟨F', q⟩⟩ ∧ m'.run ⟨F, r'⟩ = ⟨outcome', printed, ⟨F', q'⟩⟩

namespace Matches

variable {deep : Prop} {I : FunctionTable → Prop} {T : RandomSource → RandomSource → Prop}

theorem pure {P : α → α → Prop} {a a' : α} (h : P a a') :
    Matches deep I T P (Pure.pure a) (Pure.pure a') :=
  fun F r r' hF hr => ⟨_, _, _, F, r, r', .value h, hF, hr, rfl, rfl⟩

theorem fail {P : α → α → Prop} (e : RuntimeError) :
    Matches deep I T P (PureEval.fail e) (PureEval.fail e) :=
  fun F r r' hF hr => ⟨_, _, _, F, r, r', .error e, hF, hr, rfl, rfl⟩

theorem tooDeep {P : α → α → Prop} (h : deep) :
    Matches deep I T P PureEval.tooDeep PureEval.tooDeep :=
  fun F r r' hF hr => ⟨_, _, _, F, r, r', .tooDeep h, hF, hr, rfl, rfl⟩

theorem ofExcept (x : Except RuntimeError α) :
    Matches deep I T Eq (PureEval.ofExcept x) (PureEval.ofExcept x) := by
  cases x with
  | ok a => exact pure rfl
  | error e => exact fail e

/-- The second evaluations start from functions and sources that are again as required. -/
theorem bind {P : α → α → Prop} {Q : β → β → Prop} {m m' : PureEval α} {f f' : α → PureEval β}
    (hm : Matches deep I T P m m') (hf : ∀ a a', P a a' → Matches deep I T Q (f a) (f' a')) :
    Matches deep I T Q (m >>= f) (m' >>= f') := by
  intro F r r' hF hr
  obtain ⟨outcome, outcome', printed, F', q, q', houtcome, hF', hq, hrun, hrun'⟩ := hm F r r' hF hr
  rw [run_bind, run_bind, hrun, hrun']
  cases houtcome with
  | value h =>
    obtain ⟨o, o', printed', F'', p, p', ho, hF'', hp, hnext, hnext'⟩ := hf _ _ h F' q q' hF' hq
    refine ⟨o, o', printed ++ printed', F'', p, p', ho, hF'', hp, ?_, ?_⟩
    · simp only [hnext]
    · simp only [hnext']
  | error e => exact ⟨_, _, printed, F', q, q', .error e, hF', hq, rfl, rfl⟩
  | tooDeep h => exact ⟨_, _, printed, F', q, q', .tooDeep h, hF', hq, rfl, rfl⟩

theorem declare {f : Function} (h : ∀ F, I F → I (F.declare f)) :
    Matches deep I T Eq (PureEval.declare f) (PureEval.declare f) := by
  intro F r r' hF hr
  have hdeclared := h F hF
  obtain ⟨e, htable, hrun⟩ | ⟨-, -, htable, hrun⟩ := run_declare_cases f F
  · exact ⟨_, _, [], F, r, r', .error e, hF, hr, hrun r, hrun r'⟩
  · rw [htable] at hdeclared
    exact ⟨_, _, [], f :: F, r, r', .value rfl, hdeclared, hr, hrun r, hrun r'⟩

theorem builtin {b : Builtin} (h : b = .rand → RandomSource.DrawAlike T) (args : List Value)
    (line : Nat) : Matches deep I T Eq (b.evalPure args line) (b.evalPure args line) := by
  obtain ⟨x, hx⟩ | ⟨hb, hrun⟩ | ⟨v, hrun⟩ := b.evalPure_cases args line
  · rw [hx]
    exact ofExcept x
  · intro F r r' hF hr
    obtain ⟨hcurrent, hadvance⟩ := h hb hr
    refine ⟨_, _, [], F, r.advance, r'.advance, .value rfl, hF, hadvance, hrun _, ?_⟩
    rw [hrun, hcurrent]
  · exact fun F r r' hF hr => ⟨_, _, [v], F, r, r', .value rfl, hF, hr, hrun _, hrun _⟩

theorem findFunction {P : α → α → Prop} {name : String} {count line : Nat}
    {f f' : Function → PureEval α}
    (h : ∀ F g, I F → F.find? name count = some g → Matches deep I T P (f g) (f' g)) :
    Matches deep I T P (PureEval.findFunction name count line >>= f)
      (PureEval.findFunction name count line >>= f') := by
  intro F r r' hF hr
  obtain ⟨e, hrun⟩ | ⟨g, hg, hrun⟩ := run_findFunction_cases name count line F
  · rw [run_bind, run_bind, hrun, hrun]
    exact ⟨_, _, [], F, r, r', .error e, hF, hr, rfl, rfl⟩
  · rw [run_bind, run_bind, hrun, hrun]
    exact h F g hF hg F r r' hF hr

/-- The steps of an evaluation match, if declarations keep the condition on the functions, and the
functions that calls find are known ones, whose bodies match. -/
theorem relatedBySteps {S : Env → Env → Prop} {allowed : Expr → Prop} {known : Function → Prop}
    {enter enter' : Expr → Env → PureEval Value}
    (lookup : ∀ {name line} {ρ ρ' : Env}, allowed (.var name line) → S ρ ρ' → ρ name = ρ' name)
    (extend : ∀ {ρ ρ' : Env} (name : String) (v : Value), S ρ ρ' →
      S (ρ.bind name v) (ρ'.bind name v))
    (declare : ∀ {name params body line F},
      (∀ s ∈ (Expr.function name params body line).subtrees, allowed s) → I F →
        I (F.declare ⟨name, params, body, line⟩))
    (draw : ∀ {e}, allowed e → e.isRand = true → RandomSource.DrawAlike T)
    (find : ∀ {name args line F g}, allowed (.call name args line) → I F →
      F.find? name args.length = some g → known g)
    (enters : ∀ {g} {ρ ρ' : Env}, known g → S ρ ρ' →
      Matches deep I T Eq (enter g.body ρ) (enter' g.body ρ')) :
    RelatedBySteps (Matches deep I T) S allowed known enter enter' where
  pure := Matches.pure
  fail := Matches.fail
  bind := Matches.bind
  lookup := lookup
  extend := extend
  declare h := Matches.declare fun F hF => declare h hF
  builtin vs hcall hb := by
    refine Matches.builtin (fun hrand => ?_) vs _
    subst hrand
    exact draw hcall (Expr.isRand_of_find? _ hb)
  findFunction hcall hf := Matches.findFunction fun F g hF hg => hf g (find hcall hF hg)
  enter := enters

end Matches

/-- What evaluations of trees with `allowed` nodes have in common if they match: environments
related by `S` agree on the variables, sources related by `T` on the random numbers, and functions
that are found where `I` holds have allowed bodies, which allowed declarations do not change. -/
structure Agreement (I : FunctionTable → Prop) (T : RandomSource → RandomSource → Prop)
    (S : Env → Env → Prop) (allowed : Expr → Prop) : Prop where
  lookup {name : String} {line : Nat} {ρ ρ' : Env} : allowed (.var name line) → S ρ ρ' →
    ρ name = ρ' name
  extend {ρ ρ' : Env} (name : String) (v : Value) : S ρ ρ' → S (ρ.bind name v) (ρ'.bind name v)
  declare {name : String} {params : List String} {body : Expr} {line : Nat} {F : FunctionTable} :
    (∀ s ∈ (Expr.function name params body line).subtrees, allowed s) → I F →
      I (F.declare ⟨name, params, body, line⟩)
  draw {e : Expr} : allowed e → e.isRand = true → RandomSource.DrawAlike T
  bodies {F : FunctionTable} {name : String} {arity : Nat} {g : Function} : I F →
    F.find? name arity = some g → ∀ s ∈ g.body.subtrees, allowed s

end PureEval

/-- Evaluations of one tree that have enough in common match. -/
theorem Expr.evalIn_matches {I : FunctionTable → Prop} {T : RandomSource → RandomSource → Prop}
    {S : Env → Env → Prop} {allowed : Expr → Prop} (h : PureEval.Agreement I T S allowed)
    (depth : Nat) {e : Expr} (he : ∀ s ∈ e.subtrees, allowed s) {ρ ρ' : Env} (hρ : S ρ ρ') :
    PureEval.Matches True I T Eq (evalIn depth e ρ) (evalIn depth e ρ') := by
  have hsteps {enter : Expr → Env → PureEval Value}
      (henter : ∀ {body : Expr} {ρ ρ' : Env}, (∀ s ∈ body.subtrees, allowed s) → S ρ ρ' →
        PureEval.Matches True I T Eq (enter body ρ) (enter body ρ')) :
      PureEval.RelatedBySteps (PureEval.Matches True I T) S allowed
        (fun f => ∀ s ∈ f.body.subtrees, allowed s) enter enter := by
    refine PureEval.Matches.relatedBySteps h.lookup h.extend h.declare h.draw ?_ henter
    intro name args line F g _ hF hg
    exact h.bodies hF hg
  -- the bodies that are entered have allowed nodes again, and are evaluated with one call less
  induction depth generalizing e ρ ρ' with
  | zero => exact evalInWith_related (hsteps fun _ _ => .tooDeep trivial) e ρ ρ' he hρ
  | succ n ih => exact evalInWith_related (hsteps fun hbody hρ => ih hbody hρ) e ρ ρ' he hρ

end LetLang
