import LetLang.Proofs.Context.Runs
import LetLang.Proofs.Eval.Nested

/-!
# Scopes under interference

At the end of a scope each name that it has bound is removed as often as it was bound, whatever
happened inside. The definitions that are removed need not be those that were bound: a variable may
also be defined and removed directly, so that a removal inside takes away a bound definition and the
end of the scope takes away another one. What counts is how many there are. As long as no name is
removed more often than it has been added, only definitions from inside the scope are removed
(`above_runSteps`), and if in the end each name has been removed as often as it was defined,
the definitions that are left are as many as the bound ones; removing these leaves what there was
before.

Evaluation has such scopes of its own. A `let` evaluates and binds one variable after the other in a
scope, in which its body is evaluated last (`runsAsScope_letIn`), and a call binds its parameters in
a scope in which the body of the function is evaluated (`runsAsScope_call`).
-/

namespace LetLang

namespace Variables

/-- How many definitions a name has. -/
def height (vs : Variables) (name : String) : Nat := (vs.stack name).length

theorem height_define (vs : Variables) (name : String) (v : Value) (x : String) :
    (vs.define name v).height x = vs.height x + [name].count x := by
  unfold height
  rw [stack_define, List.count_singleton]
  by_cases hx : x = name
  · rw [if_pos hx, if_pos (beq_iff_eq.mpr hx.symm), List.length_cons]
  · rw [if_neg hx, if_neg (fun h => hx (beq_iff_eq.mp h).symm), Nat.add_zero]

/-- A name that has a definition has one less after it was removed. -/
theorem height_remove {vs : Variables} {name : String} (h : 0 < vs.height name) (x : String) :
    (vs.remove name).height x + [name].count x = vs.height x := by
  unfold height at *
  rw [stack_remove, List.count_singleton]
  by_cases hx : x = name
  · rw [if_pos hx, if_pos (beq_iff_eq.mpr hx.symm), List.length_tail, hx]
    omega
  · rw [if_neg hx, if_neg (fun h => hx (beq_iff_eq.mp h).symm), Nat.add_zero]

theorem exists_mem_of_height {vs : Variables} {name : String} (h : 0 < vs.height name) :
    ∃ d ∈ vs, d.1 = name := by
  unfold height stack at h
  obtain ⟨v, hv⟩ := List.exists_mem_of_length_pos h
  obtain ⟨d, hd, -⟩ := List.mem_map.mp hv
  obtain ⟨hmem, hname⟩ := List.mem_filter.mp hd
  exact ⟨d, hmem, of_decide_eq_true hname⟩

/-- A definition on top is removed before those below. -/
theorem remove_append {above : Variables} {name : String} (h : 0 < above.height name)
    (base : Variables) : remove (above ++ base) name = above.remove name ++ base := by
  obtain ⟨d, hmem, hname⟩ := exists_mem_of_height h
  exact List.eraseP_append_left (p := fun d : String × Value => d.1 = name)
    (decide_eq_true hname) base hmem

theorem eq_nil_of_height {vs : Variables} (h : ∀ name, vs.height name = 0) : vs = [] := by
  cases vs with
  | nil => rfl
  | cons d vs =>
    have hd : height (define vs d.1 d.2) d.1 = 0 := h d.1
    rw [height_define, List.count_singleton_self] at hd
    omega

/-- Removing each name as often as it is defined on top leaves what is below. -/
theorem removeAll_append {names : List String} {above : Variables}
    (h : ∀ name, above.height name = names.count name) (base : Variables) :
    removeAll (above ++ base) names = base := by
  induction names generalizing above with
  | nil =>
    rw [eq_nil_of_height h]
    rfl
  | cons name names ih =>
    have hpos : 0 < above.height name := by
      rw [h, List.count_cons_self]
      omega
    have hstep : removeAll (above ++ base) (name :: names) =
        removeAll (remove (above ++ base) name) names := rfl
    rw [hstep, remove_append hpos]
    refine ih fun x => ?_
    have hremove := height_remove hpos x
    have hcount : (name :: names).count x = names.count x + [name].count x := by
      rw [← List.singleton_append, List.count_append, Nat.add_comm]
    rw [h x, hcount] at hremove
    omega

theorem remove_comm (vs : Variables) (x y : String) :
    (vs.remove x).remove y = (vs.remove y).remove x := by
  by_cases hxy : x = y
  · rw [hxy]
  · refine List.eraseP_comm fun d _ => ?_
    by_cases hd : d.1 = x
    · exact .inr (by simpa [hd] using hxy)
    · exact .inl (by simpa using hd)

/-- The order in which names are removed does not matter. -/
theorem removeAll_perm {names names' : List String} (h : names.Perm names') (vs : Variables) :
    vs.removeAll names = vs.removeAll names' :=
  h.foldl_eq' (fun x _ y _ vs => remove_comm vs x y) vs

/-- Each name loses as many of its latest definitions as it is named. -/
theorem stack_removeAll (names : List String) (vs : Variables) (x : String) :
    (vs.removeAll names).stack x = (vs.stack x).drop (names.count x) := by
  induction names generalizing vs with
  | nil => rfl
  | cons name names ih =>
    have hstep : vs.removeAll (name :: names) = (vs.remove name).removeAll names := rfl
    rw [hstep, ih, stack_remove]
    by_cases hx : x = name
    · rw [if_pos hx, hx, List.count_cons_self, List.drop_tail]
    · rw [if_neg hx, List.count_cons_of_ne (Ne.symm hx)]

end Variables

namespace Context

/-! ### Counting steps -/

namespace Step

/-- The name that the step defines, without a scope that would remove it. -/
def defined? : Step → Option String
  | define name _ => some name
  | _ => none

/-- The name that the step binds in the scope around it. -/
def bound? : Step → Option String
  | bind name _ => some name
  | _ => none

/-- The name that the step removes. -/
def removed? : Step → Option String
  | remove name => some name
  | _ => none

end Step

/-- How often the steps of a list name a variable by `names?`. Steps inside a scope do not count. -/
def occurrences (names? : Step → Option String) (steps : List Step) (name : String) : Nat :=
  (steps.filterMap names?).count name

theorem occurrences_cons (names? : Step → Option String) (step : Step) (steps : List Step)
    (name : String) :
    occurrences names? (step :: steps) name =
      occurrences names? [step] name + occurrences names? steps name := by
  rw [occurrences, ← List.singleton_append, List.filterMap_append, List.count_append]
  rfl

/-- How often a name has been defined or bound by the steps of a scope. -/
def additions (steps : List Step) (name : String) : Nat :=
  occurrences Step.defined? steps name + occurrences Step.bound? steps name

/-- How often a name has been removed by the steps of a scope. -/
def removals (steps : List Step) (name : String) : Nat := occurrences Step.removed? steps name

/-- In the steps of a scope, no name has ever been removed more often than it has been defined or
bound, and in the end it has been removed as often as it was defined. The scopes inside are of the
same kind. -/
inductive Balanced : List Step → Prop
  | intro {steps : List Step}
    (ahead : ∀ before, before <+: steps → ∀ name, removals before name ≤ additions before name)
    (settled : ∀ name, removals steps name = occurrences Step.defined? steps name)
    (inside : ∀ inner, .scope inner ∈ steps → Balanced inner) : Balanced steps

/-! ### What the steps of a scope leave below -/

/-- The variables are those of `base`, with `heights name` definitions of each name on top. -/
def Above (base : Variables) (heights : String → Nat) (vs : Variables) : Prop :=
  ∃ above : Variables, vs = above ++ base ∧ ∀ name, above.height name = heights name

/-- A step adds and removes definitions on top, if the scope that it may be restores the variables.
-/
theorem above_runStep {depth : Nat} {base : Variables} {heights heights' : String → Nat}
    {step : Step} {f : Frame} (h : Above base heights f.context.vars)
    (hscope : ∀ inner, step = .scope inner →
      (runStep depth step f).2.context.vars = f.context.vars)
    (hheights : ∀ name,
      heights' name + removals [step] name = heights name + additions [step] name) :
    Above base heights' (runStep depth step f).2.context.vars := by
  obtain ⟨above, hvars, habove⟩ := h
  have hdefine (name : String) (v : Value)
      (hnames : ∀ x, heights' x = heights x + [name].count x) :
      Above base heights' (f.context.vars.define name v) := by
    refine ⟨above.define name v, by rw [hvars]; rfl, fun x => ?_⟩
    rw [Variables.height_define, habove, hnames]
  have hkeep {c : Context} (hc : c.vars = f.context.vars) (hnames : ∀ x, heights' x = heights x) :
      Above base heights' c.vars :=
    ⟨above, hc.trans hvars, fun x => (habove x).trans (hnames x).symm⟩
  cases step with
  | define name v => exact hdefine name v hheights
  | bind name v =>
    refine hdefine name v fun x => ?_
    have hname : additions [.bind name v] x = [name].count x := Nat.zero_add _
    rw [← hname]
    exact hheights x
  | remove name =>
    have hnames (x : String) : heights' x + [name].count x = heights x := hheights x
    have hpos : 0 < above.height name := by
      have hname := hnames name
      rw [List.count_singleton_self] at hname
      rw [habove]
      omega
    refine ⟨above.remove name, ?_, fun x => ?_⟩
    · show f.context.vars.remove name = _
      rw [hvars, Variables.remove_append hpos]
    · have hremove := Variables.height_remove hpos x
      rw [habove, ← hnames] at hremove
      exact Nat.add_right_cancel hremove
  | scope inner => exact hkeep (hscope inner rfl) hheights
  | evaluate source => exact hkeep (vars_evaluate depth source f.context) hheights
  | eval tree =>
    exact hkeep ((Expr.evalUpTo_refines_evalIn depth tree).vars_eq f.context) hheights
  | lookup name line => exact hkeep rfl hheights
  | declare function => exact hkeep (vars_declareStep f.context function) hheights
  | query name arity => exact hkeep rfl hheights
  | builtin name arity args line =>
    exact hkeep (vars_builtinStep f.context name arity args line) hheights

/-- Steps that never remove more than was added leave the variables that were there below. -/
theorem above_runSteps {depth : Nat} {base : Variables} {heights heights' : String → Nat}
    {steps : List Step} {f : Frame} (h : Above base heights f.context.vars)
    (hscope : ∀ inner, .scope inner ∈ steps → ∀ g : Frame,
      (runStep depth (.scope inner) g).2.context.vars = g.context.vars)
    (ahead : ∀ before, before <+: steps → ∀ name,
      removals before name ≤ heights name + additions before name)
    (hheights : ∀ name, heights' name + removals steps name = heights name + additions steps name) :
    Above base heights' (runSteps depth steps f).2.context.vars := by
  induction steps generalizing heights f with
  | nil =>
    obtain ⟨above, hvars, habove⟩ := h
    exact ⟨above, hvars, fun name => (habove name).trans (hheights name).symm⟩
  | cons step steps ih =>
    have hremovals (steps : List Step) (name : String) :
        removals (step :: steps) name = removals [step] name + removals steps name :=
      occurrences_cons _ step steps name
    have hadditions (steps : List Step) (name : String) :
        additions (step :: steps) name = additions [step] name + additions steps name := by
      unfold additions
      rw [occurrences_cons, occurrences_cons Step.bound?]
      omega
    have hfirst (name : String) : removals [step] name ≤ heights name + additions [step] name :=
      ahead [step] (List.prefix_append [step] steps) name
    -- the heights after the first step
    let next (name : String) : Nat := heights name + additions [step] name - removals [step] name
    have hnext (name : String) :
        next name + removals [step] name = heights name + additions [step] name :=
      Nat.sub_add_cancel (hfirst name)
    have hstep : Above base next (runStep depth step f).2.context.vars := by
      refine above_runStep h (fun inner hinner => ?_) hnext
      subst hinner
      exact hscope inner List.mem_cons_self f
    refine ih hstep (fun inner hinner => hscope inner (List.mem_cons_of_mem _ hinner))
      (fun before hbefore name => ?_) fun name => ?_
    · have hlater := ahead (step :: before) ((List.prefix_cons_inj step).mpr hbefore) name
      rw [hremovals, hadditions] at hlater
      have hname := hnext name
      omega
    · have hname := hnext name
      have hall := hheights name
      rw [hremovals, hadditions] at hall
      omega

/-- A scope remembers the names that its steps bind, the last one first. -/
theorem bound_runSteps (depth : Nat) (steps : List Step) (f : Frame) :
    (runSteps depth steps f).2.bound = (steps.filterMap Step.bound?).reverse ++ f.bound := by
  induction steps generalizing f with
  | nil => rfl
  | cons step steps ih =>
    have hmore := ih (runStep depth step f).2
    cases step with
    | bind name v =>
      have hbound : (Step.bind name v :: steps).filterMap Step.bound? =
          name :: steps.filterMap Step.bound? := rfl
      rw [hbound, List.reverse_cons, List.append_assoc]
      exact hmore
    | _ => exact hmore

/-- A balanced scope leaves the variables as they were. -/
theorem Balanced.vars_runStep {steps : List Step} (h : Balanced steps) (depth : Nat) (f : Frame) :
    (runStep depth (.scope steps) f).2.context.vars = f.context.vars := by
  induction h generalizing f with
  | @intro steps ahead settled inside ih =>
    -- what is left on top at the end are as many definitions of each name as the scope has bound
    have hstart : Above f.context.vars (fun _ => 0) f.context.vars := ⟨[], rfl, fun _ => rfl⟩
    obtain ⟨above, hvars, habove⟩ :
        Above f.context.vars (occurrences Step.bound? steps)
          (runSteps depth steps { context := f.context }).2.context.vars := by
      refine above_runSteps hstart ih (fun before hbefore name => ?_) fun name => ?_
      · rw [Nat.zero_add]
        exact ahead before hbefore name
      · rw [settled, Nat.zero_add, additions, Nat.add_comm]
    have hend : (runStep depth (.scope steps) f).2.context.vars =
        (runSteps depth steps { context := f.context }).2.context.vars.removeAll
          (runSteps depth steps { context := f.context }).2.bound := rfl
    rw [hend, hvars, bound_runSteps, List.append_nil]
    refine Variables.removeAll_append (fun name => ?_) _
    rw [habove, List.count_reverse]
    rfl

/-- **Scopes under interference**: if the steps of a scope are balanced, the variables after the
scope are exactly those before it. Whatever the steps are, the end of the scope removes each name as
often as it was bound in the scope: each name loses that many of its latest values, or all if there
are not as many, and the others lose none; and the names may be removed in any order. -/
theorem runStep_scope_restores (depth : Nat) (steps : List Step) (f : Frame) :
    let inner := (runSteps depth steps { context := f.context }).2
    let final := (runStep depth (.scope steps) f).2
    (Balanced steps → final.context.vars = f.context.vars) ∧
    (∀ name, inner.bound.count name = occurrences Step.bound? steps name) ∧
    (∀ name, final.context.vars.stack name =
      (inner.context.vars.stack name).drop (occurrences Step.bound? steps name)) ∧
    ∀ names, names.Perm inner.bound → final.context = inner.context.removeAll names := by
  intro inner final
  have hbound : inner.bound = (steps.filterMap Step.bound?).reverse := by
    rw [← List.append_nil (List.reverse _)]
    exact bound_runSteps depth steps { context := f.context }
  have hcount (name : String) : inner.bound.count name = occurrences Step.bound? steps name := by
    rw [hbound, List.count_reverse]
    rfl
  have hfinal : final.context = inner.context.removeAll inner.bound := rfl
  refine ⟨fun h => h.vars_runStep depth f, hcount, fun name => ?_, fun names hnames => ?_⟩
  · have hstack := Variables.stack_removeAll inner.bound inner.context.vars name
    rw [hcount] at hstack
    exact hstack
  · rw [hfinal]
    unfold removeAll
    rw [Variables.removeAll_perm hnames]

theorem runStep_scope_restores_shadowed :
    let inner : List Step := [.define "y" .nil, .remove "y"]
    let steps : List Step := [.bind "x" (.bool true), .remove "x", .scope inner, .define "x" .nil]
    let f : Frame := { context := { vars := [("x", .bool false)] } }
    Balanced steps ∧ (runStep 0 (.scope steps) f).2.context.vars = [("x", .bool false)] := by
  intro inner steps f
  have hinner : Balanced inner := by
    refine .intro (fun before hbefore name => ?_) (fun name => rfl) fun _ h => ?_
    · rw [List.prefix_iff_eq_take.mp hbefore]
      rcases before.length with _ | _ | n
      · exact Nat.zero_le _
      · exact Nat.zero_le _
      · rw [List.take_of_length_le (Nat.le_add_left 2 n)]
        exact Nat.le_add_right _ _
    · simp [inner] at h
  have hsteps : Balanced steps := by
    refine .intro (fun before hbefore name => ?_) (fun name => rfl) fun _ h => ?_
    · rw [List.prefix_iff_eq_take.mp hbefore]
      rcases before.length with _ | _ | _ | _ | n
      · exact Nat.zero_le _
      · exact Nat.zero_le _
      · exact Nat.le_add_left _ _
      · exact Nat.le_add_left _ _
      · rw [List.take_of_length_le (Nat.le_add_left 4 n)]
        exact Nat.le_add_left _ _
    · simp [steps] at h
      subst h
      exact hinner
  exact ⟨hsteps, (runStep_scope_restores 0 steps f).1 hsteps⟩

/-! ### The scopes of an evaluation -/

/-- In the context `c` the evaluation does what a scope with the given steps does: the last step
gives its outcome, and it leaves the context in which the steps end, without the names that they
have bound. -/
def RunsAsScope (depth : Nat) (steps : List Step) (m : Eval Value) (c : Context) : Prop :=
  ∀ bound, ∃ names records printed,
    (runSteps depth steps ⟨c, bound⟩).1 = records ++ [⟨.ofOutcome (m.run c).1, printed⟩] ∧
    (runSteps depth steps ⟨c, bound⟩).2.bound = names ++ bound ∧
    (m.run c).2 = (runSteps depth steps ⟨c, bound⟩).2.context.removeAll names

namespace RunsAsScope

variable {depth : Nat} {steps : List Step} {m : Eval Value} {c : Context}

/-- The step that has the scope gives the outcome before its own answer, and leaves the context of
the evaluation. -/
theorem runStep_scope (h : RunsAsScope depth steps m c) (bound : List String) :
    ∃ records printed, runStep depth (.scope steps) ⟨c, bound⟩ =
      (records ++ [⟨.ofOutcome (m.run c).1, printed⟩, ⟨.done, []⟩], ⟨(m.run c).2, bound⟩) := by
  obtain ⟨names, records, printed, hrecords, hbound, hcontext⟩ := h []
  rw [List.append_nil] at hbound
  refine ⟨records, printed, Prod.ext ?_ ?_⟩
  · show (runSteps depth steps { context := c }).1 ++ [⟨.done, []⟩] = _
    rw [hrecords, List.append_assoc]
    rfl
  · show Frame.mk ((runSteps depth steps { context := c }).2.context.removeAll
      (runSteps depth steps { context := c }).2.bound) bound = _
    rw [hbound, hcontext]

/-- The evaluation of a tree is a scope that binds nothing. -/
theorem eval (depth : Nat) (tree : Expr) (c : Context) :
    RunsAsScope depth [.eval tree] (tree.evalUpTo depth) c :=
  fun _ => ⟨[], [], _, rfl, rfl, rfl⟩

/-- A variable that is defined around the evaluation is one that the scope binds first, and so
removes last. -/
theorem bind {name : String} {v : Value} (h : RunsAsScope depth steps m (c.define name v)) :
    RunsAsScope depth (.bind name v :: steps) (Eval.withVariable name v m) c := by
  intro bound
  obtain ⟨names, records, printed, hrecords, hbound, hcontext⟩ := h (name :: bound)
  refine ⟨names ++ [name], ⟨.done, []⟩ :: records, printed, ?_, ?_, ?_⟩
  · exact congrArg (_ :: ·) hrecords
  · rw [List.append_assoc]
    exact hbound
  · have hfinal : ((Eval.withVariable name v m).run c).2 =
        ((m.run (c.define name v)).2).remove name := rfl
    rw [hfinal, hcontext]
    unfold removeAll remove Variables.removeAll
    rw [List.foldl_append]
    rfl

/-- What comes after the value of a tree comes after a step that evaluates it. -/
theorem after_eval {tree : Expr} {v : Value} {c' : Context} {k : Value → Eval Value}
    (hvalue : (tree.evalUpTo depth).run c = (.value v, c'))
    (h : RunsAsScope depth steps (k v) c') :
    RunsAsScope depth (.eval tree :: steps) (tree.evalUpTo depth >>= k) c := by
  intro bound
  obtain ⟨names, records, printed, hrecords, hbound, hcontext⟩ := h bound
  have hstep : runStep depth (.eval tree) ⟨c, bound⟩ =
      ([record (.value v) c c'], ⟨c', bound⟩) := by
    rw [runStep, hvalue]
    rfl
  have hrun : (tree.evalUpTo depth >>= k).run c = (k v).run c' := by rw [Eval.run_bind, hvalue]
  have hsteps : runSteps depth (.eval tree :: steps) ⟨c, bound⟩ =
      (record (.value v) c c' :: (runSteps depth steps ⟨c', bound⟩).1,
        (runSteps depth steps ⟨c', bound⟩).2) := by
    rw [runSteps, hstep]
    rfl
  rw [hrun, hsteps]
  exact ⟨names, _ :: records, printed, congrArg (_ :: ·) hrecords, hbound, hcontext⟩

/-- Without a value nothing comes after the tree. -/
theorem of_no_value {tree : Expr} {k : Value → Eval Value}
    (hvalue : ∀ v c', (tree.evalUpTo depth).run c ≠ (.value v, c')) :
    RunsAsScope depth [.eval tree] (tree.evalUpTo depth >>= k) c := by
  have hrun : (tree.evalUpTo depth >>= k).run c = (tree.evalUpTo depth).run c := by
    rw [Eval.run_bind]
    rcases htree : (tree.evalUpTo depth).run c with ⟨v | e | _, c'⟩
    · exact absurd htree (hvalue v c')
    · rfl
    · rfl
  intro bound
  rw [hrun]
  exact eval depth tree c bound

end RunsAsScope

/-- The steps of a `let` in its scope: each binding evaluates its value and binds it, up to one
without a value, and after all of them the body is evaluated. -/
def letSteps (depth : Nat) (body : Expr) : List (Binding Expr) → Context → List Step
  | [], _ => [.eval body]
  | ⟨name, value, _⟩ :: bs, c =>
    match (value.evalUpTo depth).run c with
    | (.value v, c') => .eval value :: .bind name v :: letSteps depth body bs (c'.define name v)
    | _ => [.eval value]

/-- **A `let` is a scope**, in every context and however its bindings and its body end. -/
theorem runsAsScope_letIn (depth : Nat) (bindings : List (Binding Expr)) (body : Expr)
    (line : Nat) (c : Context) :
    RunsAsScope depth (letSteps depth body bindings c)
      ((Expr.letIn bindings body line).evalUpTo depth) c := by
  have hlet : (Expr.letIn bindings body line).evalUpTo depth =
      Expr.evalLet (Expr.enterUpTo depth) bindings (body.evalUpTo depth) := by
    rw [Expr.evalUpTo_eq, Expr.evalWith]
  rw [hlet]
  clear hlet
  induction bindings generalizing c with
  | nil =>
    rw [Expr.evalLet]
    exact .eval depth body c
  | cons b bs ih =>
    obtain ⟨name, value, bindingLine⟩ := b
    have hvalues : Expr.evalWith (Expr.enterUpTo depth) value = value.evalUpTo depth := by
      rw [Expr.evalUpTo_eq]
    rw [Expr.evalLet, hvalues, letSteps]
    rcases hvalue : (value.evalUpTo depth).run c with ⟨v | e | _, c'⟩
    · exact .after_eval hvalue (.bind (ih _))
    · exact .of_no_value fun v c'' h => by rw [hvalue] at h; cases h
    · exact .of_no_value fun v c'' h => by rw [hvalue] at h; cases h

/-- Variables that are defined around the evaluation of a tree are bound in a scope before it. -/
theorem runsAsScope_withVariables (depth : Nat) (ds : List (String × Value)) (body : Expr)
    (c : Context) :
    RunsAsScope depth (ds.map (fun d => .bind d.1 d.2) ++ [.eval body])
      (Eval.withVariables ds (body.evalUpTo depth)) c := by
  induction ds generalizing c with
  | nil => exact .eval depth body c
  | cons d ds ih => exact .bind (ih _)

/-- **A call is a scope**: after its arguments, a call of a declared function does what a scope does
that binds each parameter to the value of one argument and then evaluates the body. -/
theorem runsAsScope_call (line : Nat) {depth : Nat} {name : String} {args : List Expr}
    {f : Function} {c c' : Context} {vs : List Value}
    (hbuiltin : Builtin.isBuiltin name args.length = false)
    (hf : c.functions.find? name args.length = some f)
    (hargs : (Expr.evalList (Expr.evalUpTo depth) args).run c = (.value vs, c')) :
    ∃ m : Eval Value, ((Expr.call name args line).evalUpTo (depth + 1)).run c = m.run c' ∧
      RunsAsScope depth ((f.params.zip vs).map (fun d => .bind d.1 d.2) ++ [.eval f.body]) m c' :=
  ⟨_, (run_call line hbuiltin hf hargs).2, runsAsScope_withVariables depth _ f.body c'⟩

end Context

end LetLang
