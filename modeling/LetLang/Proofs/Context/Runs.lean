import LetLang.Context.Step
import LetLang.Proofs.Context.OverloadMaps
import LetLang.Proofs.Context.Stacks
import LetLang.Proofs.Eval.Restore

/-!
# What a context always satisfies

Any operations may be done on a context, in any order, with scopes nested in one another. Whatever
they are, the variables are what pushing and popping alone would make of them
(`toStacks_runStep`), and the declared functions only ever become more, each by a declaration of a
free name and arity (`grows_runStep`, `Visits.grows`), which stores them in maps under their names
and arities (`exists_overloads_runStep`). So in every context that a run from a fresh one passes
through, also in the middle of its scopes, the tables of variables and functions are well kept
(`wellKept_of_visits`).
-/

namespace LetLang

/-- An evaluation that refines one that only adds functions does not take any away. -/
theorem Eval.Refines.grows {m : Eval α} {f : Env → PureEval α} (h : m.Refines f)
    (hf : ∀ ρ, (f ρ).Grows) (c : Context) : c.functions.Grows (m.run c).2.functions := by
  rw [h c]
  exact hf c.visible c.world

theorem Eval.Refines.vars_eq {m : Eval α} {f : Env → PureEval α} (h : m.Refines f) (c : Context) :
    (m.run c).2.vars = c.vars := by
  rw [h c]
  rfl

/-! ### Variables along a run -/

/-- The stacks of the variables inside a scope, with the names that the scope has bound so far, the
last bound first. -/
structure Stacks.Frame where
  vars : Stacks
  bound : List String := []

namespace Stacks

mutual

/-- What a step does to the stacks. At the end of a scope each bound name is popped, the last bound
first. -/
def runStep : Context.Step → Frame → Frame
  | .define name v, f => { f with vars := f.vars.push name v }
  | .remove name, f => { f with vars := f.vars.pop name }
  | .bind name v, f => { vars := f.vars.push name v, bound := name :: f.bound }
  | .scope steps, f =>
    let inner := runSteps steps { vars := f.vars }
    { f with vars := inner.bound.foldl pop inner.vars }
  | .evaluate _, f | .eval _, f | .lookup _ _, f | .declare _, f | .query _ _, f
  | .builtin _ _ _ _, f => f

/-- What the steps of a list do to the stacks, one after the other. -/
def runSteps : List Context.Step → Frame → Frame
  | [], f => f
  | step :: steps, f => runSteps steps (runStep step f)

end

end Stacks

theorem Variables.toStacks_removeAll (names : List String) (vs : Variables) :
    (vs.removeAll names).toStacks = names.foldl Stacks.pop vs.toStacks := by
  induction names generalizing vs with
  | nil => rfl
  | cons name names ih =>
    have hremove := ih (vs.remove name)
    rw [toStacks_remove] at hremove
    exact hremove

namespace Context

/-- The stacks of the variables of a frame. -/
def Frame.toStacks (f : Frame) : Stacks.Frame := ⟨f.context.vars.toStacks, f.bound⟩

theorem toStacks_move {f : Frame} {c : Context} (answer : Answer) (h : c.vars = f.context.vars) :
    (f.move answer c).2.toStacks = f.toStacks := by
  show Stacks.Frame.mk c.vars.toStacks f.bound = _
  rw [h]
  rfl

/-- A line that cannot be parsed changes nothing. -/
theorem evaluate_of_error {source : String} {e : Failure} (h : Line.parse source 1 = .error e)
    (depth : Nat) (c : Context) : Line.evaluate depth source c = (.error e, c) := by
  simp only [Line.evaluate, h]

/-- A line that can be parsed is evaluated as its tree is. -/
theorem evaluate_of_ok {source : String} {tree : Expr} (h : Line.parse source 1 = .ok tree)
    (depth : Nat) (c : Context) :
    Answer.ofLine (Line.evaluate depth source c).1 =
      .ofOutcome ((tree.evalUpTo depth).run c).1 ∧
    (Line.evaluate depth source c).2 = ((tree.evalUpTo depth).run c).2 := by
  simp only [Line.evaluate, h]
  rcases (tree.evalUpTo depth).run c with ⟨_ | _ | _, c'⟩ <;> exact ⟨rfl, rfl⟩

theorem vars_evaluate (depth : Nat) (source : String) (c : Context) :
    (Line.evaluate depth source c).2.vars = c.vars := by
  cases hparse : Line.parse source 1 with
  | error e => rw [evaluate_of_error hparse]
  | ok tree =>
    rw [(evaluate_of_ok hparse depth c).2]
    exact (Expr.evalUpTo_refines_evalIn depth tree).vars_eq c

theorem vars_declareStep (c : Context) (f : Function) : (declareStep c f).2.vars = c.vars := by
  unfold declareStep declare
  split_ifs <;> rfl

theorem vars_builtinStep (c : Context) (name : String) (arity : Nat) (args : List Value)
    (line : Nat) : (builtinStep c name arity args line).2.vars = c.vars := by
  unfold builtinStep
  cases Builtin.find? name arity with
  | none => rfl
  | some b => exact (Eval.Refines.builtin b args line).vars_eq c

mutual

/-- A step does to the variables what it does to the stacks. -/
theorem toStacks_runStep (depth : Nat) : ∀ (step : Step) (f : Frame),
    (runStep depth step f).2.toStacks = Stacks.runStep step f.toStacks
  | .evaluate source, f => by
    rw [Stacks.runStep]
    exact toStacks_move _ (vars_evaluate depth source f.context)
  | .eval tree, f => by
    rw [Stacks.runStep]
    exact toStacks_move _ ((Expr.evalUpTo_refines_evalIn depth tree).vars_eq f.context)
  | .define name v, f => by
    rw [Stacks.runStep]
    exact congrArg (Stacks.Frame.mk · f.bound) (f.context.vars.toStacks_define name v)
  | .remove name, f => by
    rw [Stacks.runStep]
    exact congrArg (Stacks.Frame.mk · f.bound) (f.context.vars.toStacks_remove name)
  | .lookup _ _, f => by
    rw [Stacks.runStep]
    exact toStacks_move _ rfl
  | .declare function, f => by
    rw [Stacks.runStep]
    exact toStacks_move _ (vars_declareStep f.context function)
  | .query _ _, f => by
    rw [Stacks.runStep]
    exact toStacks_move _ rfl
  | .builtin name arity args line, f => by
    rw [Stacks.runStep]
    exact toStacks_move _ (vars_builtinStep f.context name arity args line)
  | .bind name v, f => by
    rw [Stacks.runStep]
    exact congrArg (Stacks.Frame.mk · (name :: f.bound)) (f.context.vars.toStacks_define name v)
  | .scope steps, f => by
    rw [Stacks.runStep]
    -- the scope begins without bound names, and at its end those of the inner steps are removed
    have hinner := toStacks_runSteps depth steps { context := f.context }
    have hstart : (Frame.mk f.context []).toStacks = { vars := f.toStacks.vars } := rfl
    rw [hstart] at hinner
    rw [← hinner]
    exact congrArg (Stacks.Frame.mk · f.bound) (Variables.toStacks_removeAll _ _)

theorem toStacks_runSteps (depth : Nat) : ∀ (steps : List Step) (f : Frame),
    (runSteps depth steps f).2.toStacks = Stacks.runSteps steps f.toStacks
  | [], f => by
    rw [Stacks.runSteps]
    rfl
  | step :: steps, f => by
    have hmore := toStacks_runSteps depth steps (runStep depth step f).2
    rw [toStacks_runStep depth step f] at hmore
    rw [Stacks.runSteps]
    exact hmore

end

/-! ### Functions along a run -/

theorem grows_evaluate (depth : Nat) (source : String) (c : Context) :
    c.functions.Grows (Line.evaluate depth source c).2.functions := by
  cases hparse : Line.parse source 1 with
  | error e =>
    rw [evaluate_of_error hparse]
    exact .refl
  | ok tree =>
    rw [(evaluate_of_ok hparse depth c).2]
    exact (Expr.evalUpTo_refines_evalIn depth tree).grows (Expr.evalIn_grows depth tree) c

theorem grows_declareStep (c : Context) (f : Function) :
    c.functions.Grows (declareStep c f).2.functions := by
  unfold declareStep declare
  by_cases hbuiltin : Builtin.isBuiltin f.name f.arity = true
  · rw [if_pos hbuiltin]
    exact .refl
  · rw [if_neg hbuiltin]
    by_cases hfree : c.functions.hasOverload f.name f.arity = true
    · rw [if_pos hfree]
      exact .refl
    · rw [if_neg hfree]
      exact .declare .refl (Bool.eq_false_iff.mpr hbuiltin) (Bool.eq_false_iff.mpr hfree)

theorem grows_builtinStep (c : Context) (name : String) (arity : Nat) (args : List Value)
    (line : Nat) : c.functions.Grows (builtinStep c name arity args line).2.functions := by
  unfold builtinStep
  cases Builtin.find? name arity with
  | none => exact .refl
  | some b =>
    exact (Eval.Refines.builtin b args line).grows (fun _ => PureEval.grows_builtin b args line) c

mutual

/-- A step only adds to the declared functions. -/
theorem grows_runStep (depth : Nat) : ∀ (step : Step) (f : Frame),
    f.context.functions.Grows (runStep depth step f).2.context.functions
  | .evaluate source, f => grows_evaluate depth source f.context
  | .eval tree, f =>
    (Expr.evalUpTo_refines_evalIn depth tree).grows (Expr.evalIn_grows depth tree) f.context
  | .define _ _, _ => .refl
  | .remove _, _ => .refl
  | .lookup _ _, _ => .refl
  | .declare function, f => grows_declareStep f.context function
  | .query _ _, _ => .refl
  | .builtin name arity args line, f => grows_builtinStep f.context name arity args line
  | .bind _ _, _ => .refl
  | .scope steps, f => grows_runSteps depth steps { context := f.context }

theorem grows_runSteps (depth : Nat) : ∀ (steps : List Step) (f : Frame),
    f.context.functions.Grows (runSteps depth steps f).2.context.functions
  | [], _ => .refl
  | step :: steps, f =>
    (grows_runStep depth step f).trans (grows_runSteps depth steps (runStep depth step f).2)

end

/-- Whatever a step does, it does to the maps of the functions what declarations do to them. -/
theorem exists_overloads_runStep (depth : Nat) (step : Step) (f : Frame) :
    ∃ fs : List Function, (runStep depth step f).2.context.functions.toOverloads =
      fs.foldl Overloads.declare f.context.functions.toOverloads :=
  (grows_runStep depth step f).exists_overloads

/-- A step that declares a function declares it in the maps. -/
theorem toOverloads_runStep_declare (depth : Nat) (function : Function) (f : Frame) :
    (runStep depth (.declare function) f).2.context.functions.toOverloads =
      f.context.functions.toOverloads.declare function := by
  have hfunctions : (runStep depth (.declare function) f).2.context.functions =
      f.context.functions.declare function := by
    show (declareStep f.context function).2.functions = _
    unfold declareStep declare FunctionTable.declare
    by_cases hbuiltin : Builtin.isBuiltin function.name function.arity = true
    · rw [if_pos hbuiltin, if_pos (.inl hbuiltin)]
    · rw [if_neg hbuiltin]
      by_cases htaken : f.context.functions.hasOverload function.name function.arity = true
      · rw [if_pos htaken, if_pos (.inr htaken)]
      · rw [if_neg htaken, if_neg (not_or_intro hbuiltin htaken)]
  rw [hfunctions, FunctionTable.toOverloads_declare]

/-- The run of the steps from the frame `f` passes through the frame `g`, between two of the steps
or in the same way inside one of their scopes. -/
inductive Visits (depth : Nat) : List Step → Frame → Frame → Prop
  | start (steps : List Step) (f : Frame) : Visits depth steps f f
  | later {step : Step} {steps : List Step} {f g : Frame}
    (h : Visits depth steps (runStep depth step f).2 g) : Visits depth (step :: steps) f g
  | inside {inner steps : List Step} {f g : Frame}
    (h : Visits depth inner { context := f.context } g) : Visits depth (.scope inner :: steps) f g

theorem Visits.grows {depth : Nat} {steps : List Step} {f g : Frame} (h : Visits depth steps f g) :
    f.context.functions.Grows g.context.functions := by
  induction h with
  | start => exact .refl
  | later h ih => exact (grows_runStep depth _ _).trans ih
  | inside h ih => exact ih

/-! ### Well-kept contexts -/

/-- The answers that a context gives about names fit together. -/
structure WellKept (c : Context) : Prop where
  /-- A stored stack is not empty. -/
  stack_ne_nil : ∀ name stack, c.vars.toStacks name = some stack → stack ≠ []
  /-- A name is bound exactly if a stack is stored under it. -/
  isBound_eq : ∀ name, c.isBound name = (c.vars.toStacks name).isSome
  /-- A name is bound exactly if it has a value. -/
  isBound_iff : ∀ name line, c.isBound name = true ↔ ∃ v, c.lookup name line = .ok v
  /-- No name and arity stand for a built-in and for a declared function. -/
  not_both : ∀ name arity,
    ¬ ((c.info name arity).isBuiltin = true ∧ (c.info name arity).hasOverload = true)
  /-- Each declared function is stored under its own name and the number of its parameters, and
  under no other. -/
  stored_iff : ∀ name arity f, (c.info name arity).function = some f ↔
    f ∈ c.functions ∧ f.name = name ∧ f.params.length = arity
  /-- Arities are listed in strictly ascending order. -/
  ascending : ∀ name, (c.functions.arities name).Pairwise (· < ·)
  /-- An arity is listed exactly if there is an overload with it. -/
  mem_arities : ∀ name arity,
    arity ∈ c.functions.arities name ↔ (c.info name arity).hasOverload = true
  /-- Exactly then there is a function, and with it its parameters and its body. -/
  present : ∀ name arity,
    (c.info name arity).function.isSome = (c.info name arity).hasOverload ∧
    (c.info name arity).parameters.isSome = (c.info name arity).hasOverload ∧
    (c.info name arity).body.isSome = (c.info name arity).hasOverload
  /-- A name stands for a declared function exactly if it has an arity. -/
  isFunction_iff : ∀ name, c.functions.isFunction name = true ↔ c.functions.arities name ≠ []
  /-- Under a stored name there are overloads, in the order of their arities, and each function is
  stored under its own name and the number of its parameters. -/
  overloads : c.functions.toOverloads.WellFormed
  /-- What is said about a name and an arity is what is stored under them. -/
  info_eq : ∀ name arity,
    (c.info name arity).isFunction = c.functions.toOverloads.isFunction name ∧
    (c.info name arity).arities = c.functions.toOverloads.arities name ∧
    (c.info name arity).hasOverload = c.functions.toOverloads.hasOverload name arity ∧
    (c.info name arity).function = c.functions.toOverloads.function? name arity

theorem isBound_eq_stacks (c : Context) (name : String) :
    c.isBound name = (c.vars.toStacks name).isSome := by
  unfold isBound
  rw [Variables.lookup?_eq_stacks]
  cases hstack : c.vars.toStacks name with
  | none => rfl
  | some stack =>
    -- the stack has a latest value, because it is stored
    obtain ⟨v, values, rfl⟩ := List.exists_cons_of_ne_nil (Variables.ne_nil_of_stacks hstack)
    rfl

theorem isBound_iff_lookup (c : Context) (name : String) (line : Nat) :
    c.isBound name = true ↔ ∃ v, c.lookup name line = .ok v := by
  unfold isBound lookup
  cases c.vars.lookup? name with
  | none => simp
  | some v => simp

/-- A context whose functions have been declared one after the other is well kept. -/
theorem wellKept_of_grows {c : Context} (h : FunctionTable.Grows [] c.functions) : c.WellKept where
  stack_ne_nil _ _ := Variables.ne_nil_of_stacks
  isBound_eq := c.isBound_eq_stacks
  isBound_iff := c.isBound_iff_lookup
  not_both name arity := by
    rintro ⟨hbuiltin, hoverload⟩
    obtain ⟨f, hf, rfl, rfl⟩ := FunctionTable.hasOverload_iff.mp hoverload
    have hnot := h.isBuiltin_of_mem hf
    rw [show Builtin.isBuiltin f.name f.arity = true from hbuiltin] at hnot
    cases hnot
  stored_iff name arity f := by
    constructor
    · exact FunctionTable.find?_eq_some
    · rintro ⟨hf, rfl, rfl⟩
      exact h.find?_of_mem hf
  ascending := c.functions.pairwise_arities
  mem_arities _ _ := FunctionTable.mem_arities_iff
  present name arity := ⟨rfl, Option.isSome_map, Option.isSome_map⟩
  isFunction_iff _ := FunctionTable.isFunction_iff
  overloads := by
    obtain ⟨fs, hfs⟩ := h.exists_overloads
    rw [hfs]
    exact Overloads.wellFormed_empty.foldl_declare fs
  info_eq name arity := ⟨c.functions.isFunction_eq_overloads name,
    c.functions.arities_eq_overloads name, c.functions.hasOverload_eq_overloads name arity,
    c.functions.find?_eq_overloads name arity⟩

/-! ### Declarations and calls -/

/-- A declaration that fails changes nothing. -/
theorem run_declare_error {f : Function} {c c' : Context} {e : RuntimeError}
    (h : (Eval.declare f).run c = (.error e, c')) : c' = c := by
  dsimp only [Eval.declare, Eval.run] at h
  cases hdeclare : c.declare f with
  | ok d =>
    rw [hdeclare] at h
    cases h
  | error e' =>
    rw [hdeclare] at h
    exact (Prod.mk.inj h).2.symm

/-- A step that declares a function and fails changes nothing. -/
theorem runStep_declare (depth : Nat) (f : Function) (frame : Frame) :
    (declareStep frame.context f).1 = .done ∨ (runStep depth (.declare f) frame).2 = frame := by
  cases hdeclare : frame.context.declare f with
  | ok d =>
    left
    rw [declareStep, hdeclare]
  | error e =>
    right
    rw [runStep, declareStep, hdeclare]
    rfl

/-- The arguments of a call have as many values as there are arguments. -/
theorem length_of_run_evalList {depth : Nat} {args : List Expr} {c c' : Context}
    {vs : List Value} (h : (Expr.evalList (Expr.evalUpTo depth) args).run c = (.value vs, c')) :
    vs.length = args.length := by
  rw [Expr.evalList_refines (Expr.evalUpTo_refines_evalIn depth) args c] at h
  have houtcome := (Prod.mk.inj h).1
  rcases hrun : (Expr.evalListInWith (Expr.evalIn depth) args c.visible).run c.world with
    ⟨outcome, printed, w⟩
  rw [hrun] at houtcome
  subst houtcome
  exact Expr.length_of_run_evalListInWith hrun

/-- A call of a declared function runs its body with each parameter defined as the value of one
argument. -/
theorem run_call (line : Nat) {depth : Nat} {name : String} {args : List Expr} {f : Function}
    {c c' : Context} {vs : List Value} (hbuiltin : Builtin.isBuiltin name args.length = false)
    (hf : c.functions.find? name args.length = some f)
    (hargs : (Expr.evalList (Expr.evalUpTo depth) args).run c = (.value vs, c')) :
    vs.length = f.params.length ∧
    ((Expr.call name args line).evalUpTo (depth + 1)).run c =
      (Eval.withVariables (f.params.zip vs) (f.body.evalUpTo depth)).run c' := by
  have hnone : Builtin.find? name args.length = none := by
    rwa [Builtin.isBuiltin, Option.isSome_eq_false_iff, Option.isNone_iff_eq_none] at hbuiltin
  have hfind : (Eval.read (·.findFunction name args.length line)).run c = (.value f, c) := by
    show (Eval.ofExcept (c.findFunction name args.length line)).run c = _
    rw [findFunction, hf]
    rfl
  constructor
  · rw [length_of_run_evalList hargs]
    exact (FunctionTable.find?_eq_some hf).2.2.symm
  · rw [Expr.evalUpTo, Expr.evalWith, hnone]
    dsimp only
    rw [Eval.run_bind, hfind]
    dsimp only
    rw [Eval.run_bind, hargs]

/-- **Well-kept contexts**: every context that a run from a fresh one passes through is well kept,
whatever the operations are and however their scopes are nested; a step there does to the variables
what it does to the stacks under their names, and to the functions what declarations do to the maps
under their names and arities; and a declaration that fails leaves the context as it is. In no
context at all does a declaration inside a tree that fails change anything, and each call of a
declared function defines every parameter once, as the value of one argument. -/
theorem wellKept_of_visits {depth : Nat} {steps : List Step} {sink : Sink} {random : RandomSource}
    {frame : Frame}
    (h : Visits depth steps { context := { sink := sink, random := random } } frame) :
    frame.context.WellKept ∧
    (∀ step, (runStep depth step frame).2.toStacks = Stacks.runStep step frame.toStacks) ∧
    (∀ step, ∃ fs : List Function, (runStep depth step frame).2.context.functions.toOverloads =
      fs.foldl Overloads.declare frame.context.functions.toOverloads) ∧
    (∀ f : Function, (runStep depth (.declare f) frame).2.context.functions.toOverloads =
      frame.context.functions.toOverloads.declare f) ∧
    (∀ f : Function,
      (declareStep frame.context f).1 = .done ∨ (runStep depth (.declare f) frame).2 = frame) ∧
    (∀ (f : Function) (c c' : Context) (e : RuntimeError),
      (Eval.declare f).run c = (.error e, c') → c' = c) ∧
    ∀ (n : Nat) (name : String) (args : List Expr) (line : Nat) (f : Function) (c c' : Context)
      (vs : List Value), Builtin.isBuiltin name args.length = false →
      c.functions.find? name args.length = some f →
      (Expr.evalList (Expr.evalUpTo n) args).run c = (.value vs, c') →
      ∃ definitions : List (String × Value),
        definitions.map Prod.fst = f.params ∧ definitions.map Prod.snd = vs ∧
        ((Expr.call name args line).evalUpTo (n + 1)).run c =
          (Eval.withVariables definitions (f.body.evalUpTo n)).run c' := by
  refine ⟨wellKept_of_grows h.grows, fun step => toStacks_runStep depth step frame,
    fun step => exists_overloads_runStep depth step frame,
    fun f => toOverloads_runStep_declare depth f frame, fun f => runStep_declare depth f frame,
    fun f c c' e => run_declare_error, ?_⟩
  intro n name args line f c c' vs hbuiltin hf hargs
  obtain ⟨hlength, hrun⟩ := run_call line hbuiltin hf hargs
  refine ⟨f.params.zip vs, ?_, ?_, hrun⟩
  · exact List.map_fst_zip (by omega)
  · exact List.map_snd_zip (by omega)

/-- Inside two scopes, after a name was removed more often than it was bound. -/
theorem wellKept_in_scopes :
    ∃ frame : Frame,
      Visits 1 [.scope [.declare ⟨"f", ["x", "x"], .var "x" 1, 1⟩, .bind "x" .nil,
        .scope [.remove "x", .remove "x", .bind "y" .nil]]] { context := {} } frame ∧
      frame.bound = ["y"] ∧ frame.context.isBound "x" = false ∧
      (frame.context.info "f" 2).hasOverload = true ∧ frame.context.WellKept := by
  have hvisits : Visits 1 [.scope [.declare ⟨"f", ["x", "x"], .var "x" 1, 1⟩, .bind "x" .nil,
      .scope [.remove "x", .remove "x", .bind "y" .nil]]] { context := {} } _ :=
    .inside (.later (.later (.inside (.later (.later (.later (.start [] _)))))))
  exact ⟨_, hvisits, rfl, rfl, rfl, (wellKept_of_visits hvisits).1⟩

end Context

end LetLang
