import LetLang.Proofs.Context.Runs
import LetLang.Proofs.Line

/-!
# Sinks that take nothing

A program cannot tell whether its sink takes what it prints: the same steps, done in a context with
a working sink and in one with a broken sink, have the same answers
(`Context.runSteps_broken_sink`). Two frames that differ in their sinks only are `Frame.Alike`, and
one step keeps them so (`Context.runStep_alike`).

What the steps print does not depend on the sink either. `Context.traceStep` takes it from the
evaluation in an environment, where there is no sink, and `Context.prints_runStep` says that a sink
that takes values is given just that, also by steps that fail.
-/

namespace LetLang

/-- Without `rand`, evaluations in one environment match, whatever the sources of random numbers. -/
theorem Expr.agreement_randFree :
    PureEval.Agreement (·.AllBodies fun e => e.isRand = false) (fun _ _ => True) Eq
      (fun e => e.isRand = false) where
  lookup _ hρ := congrFun hρ _
  extend name v hρ := congrArg (·.bind name v) hρ
  declare hfunction hF := hF.declare (forall_mem_subtrees_function.mp hfunction).2
  draw hs hrand := by
    rw [hs] at hrand
    cases hrand
  bodies hF := hF.of_find?

/-- The sink is given what the evaluation prints in the environment of the visible values. -/
theorem Eval.Refines.sink_eq {m : Eval α} {f : Env → PureEval α} (h : m.Refines f) (c : Context) :
    (m.run c).2.sink = c.sink.writeAll ((f c.visible).run c.world).printed := by
  rw [h c]
  rfl

namespace Context

/-- The step does not use `rand`, in what it evaluates or in what it declares. -/
inductive Step.RandFree : Step → Prop
  | evaluate {source : String} (h : Line.RandFree source 1) : RandFree (.evaluate source)
  | eval {tree : Expr} (h : tree.RandFree) : RandFree (.eval tree)
  | define (name : String) (v : Value) : RandFree (.define name v)
  | remove (name : String) : RandFree (.remove name)
  | lookup (name : String) (line : Nat) : RandFree (.lookup name line)
  | declare {function : Function} (h : function.body.RandFree) : RandFree (.declare function)
  | query (name : String) (arity : Nat) : RandFree (.query name arity)
  | builtin {name : String} {arity : Nat} (h : Builtin.find? name arity ≠ some .rand)
    (args : List Value) (line : Nat) : RandFree (.builtin name arity args line)
  | bind (name : String) (v : Value) : RandFree (.bind name v)
  | scope {steps : List Step} (h : ∀ step ∈ steps, RandFree step) : RandFree (.scope steps)

/-! ### Runs with different sinks -/

/-- The contexts have the same variables and the same functions, none of which uses `rand`. Their
sinks and their sources of random numbers are any. -/
structure Alike (c d : Context) : Prop where
  vars : c.vars = d.vars
  functions : c.functions = d.functions
  bodies : c.functions.AllBodies fun e => e.isRand = false

/-- An evaluation that no source of random numbers influences ends in the same way in contexts that
are alike, and they are alike afterwards. -/
theorem Alike.run {c d : Context} (h : c.Alike d) {m : Eval α} {f : Env → PureEval α}
    (hm : m.Refines f)
    (hf : ∀ ρ, PureEval.Matches True (·.AllBodies fun e => e.isRand = false) (fun _ _ => True) Eq
      (f ρ) (f ρ)) :
    (m.run c).1 = (m.run d).1 ∧ (m.run c).2.Alike (m.run d).2 := by
  obtain ⟨outcome, outcome', printed, F, q, q', houtcome, hF, -, hrun, hrun'⟩ :=
    hf c.visible c.functions c.random d.random h.bodies trivial
  have hvisible : c.visible = d.visible := by
    unfold visible
    rw [h.vars]
  rw [hvisible, h.functions] at hrun'
  rw [hm.run_eq hrun, hm.run_eq hrun']
  exact ⟨houtcome.eq, h.vars, rfl, hF⟩

theorem Alike.eval {c d : Context} (h : c.Alike d) {tree : Expr} (htree : tree.RandFree)
    (depth : Nat) :
    Answer.ofOutcome ((tree.evalUpTo depth).run c).1 =
      .ofOutcome ((tree.evalUpTo depth).run d).1 ∧
    ((tree.evalUpTo depth).run c).2.Alike ((tree.evalUpTo depth).run d).2 := by
  obtain ⟨houtcome, halike⟩ := h.run (Expr.evalUpTo_refines_evalIn depth tree)
    fun _ => Expr.evalIn_matches Expr.agreement_randFree depth htree rfl
  exact ⟨congrArg Answer.ofOutcome houtcome, halike⟩

theorem Alike.evaluate {c d : Context} (h : c.Alike d) {source : String}
    (hsource : Line.RandFree source 1) (depth : Nat) :
    Answer.ofLine (Line.evaluate depth source c).1 = .ofLine (Line.evaluate depth source d).1 ∧
    (Line.evaluate depth source c).2.Alike (Line.evaluate depth source d).2 := by
  cases hparse : Line.parse source 1 with
  | error e =>
    rw [evaluate_of_error hparse, evaluate_of_error hparse]
    exact ⟨rfl, h⟩
  | ok tree =>
    obtain ⟨hanswer, hcontext⟩ := evaluate_of_ok hparse depth c
    obtain ⟨hanswer', hcontext'⟩ := evaluate_of_ok hparse depth d
    rw [hanswer, hanswer', hcontext, hcontext']
    exact h.eval (hsource tree hparse) depth

theorem Alike.mapVars {c d : Context} (h : c.Alike d) (g : Variables → Variables) :
    Alike { c with vars := g c.vars } { d with vars := g d.vars } :=
  ⟨congrArg g h.vars, h.functions, h.bodies⟩

theorem Alike.declareStep {c d : Context} (h : c.Alike d) {f : Function} (hf : f.body.RandFree) :
    (declareStep c f).1 = (declareStep d f).1 ∧ (declareStep c f).2.Alike (declareStep d f).2 := by
  unfold Context.declareStep declare
  rw [h.functions]
  by_cases hbuiltin : Builtin.isBuiltin f.name f.arity = true
  · rw [if_pos hbuiltin, if_pos hbuiltin]
    exact ⟨rfl, h⟩
  · rw [if_neg hbuiltin, if_neg hbuiltin]
    by_cases hfree : d.functions.hasOverload f.name f.arity = true
    · rw [if_pos hfree, if_pos hfree]
      exact ⟨rfl, h⟩
    · rw [if_neg hfree, if_neg hfree]
      have hbodies := h.bodies
      rw [h.functions] at hbodies
      exact ⟨rfl, h.vars, rfl, List.forall_mem_cons.mpr ⟨hf, hbodies⟩⟩

theorem Alike.builtinStep {c d : Context} (h : c.Alike d) {name : String} {arity : Nat}
    (hrand : Builtin.find? name arity ≠ some .rand) (args : List Value) (line : Nat) :
    (builtinStep c name arity args line).1 = (builtinStep d name arity args line).1 ∧
      (builtinStep c name arity args line).2.Alike (builtinStep d name arity args line).2 := by
  unfold Context.builtinStep
  cases hb : Builtin.find? name arity with
  | none => exact ⟨rfl, h⟩
  | some b =>
    rw [hb] at hrand
    have hnever : b = .rand → RandomSource.DrawAlike fun _ _ => True :=
      fun heq => absurd (congrArg some heq) hrand
    obtain ⟨houtcome, halike⟩ :=
      h.run (.builtin b args line) fun _ => .builtin hnever args line
    exact ⟨congrArg Answer.ofOutcome houtcome, halike⟩

/-- The frames have bound the same names, in contexts that are alike. -/
structure Frame.Alike (f g : Frame) : Prop where
  context : f.context.Alike g.context
  bound : f.bound = g.bound

/-- Two runs have the same answers and end in frames that are alike. -/
def RunsAlike (r s : List Record × Frame) : Prop :=
  r.1.map Record.answer = s.1.map Record.answer ∧ r.2.Alike s.2

theorem Frame.Alike.move {f g : Frame} (h : f.Alike g) {a b : Answer} {c d : Context}
    (hcd : a = b ∧ c.Alike d) : RunsAlike (f.move a c) (g.move b d) :=
  ⟨congrArg (fun answer => [answer]) hcd.1, hcd.2, h.bound⟩

mutual

/-- A step without `rand` has the same answer in frames that are alike, and keeps them alike. -/
theorem runStep_alike (depth : Nat) : ∀ (step : Step) (f g : Frame), step.RandFree → f.Alike g →
    RunsAlike (runStep depth step f) (runStep depth step g)
  | .evaluate source, f, g, .evaluate h, hfg => hfg.move (hfg.context.evaluate h depth)
  | .eval tree, f, g, .eval h, hfg => hfg.move (hfg.context.eval h depth)
  | .define name v, f, g, _, hfg => hfg.move ⟨rfl, hfg.context.mapVars (·.define name v)⟩
  | .remove name, f, g, _, hfg => hfg.move ⟨rfl, hfg.context.mapVars (·.remove name)⟩
  | .lookup name line, f, g, _, hfg => by
    have hlookup : f.context.lookup name line = g.context.lookup name line := by
      unfold lookup
      rw [hfg.context.vars]
    exact hfg.move ⟨congrArg Answer.ofLookup hlookup, hfg.context⟩
  | .declare function, f, g, .declare h, hfg => hfg.move (hfg.context.declareStep h)
  | .query name arity, f, g, _, hfg => by
    have hinfo : f.context.info name arity = g.context.info name arity := by
      unfold info isBound
      rw [hfg.context.vars, hfg.context.functions]
    exact hfg.move ⟨congrArg Answer.info hinfo, hfg.context⟩
  | .builtin name arity args line, f, g, .builtin h _ _, hfg =>
    hfg.move (hfg.context.builtinStep h args line)
  | .bind name v, f, g, _, hfg =>
    ⟨rfl, hfg.context.mapVars (·.define name v), congrArg (name :: ·) hfg.bound⟩
  | .scope steps, f, g, .scope h, hfg => by
    -- both scopes begin without bound names, and at their ends they remove the same ones
    have hinner := runSteps_alike depth steps ⟨f.context, []⟩ ⟨g.context, []⟩ h ⟨hfg.context, rfl⟩
    simp only [runStep]
    refine ⟨?_, ?_, hfg.bound⟩
    · rw [List.map_append, List.map_append, hinner.1]
    · rw [hinner.2.bound]
      exact hinner.2.context.mapVars (·.removeAll _)

/-- The frames stay alike from step to step. -/
theorem runSteps_alike (depth : Nat) : ∀ (steps : List Step) (f g : Frame),
    (∀ step ∈ steps, step.RandFree) → f.Alike g →
      RunsAlike (runSteps depth steps f) (runSteps depth steps g)
  | [], f, g, _, hfg => ⟨rfl, hfg⟩
  | step :: steps, f, g, h, hfg => by
    obtain ⟨hstep, hsteps⟩ := List.forall_mem_cons.mp h
    have hfirst := runStep_alike depth step f g hstep hfg
    have hmore := runSteps_alike depth steps _ _ hsteps hfirst.2
    simp only [runSteps]
    refine ⟨?_, hmore.2⟩
    rw [List.map_append, List.map_append, hfirst.1, hmore.1]

end

/-! ### What the steps print -/

mutual

/-- The values that a step prints, in the order of evaluation, when what it evaluates is evaluated
in the environment of the visible values. The steps inside a scope come before the scope, as their
records do. -/
def traceStep (depth : Nat) : Step → Frame → List (List Value)
  | .evaluate source, f =>
    match Line.parse source 1 with
    | .ok tree => [((Expr.evalIn depth tree f.context.visible).run f.context.world).printed]
    | .error _ => [[]]
  | .eval tree, f => [((Expr.evalIn depth tree f.context.visible).run f.context.world).printed]
  | .builtin name arity args line, f =>
    match Builtin.find? name arity with
    | some b => [((b.evalPure args line).run f.context.world).printed]
    | none => [[]]
  | .scope steps, f => traceSteps depth steps { context := f.context } ++ [[]]
  | .define _ _, _ | .remove _, _ | .lookup _ _, _ | .declare _, _ | .query _ _, _
  | .bind _ _, _ => [[]]

/-- The values that the steps of a list print. -/
def traceSteps (depth : Nat) : List Step → Frame → List (List Value)
  | [], _ => []
  | step :: steps, f => traceStep depth step f ++ traceSteps depth steps (runStep depth step f).2

end

/-- A run that began with the sink `s` printed the values of the lists, one list in each step. The
sink was given all of them, and the records have those that it took. -/
structure Prints (s : Sink) (traces : List (List Value)) (r : List Record × Frame) : Prop where
  printed : r.1.map Record.printed = traces.map fun vs => if s.accepts then vs else []
  sink : r.2.context.sink = s.writeAll traces.flatten

theorem prints_move {f : Frame} {c : Context} {vs : List Value} (answer : Answer)
    (h : c.sink = f.context.sink.writeAll vs) : Prints f.context.sink [vs] (f.move answer c) := by
  have hsince := Sink.since_writeAll f.context.sink vs
  rw [← h] at hsince
  constructor
  · exact congrArg (fun printed => [printed]) hsince
  · rw [List.flatten_singleton]
    exact h

theorem prints_done (f : Frame) : Prints f.context.sink [[]] ([⟨.done, []⟩], f) := by
  constructor
  · rw [List.map_singleton, List.map_singleton, ite_self]
  · rfl

/-- Two runs, one after the other. -/
theorem Prints.append {s : Sink} {traces traces' : List (List Value)} {r r' : List Record × Frame}
    (h : Prints s traces r) (h' : Prints r.2.context.sink traces' r') :
    Prints s (traces ++ traces') (r.1 ++ r'.1, r'.2) := by
  have haccepts : r.2.context.sink.accepts = s.accepts := by rw [h.sink, Sink.accepts_writeAll]
  have hprinted := h'.printed
  rw [haccepts] at hprinted
  constructor
  · rw [List.map_append, List.map_append, h.printed, hprinted]
  · rw [List.flatten_append, Sink.writeAll_append, ← h.sink]
    exact h'.sink

theorem sink_declareStep (c : Context) (f : Function) : (declareStep c f).2.sink = c.sink := by
  unfold declareStep declare
  split_ifs <;> rfl

mutual

/-- A step prints what its trace says, whether it fails or not. -/
theorem prints_runStep (depth : Nat) : ∀ (step : Step) (f : Frame),
    Prints f.context.sink (traceStep depth step f) (runStep depth step f)
  | .evaluate source, f => by
    simp only [runStep, traceStep]
    cases hparse : Line.parse source 1 with
    | error e =>
      rw [evaluate_of_error hparse]
      exact prints_move _ rfl
    | ok tree =>
      refine prints_move _ ?_
      rw [(evaluate_of_ok hparse depth f.context).2]
      exact (Expr.evalUpTo_refines_evalIn depth tree).sink_eq f.context
  | .eval tree, f => prints_move _ ((Expr.evalUpTo_refines_evalIn depth tree).sink_eq f.context)
  | .define _ _, _ => prints_move _ rfl
  | .remove _, _ => prints_move _ rfl
  | .lookup _ _, _ => prints_move _ rfl
  | .declare function, f => prints_move _ (sink_declareStep f.context function)
  | .query _ _, _ => prints_move _ rfl
  | .builtin name arity args line, f => by
    simp only [runStep, traceStep, builtinStep]
    cases Builtin.find? name arity with
    | none => exact prints_move _ rfl
    | some b => exact prints_move _ ((Eval.Refines.builtin b args line).sink_eq f.context)
  | .bind name v, f => prints_done { context := f.context.define name v, bound := name :: f.bound }
  | .scope steps, f =>
    (prints_runSteps depth steps { context := f.context }).append
      (prints_done (runStep depth (.scope steps) f).2)

theorem prints_runSteps (depth : Nat) : ∀ (steps : List Step) (f : Frame),
    Prints f.context.sink (traceSteps depth steps f) (runSteps depth steps f)
  | [], _ => ⟨rfl, rfl⟩
  | step :: steps, f =>
    (prints_runStep depth step f).append (prints_runSteps depth steps (runStep depth step f).2)

end

/-- **A broken sink is invisible**: steps that do not use `rand` have the same answers one by one,
when they are done in a fresh context with a broken sink and in one with a working sink. The broken
sink shows nothing. With the working one, each step adds the text of the values that it prints, each
on a line of its own, in the order of evaluation; in the end the sink has the texts of all steps. -/
theorem runSteps_broken_sink {steps : List Step} (h : ∀ step ∈ steps, step.RandFree) (depth : Nat)
    (random random' : RandomSource) :
    let fresh : Frame := { context := { sink := .working, random := random } }
    let working := runSteps depth steps fresh
    let broken := runSteps depth steps { context := { sink := .broken, random := random' } }
    broken.1.map Record.answer = working.1.map Record.answer ∧
    (∀ record ∈ broken.1, record.printed = []) ∧
    working.1.map (fun record => printedText record.printed) =
      (traceSteps depth steps fresh).map
        (fun vs => String.join (vs.map fun v => v.display ++ "\n")) ∧
    working.2.context.sink.text =
      String.join (working.1.map fun record => printedText record.printed) := by
  intro fresh working broken
  have halike : RunsAlike broken working :=
    runSteps_alike depth steps _ fresh h ⟨⟨rfl, rfl, List.forall_mem_nil _⟩, rfl⟩
  have hbroken : broken.1.map Record.printed = _ := (prints_runSteps depth steps _).printed
  obtain ⟨hprinted, hsink⟩ := prints_runSteps depth steps fresh
  have htraces : working.1.map Record.printed = traceSteps depth steps fresh := by
    rw [hprinted]
    exact List.map_id _
  have htexts : working.1.map (fun record => printedText record.printed) =
      (traceSteps depth steps fresh).map printedText := by
    rw [← htraces, List.map_map]
    rfl
  refine ⟨halike.1, fun record hrecord => ?_, htexts, ?_⟩
  · have hmem := List.mem_map_of_mem (f := Record.printed) hrecord
    rw [hbroken] at hmem
    obtain ⟨vs, -, hvs⟩ := List.mem_map.mp hmem
    exact hvs.symm
  · have htext := Sink.text_writeAll fresh.context.sink (traceSteps depth steps fresh).flatten
    rw [← hsink] at htext
    rw [htexts, ← printedText_flatten]
    exact htext.trans (String.empty_append)

/-- The first step fails after it has printed, and one of the next ones prints inside a scope. -/
theorem runSteps_broken_sink_failing :
    let fails := Expr.unary .not (.call "print" [.literal (.quoted "a") 1] 1) 1
    let steps : List Step := [.eval fails, .scope [.bind "x" (.bool true),
      .eval (.call "print" [.var "x" 2] 2)], .lookup "x" 3]
    let working := runSteps 0 steps { context := {} }
    let broken := runSteps 0 steps { context := { sink := .broken } }
    (∀ step ∈ steps, step.RandFree) ∧
    broken.1.map Record.answer = working.1.map Record.answer ∧
    working.1.map Record.answer = [.failed (.runtime ⟨.expectedBool, "a", 1⟩), .done,
      .value (.bool true), .done, .failed (.runtime ⟨.undeclaredVariable, "x", 3⟩)] ∧
    working.1.map (fun record => printedText record.printed) = ["a\n", "", "true\n", "", ""] := by
  intro fails steps working broken
  have hfails : fails.RandFree := by
    simp [fails, Expr.RandFree, Expr.subtrees, Expr.listSubtrees, Expr.isRand]
  have hprints : (Expr.call "print" [.var "x" 2] 2).RandFree := by
    simp [Expr.RandFree, Expr.subtrees, Expr.listSubtrees, Expr.isRand]
  have hinner : ∀ step ∈ [.bind "x" (.bool true), .eval (.call "print" [.var "x" 2] 2)],
      Step.RandFree step :=
    List.forall_mem_cons.mpr ⟨.bind _ _, List.forall_mem_singleton.mpr (.eval hprints)⟩
  have hsteps : ∀ step ∈ steps, step.RandFree :=
    List.forall_mem_cons.mpr ⟨.eval hfails, List.forall_mem_cons.mpr
      ⟨.scope hinner, List.forall_mem_singleton.mpr (.lookup _ _)⟩⟩
  obtain ⟨hanswers, -, htexts, -⟩ := runSteps_broken_sink hsteps 0 (.ofSeed 0) (.ofSeed 0)
  exact ⟨hsteps, hanswers, rfl, htexts.trans rfl⟩

end Context

end LetLang
