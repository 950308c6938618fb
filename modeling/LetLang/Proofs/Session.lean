import LetLang.Proofs.Eval.Refinement
import LetLang.Proofs.Line
import LetLang.Session.Step

/-!
# Sessions and their declarations

All that a session carries from one line to the next are the declarations it has accepted. Running a
line is described by its effect (`Session.run_eq`), which depends on the declared functions and the
random numbers and on nothing else of the session. So after any lines no variable is bound, and the
table of functions is what the lines declared, the first declaration of a name and arity winning.
Two sessions with the same functions answer the same to lines that draw no random numbers
(`Session.runLines_alike`), so a line that declared nothing can be deleted without a trace.
-/

namespace LetLang

/-! ### Reports -/

/-- Whether the failure is in the text of a line, not in its evaluation. -/
def Failure.isTextual : Failure → Bool
  | lexical _ | syntactic _ => true
  | runtime _ | tooDeep => false

namespace Reporter

/-- The reporter after a line with the given result. -/
def afterLine (r : Reporter) : Except Failure Value → Reporter
  | .ok _ => ⟨r.messages, false, false⟩
  | .error f => ⟨r.messages ++ f.reports, f.isTextual, !f.isTextual⟩

theorem lexicalErrors_eq (r : Reporter) (errors : List LexicalError) :
    r.lexicalErrors errors =
      { r with
        messages := r.messages ++ errors.map LexicalError.report
        hadError := r.hadError || !errors.isEmpty } := by
  unfold lexicalErrors
  induction errors generalizing r with
  | nil => simp
  | cons e errors ih =>
    rw [List.foldl_cons, ih]
    simp [error]

end Reporter

/-! ### Running a line -/

/-- The context after a line with the given effect. -/
def Context.afterLine (c : Context) (e : Line.Effect) : Context :=
  { c with
    functions := e.world.functions
    random := e.world.random
    sink := c.sink.writeAll e.printed }

namespace Session

/-- A session parses a line as it is parsed on its own, and reports the failure. -/
theorem parse_eq (s : Session) (source : String) (line : Nat) :
    s.parse source line =
      match Line.parse source line with
      | .ok tree => (some tree, { s with reporter := ⟨s.reporter.messages, false, false⟩ })
      | .error f => (none, { s with reporter := s.reporter.afterLine (.error f) }) := by
  dsimp only [parse, Line.parse]
  rw [Reporter.lexicalErrors_eq]
  cases herrors : (Token.scan source line).errors with
  | nil =>
    cases Expr.ofTokens (Token.scan source line).tokens with
    | ok tree => simp [Reporter.resetError, Reporter.resetRuntimeError]
    | error e =>
      simp [Reporter.resetError, Reporter.resetRuntimeError, Reporter.error, Reporter.afterLine,
        Failure.reports, Failure.isTextual]
  | cons e errors =>
    simp [Reporter.resetError, Reporter.resetRuntimeError, Reporter.afterLine, Failure.reports,
      Failure.isTextual]

/-- With no variable bound, running a line has the effect of the line. -/
theorem run_eq (depth : Nat) {s : Session} (hvars : s.context.vars = []) (source : String)
    (line : Nat) :
    let effect := Line.effect depth source line s.context.world
    s.run depth source line =
      (effect.result.toOption,
        ⟨s.context.afterLine effect, s.reporter.afterLine effect.result⟩) := by
  have hvisible : s.context.visible = fun _ => none := by
    funext name
    unfold Context.visible
    rw [hvars]
    rfl
  dsimp only [run, Line.effect]
  rw [parse_eq]
  cases Line.parse source line with
  | error f => rfl
  | ok tree =>
    dsimp only [evalTree]
    rw [Expr.evalUpTo_refines_evalIn, hvisible]
    cases ((Expr.evalIn depth tree fun _ => none).run s.context.world).outcome with
    | value v => rfl
    | error e => rfl
    | tooDeep => rfl

/-! ### Running lines -/

/-- Runs lines of source, each with its number, and gives their records. -/
def runLines (depth : Nat) (lines : List (String × Nat)) (s : Session) : List Record × Session :=
  let (records, desk) := runSteps depth (lines.map fun l => .run l.1 l.2) { session := s }
  (records, desk.session)

theorem runLines_cons (depth : Nat) (source : String) (line : Nat) (lines : List (String × Nat))
    (s : Session) :
    runLines depth ((source, line) :: lines) s =
      let (v, s') := s.run depth source line
      let (records, s'') := runLines depth lines s'
      (record (.value v) s s' :: records, s'') := rfl

theorem runLines_append (depth : Nat) (lines lines' : List (String × Nat)) (s : Session) :
    runLines depth (lines ++ lines') s =
      ((runLines depth lines s).1 ++ (runLines depth lines' (runLines depth lines s).2).1,
        (runLines depth lines' (runLines depth lines s).2).2) := by
  induction lines generalizing s with
  | nil => rfl
  | cons l lines ih =>
    obtain ⟨source, line⟩ := l
    rw [List.cons_append, runLines_cons, runLines_cons]
    simp only [ih, List.cons_append]

theorem length_runLines (depth : Nat) (lines : List (String × Nat)) (s : Session) :
    (runLines depth lines s).1.length = lines.length := by
  induction lines generalizing s with
  | nil => rfl
  | cons l lines ih =>
    obtain ⟨source, line⟩ := l
    rw [runLines_cons]
    simp only [List.length_cons, ih]

/-- A record without the number of pending messages, which counts those of earlier lines. -/
def Record.withoutPending (r : Record) : Record := { r with pending := 0 }

/-- The record of a line with the given effect, if the sink takes what is printed or if not. -/
def recordOf (accepts : Bool) (e : Line.Effect) : Record :=
  let reporter := Reporter.afterLine {} e.result
  { answer := .value e.result.toOption
    printed := if accepts then e.printed else []
    added := reporter.messages
    pending := 0
    hadError := reporter.hadError
    hadRuntimeError := reporter.hadRuntimeError }

theorem record_afterLine (s : Session) (e : Line.Effect) :
    (record (.value e.result.toOption) s
      ⟨s.context.afterLine e, s.reporter.afterLine e.result⟩).withoutPending =
        recordOf s.context.sink.accepts e := by
  have hprinted := Sink.since_writeAll s.context.sink e.printed
  have hadded : (s.reporter.afterLine e.result).messages.drop s.reporter.messages.length =
      (Reporter.afterLine {} e.result).messages := by
    cases e.result <;> simp [Reporter.afterLine]
  unfold record Record.withoutPending recordOf
  simp only [Context.afterLine, hprinted, hadded]
  cases e.result <;> rfl

/-! ### Sessions with the same functions -/

/-- Two sessions without variables have the same functions, sinks that both take values or both do
not, and random numbers related by `S`. -/
structure Alike (S : RandomSource → RandomSource → Prop) (s s' : Session) : Prop where
  vars : s.context.vars = []
  vars' : s'.context.vars = []
  functions : s.context.functions = s'.context.functions
  accepts : s.context.sink.accepts = s'.context.sink.accepts
  random : S s.context.random s'.context.random

section

variable {S : RandomSource → RandomSource → Prop} {allowed : Expr → Prop}

/-- Alike sessions record the same for a line, and they are alike after it. -/
theorem Alike.run (hS : Admits S allowed) {s s' : Session} (h : Alike S s s')
    (hF : s.context.functions.AllBodies allowed) (depth : Nat) {source : String} {line : Nat}
    (hline : Line.AllParts allowed source line) :
    (record (.value (s.run depth source line).1) s (s.run depth source line).2).withoutPending =
      (record (.value (s'.run depth source line).1) s'
        (s'.run depth source line).2).withoutPending ∧
    Alike S (s.run depth source line).2 (s'.run depth source line).2 ∧
    (s.run depth source line).2.context.functions =
      Line.table s.context.functions source line := by
  -- both sessions run the line with the same functions, so it has one effect on both
  obtain ⟨result, printed, q, q', hq, heffect, heffect'⟩ :=
    Line.effect_uniform hS hF depth hline h.random
  rw [h.functions] at heffect'
  rw [run_eq depth h.vars, run_eq depth h.vars']
  unfold Context.world
  rw [heffect, heffect', record_afterLine, record_afterLine, h.accepts]
  refine ⟨rfl, ⟨h.vars, h.vars', by simp only [Context.afterLine, h.functions], ?_, hq⟩, rfl⟩
  simp only [Context.afterLine, Sink.accepts_writeAll, h.accepts]

/-- Alike sessions record the same for all lines. -/
theorem runLines_alike (hS : Admits S allowed) (depth : Nat) {lines : List (String × Nat)}
    (hlines : ∀ l ∈ lines, Line.AllParts allowed l.1 l.2) {s s' : Session} (h : Alike S s s')
    (hF : s.context.functions.AllBodies allowed) :
    (runLines depth lines s).1.map Record.withoutPending =
      (runLines depth lines s').1.map Record.withoutPending := by
  induction lines generalizing s s' with
  | nil => rfl
  | cons l lines ih =>
    obtain ⟨source, line⟩ := l
    obtain ⟨hline, hlines⟩ := List.forall_mem_cons.mp hlines
    obtain ⟨hrecord, halike, hfunctions⟩ := h.run hS hF depth hline
    rw [runLines_cons, runLines_cons]
    simp only [List.map_cons, hrecord]
    rw [ih hlines halike (hfunctions ▸ hline.allBodies hF)]

end

/-! ### The state of a session -/

/-- The functions that lines declare, in the order of the lines, also those that are rejected. -/
def declarations (lines : List (String × Nat)) : List Function :=
  lines.filterMap fun l => Line.declaration? l.1 l.2

/-- The functions `F` after the declarations of lines. -/
def tableAfter (F : FunctionTable) (lines : List (String × Nat)) : FunctionTable :=
  lines.foldl (fun F l => Line.table F l.1 l.2) F

theorem tableAfter_eq_foldl_declare (F : FunctionTable) (lines : List (String × Nat)) :
    tableAfter F lines = (declarations lines).foldl FunctionTable.declare F := by
  unfold tableAfter declarations
  rw [List.foldl_filterMap]
  congr 1
  funext F l
  unfold Line.table
  cases Line.declaration? l.1 l.2 <;> rfl

theorem allBodies_tableAfter {allowed : Expr → Prop} {lines : List (String × Nat)}
    (h : ∀ l ∈ lines, Line.AllParts allowed l.1 l.2) {F : FunctionTable}
    (hF : F.AllBodies allowed) : (tableAfter F lines).AllBodies allowed := by
  induction lines generalizing F with
  | nil => exact hF
  | cons l lines ih =>
    obtain ⟨hline, hlines⟩ := List.forall_mem_cons.mp h
    exact ih hlines (hline.allBodies hF)

/-- Lines bind no variable, declare what they declare, and leave the sink as ready as it was. -/
theorem context_runLines (depth : Nat) (lines : List (String × Nat)) {s : Session}
    (hvars : s.context.vars = [])
    (hF : s.context.functions.AllBodies fun e => e.isFunction = false) :
    let c := (runLines depth lines s).2.context
    c.vars = [] ∧ c.functions = tableAfter s.context.functions lines ∧
      c.sink.accepts = s.context.sink.accepts := by
  induction lines generalizing s with
  | nil => exact ⟨hvars, rfl, rfl⟩
  | cons l lines ih =>
    obtain ⟨source, line⟩ := l
    have hline := Line.allParts_functionFree source line
    have hself : Alike Eq s s := ⟨hvars, hvars, rfl, rfl, rfl⟩
    obtain ⟨-, halike, hfunctions⟩ := hself.run admits_functionFree hF depth hline
    obtain ⟨hvars', hfunctions', haccepts⟩ := ih halike.vars (hfunctions ▸ hline.allBodies hF)
    refine ⟨hvars', hfunctions'.trans (by rw [hfunctions]; rfl), haccepts.trans ?_⟩
    rw [run_eq depth hvars]
    exact Sink.accepts_writeAll _ _

/-- The line declares a function, and the session takes the declaration. -/
def Accepts (depth : Nat) (s : Session) (source : String) (line : Nat) : Prop :=
  (Line.declaration? source line).isSome ∧ (s.run depth source line).1.isSome

/-- A line declares nothing if it fails, or if it is not a declaration. -/
theorem functions_run_of_not_accepts {depth : Nat} {s : Session} (hvars : s.context.vars = [])
    (hF : s.context.functions.AllBodies fun e => e.isFunction = false) {source : String}
    {line : Nat} (h : ¬ Accepts depth s source line) :
    (s.run depth source line).2.context.functions = s.context.functions := by
  have hself : Alike Eq s s := ⟨hvars, hvars, rfl, rfl, rfl⟩
  have hline := Line.allParts_functionFree source line
  rw [(hself.run admits_functionFree hF depth hline).2.2]
  cases hdeclaration : Line.declaration? source line with
  | none =>
    unfold Line.table
    rw [hdeclaration]
    rfl
  | some f =>
    -- a declaration that is not accepted has failed
    cases hresult : (Line.effect depth source line s.context.world).result with
    | error f => exact Line.table_of_effect_error hresult
    | ok v =>
      refine absurd ⟨by rw [hdeclaration]; rfl, ?_⟩ h
      rw [run_eq depth hvars]
      simp only [hresult]
      rfl

/-- Where a session has accepted no declaration, the line before it leaves no trace in the records
of the lines after it, if these draw no random numbers. -/
theorem runLines_of_not_accepts {depth : Nat} {s : Session} (hvars : s.context.vars = [])
    (hF : s.context.functions.AllBodies fun e => e.isFunction = false ∧ e.isRand = false)
    {source : String} {line : Nat} (h : ¬ Accepts depth s source line)
    {lines : List (String × Nat)} (hlines : ∀ l ∈ lines, Line.RandFree l.1 l.2) :
    (runLines depth lines (s.run depth source line).2).1.map Record.withoutPending =
      (runLines depth lines s).1.map Record.withoutPending := by
  -- the line may have drawn random numbers, which the lines after it do not look at
  have hfunctions := functions_run_of_not_accepts hvars (fun f hf t ht => (hF f hf t ht).1) h
  have halike : Alike (fun _ _ => True) (s.run depth source line).2 s := by
    refine ⟨?_, hvars, hfunctions, ?_, trivial⟩
    · rw [run_eq depth hvars]
      exact hvars
    · rw [run_eq depth hvars]
      exact Sink.accepts_writeAll _ _
  exact runLines_alike admits_randFree depth (fun l hl => (hlines l hl).allParts) halike
    (hfunctions ▸ hF)

/-! ### Fresh sessions -/

/-- Runs lines in a session that has run none before. -/
def runFresh (depth : Nat) (sink : Sink) (random : RandomSource) (lines : List (String × Nat)) :
    List Record × Session :=
  let (records, s) := runLines depth lines { context := { sink, random } }
  (records.map Record.withoutPending, s)

section

variable (depth : Nat) (sink : Sink) (random : RandomSource)

theorem context_runFresh (lines : List (String × Nat)) :
    (runFresh depth sink random lines).2.context.vars = [] ∧
    (runFresh depth sink random lines).2.context.functions = tableAfter [] lines := by
  have hF : FunctionTable.AllBodies [] fun e => e.isFunction = false := fun _ hf => by cases hf
  have hvars : ({ context := { sink, random } } : Session).context.vars = [] := rfl
  obtain ⟨hvars, hfunctions, -⟩ := context_runLines depth lines hvars hF
  exact ⟨hvars, hfunctions⟩

/-- The bodies of the functions in a session come from its lines. -/
theorem allBodies_runFresh {allowed : Expr → Prop} {lines : List (String × Nat)}
    (h : ∀ l ∈ lines, Line.AllParts allowed l.1 l.2) :
    (runFresh depth sink random lines).2.context.functions.AllBodies allowed := by
  rw [(context_runFresh depth sink random lines).2]
  exact allBodies_tableAfter h fun _ hf => by cases hf

theorem find?_runFresh (lines : List (String × Nat)) (name : String) (arity : Nat) :
    (runFresh depth sink random lines).2.context.functions.find? name arity =
      if Builtin.isBuiltin name arity then none
      else FunctionTable.find? (declarations lines) name arity := by
  rw [(context_runFresh depth sink random lines).2, tableAfter_eq_foldl_declare,
    FunctionTable.find?_foldl_declare]
  rfl

/-- A line that is no accepted declaration can be deleted. -/
theorem runFresh_eraseIdx {before rest : List (String × Nat)} {source : String} {line : Nat}
    (hbefore : ∀ l ∈ before, Line.RandFree l.1 l.2) (hrest : ∀ l ∈ rest, Line.RandFree l.1 l.2)
    (h : ¬ Accepts depth (runFresh depth sink random before).2 source line) :
    (runFresh depth sink random (before ++ rest)).1 =
      (runFresh depth sink random (before ++ (source, line) :: rest)).1.eraseIdx
        before.length := by
  have hvars := (context_runFresh depth sink random before).1
  have hF := allBodies_runFresh depth sink random fun l hl => (hbefore l hl).allParts
  unfold runFresh at hvars hF h ⊢
  have hlength : before.length =
      ((runLines depth before { context := { sink, random } }).1.map
        Record.withoutPending).length := by
    rw [List.length_map, length_runLines]
  rw [runLines_append, runLines_append, runLines_cons]
  simp only [List.map_append, List.map_cons]
  rw [hlength, List.eraseIdx_append_of_length_le (Nat.le_refl _), Nat.sub_self,
    List.eraseIdx_cons_zero, runLines_of_not_accepts hvars hF h hrest]

end

/-- **A session is its accepted declarations.** After any lines in a fresh session no variable is
bound, and a name and arity stand for the function of the first line that declares them, unless they
are built in. A line that fails changes neither. And if the other lines draw no random numbers, a
line that is no accepted declaration can be deleted: every other line has the same value, prints the
same, and adds the same messages. -/
theorem runFresh_eq_declarations (depth : Nat) (sink : Sink) (random : RandomSource) :
    (∀ lines, (runFresh depth sink random lines).2.context.vars = [] ∧
      ∀ name arity, (runFresh depth sink random lines).2.context.functions.find? name arity =
        if Builtin.isBuiltin name arity then none
        else FunctionTable.find? (declarations lines) name arity) ∧
    (∀ lines source line s',
      (runFresh depth sink random lines).2.run depth source line = (none, s') →
        s'.context.vars = (runFresh depth sink random lines).2.context.vars ∧
        s'.context.functions = (runFresh depth sink random lines).2.context.functions) ∧
    (∀ before source line rest, (∀ l ∈ before ++ rest, Line.RandFree l.1 l.2) →
      ¬ Accepts depth (runFresh depth sink random before).2 source line →
        (runFresh depth sink random (before ++ rest)).1 =
          (runFresh depth sink random (before ++ (source, line) :: rest)).1.eraseIdx
            before.length) := by
  refine ⟨fun lines => ⟨?_, find?_runFresh depth sink random lines⟩, ?_, ?_⟩
  · exact (context_runFresh depth sink random lines).1
  · intro lines source line s' hrun
    have hvars := (context_runFresh depth sink random lines).1
    have hF := allBodies_runFresh depth sink random fun (l : String × Nat) (_ : l ∈ lines) =>
      Line.allParts_functionFree l.1 l.2
    have hfails : ¬ Accepts depth (runFresh depth sink random lines).2 source line := by
      unfold Accepts
      rw [hrun]
      exact fun haccepts => Bool.false_ne_true haccepts.2
    have hfunctions := functions_run_of_not_accepts hvars hF hfails
    rw [run_eq depth hvars] at hrun
    obtain ⟨-, rfl⟩ := Prod.mk.inj hrun
    refine ⟨rfl, ?_⟩
    rwa [run_eq depth hvars] at hfunctions
  · intro before source line rest hrand haccepts
    obtain ⟨hbefore, hrest⟩ := List.forall_mem_append.mp hrand
    exact runFresh_eraseIdx depth sink random hbefore hrest haccepts

end Session

end LetLang
