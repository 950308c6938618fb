import LetLang.Proofs.Session

/-!
# Sessions report what results say

The same operations can be had in two ways. On a context alone, `Line.parse` and `Expr.evalUpTo`
give every error as a result. A session gives back at most a value, and turns the error into
messages and flags. `Call.result` is the first way and `Session.call` the second, and the two agree
on every sequence of calls, from any session: what a call gives back, what it does to the context,
and which messages it adds (`Session.calls_agree`). Messages are only ever appended or taken, so
those taken along the way and those still held are, in order, all that was ever reported.
-/

namespace LetLang

/-- The console lines for a result, of which a value has none. -/
def Failure.reportsOf : Except Failure α → List String
  | .ok _ => []
  | .error f => f.reports

namespace Session

/-! ### Calls -/

/-- A call on a session. -/
inductive Call where
  | run (source : String) (line : Nat)
  | parse (source : String) (line : Nat)
  | evalTree (tree : Expr)
  | take
  | resetError
  | resetRuntimeError

/-- What a call gives when there is no error. -/
inductive Product where
  | value (v : Value)
  | tree (e : Expr)
  | nothing

/-- What a call on a session gives back, if anything, and the messages that it hands over. -/
structure Reply where
  product : Option Product
  taken : List String := []

/-- The reply to a call, and the session after it. -/
def call (depth : Nat) (s : Session) : Call → Reply × Session
  | .run source line =>
    let (v, s') := s.run depth source line
    ({ product := v.map .value }, s')
  | .parse source line =>
    let (tree, s') := s.parse source line
    ({ product := tree.map .tree }, s')
  | .evalTree tree =>
    let (v, s') := s.evalTree depth tree
    ({ product := v.map .value }, s')
  | .take =>
    let (messages, s') := s.take
    (⟨some .nothing, messages⟩, s')
  | .resetError => (⟨some .nothing, []⟩, { s with reporter := s.reporter.resetError })
  | .resetRuntimeError =>
    (⟨some .nothing, []⟩, { s with reporter := s.reporter.resetRuntimeError })

/-- The replies to calls, one after the other, and the session after them. -/
def calls (depth : Nat) : List Call → Session → List Reply × Session
  | [], s => ([], s)
  | x :: xs, s =>
    let (reply, s') := s.call depth x
    let (replies, s'') := calls depth xs s'
    (reply :: replies, s'')

/-! ### Results -/

/-- What a tree gives in a context, and the context after it. -/
def treeResult (depth : Nat) (c : Context) (tree : Expr) : Except Failure Value × Context :=
  let (outcome, c') := (tree.evalUpTo depth).run c
  (outcome.result, c')

/-- What a call gives in a context, without a reporter, and the context after it. -/
def Call.result (depth : Nat) (c : Context) : Call → Except Failure Product × Context
  | .run source line =>
    match Line.parse source line with
    | .error f => (.error f, c)
    | .ok tree =>
      let (v, c') := treeResult depth c tree
      (v.map .value, c')
  | .parse source line => ((Line.parse source line).map .tree, c)
  | .evalTree tree =>
    let (v, c') := treeResult depth c tree
    (v.map .value, c')
  | .take | .resetError | .resetRuntimeError => (.ok .nothing, c)

/-- What calls give in a context, one after the other, and the context after them. -/
def results (depth : Nat) : List Call → Context → List (Except Failure Product) × Context
  | [], c => ([], c)
  | x :: xs, c =>
    let (r, c') := x.result depth c
    let (rs, c'') := results depth xs c'
    (r :: rs, c'')

/-! ### One call -/

@[simp]
theorem reportsOf_map (g : α → β) (x : Except Failure α) :
    Failure.reportsOf (x.map g) = Failure.reportsOf x := by
  cases x <;> rfl

@[simp]
theorem toOption_map (g : α → β) (x : Except Failure α) :
    (x.map g).toOption = x.toOption.map g := by
  cases x <;> rfl

/-- What `parse` does to each part of a session. -/
theorem parse_agrees (s : Session) (source : String) (line : Nat) :
    (s.parse source line).1 = (Line.parse source line).toOption ∧
    (s.parse source line).2.context = s.context ∧
    (s.parse source line).2.reporter =
      ⟨s.reporter.messages ++ Failure.reportsOf (Line.parse source line),
        (Line.parse source line).toOption.isNone, false⟩ := by
  rw [parse_eq]
  cases hparse : Line.parse source line with
  | ok tree => simp [Failure.reportsOf, Except.toOption]
  | error f =>
    -- a line that does not parse fails in its text
    have htextual : f.isTextual = true := by
      obtain ⟨-, rfl⟩ | ⟨-, e, -, rfl⟩ := Line.parse_error_cases hparse <;> rfl
    simp [Reporter.afterLine, htextual, Failure.reportsOf, Except.toOption]

/-- What `evalTree` does to each part of a session. -/
theorem evalTree_agrees (depth : Nat) (s : Session) (tree : Expr) :
    (s.evalTree depth tree).1 = (treeResult depth s.context tree).1.toOption ∧
    (s.evalTree depth tree).2.context = (treeResult depth s.context tree).2 ∧
    (s.evalTree depth tree).2.reporter =
      ⟨s.reporter.messages ++ Failure.reportsOf (treeResult depth s.context tree).1,
        s.reporter.hadError,
        s.reporter.hadRuntimeError || (treeResult depth s.context tree).1.toOption.isNone⟩ := by
  dsimp only [evalTree, treeResult]
  rcases (tree.evalUpTo depth).run s.context with ⟨v | e | _, c⟩ <;>
    simp [Outcome.result, Failure.reportsOf, Failure.reports, Reporter.runtimeError,
      Except.toOption]

/-- `run` is `parse`, followed by `evalTree` if there is a tree. -/
theorem run_eq_parse (depth : Nat) (s : Session) (source : String) (line : Nat) :
    s.run depth source line =
      match Line.parse source line with
      | .ok tree => (s.parse source line).2.evalTree depth tree
      | .error _ => (none, (s.parse source line).2) := by
  have htree := (s.parse_agrees source line).1
  unfold run
  rcases hparse : s.parse source line with ⟨tree?, s'⟩
  rw [hparse] at htree
  cases hline : Line.parse source line <;> rw [hline] at htree <;> cases htree <;> rfl

/-- **One call**: a session gives back what there is of a result, changes the context as the result
does, and appends the reports of the result to its messages. -/
theorem call_agrees (depth : Nat) (s : Session) (x : Call) :
    (s.call depth x).1.product = (x.result depth s.context).1.toOption ∧
    (s.call depth x).2.context = (x.result depth s.context).2 ∧
    (s.call depth x).1.taken ++ (s.call depth x).2.reporter.messages =
      s.reporter.messages ++ Failure.reportsOf (x.result depth s.context).1 := by
  cases x with
  | parse source line =>
    obtain ⟨htree, hcontext, hreporter⟩ := s.parse_agrees source line
    simp [call, Call.result, htree, hcontext, hreporter]
  | evalTree tree =>
    obtain ⟨hvalue, hcontext, hreporter⟩ := s.evalTree_agrees depth tree
    simp [call, Call.result, hvalue, hcontext, hreporter]
  | run source line =>
    -- a line that parses adds no message of its own, and does not touch the context
    obtain ⟨-, hcontext, hreporter⟩ := s.parse_agrees source line
    dsimp only [call, Call.result]
    rw [run_eq_parse]
    cases hline : Line.parse source line with
    | error f =>
      rw [hline] at hreporter
      simp [hcontext, hreporter, Except.toOption, Failure.reportsOf]
    | ok tree =>
      rw [hline] at hreporter
      obtain ⟨hvalue, hcontext', hreporter'⟩ := (s.parse source line).2.evalTree_agrees depth tree
      rw [hcontext] at hvalue hcontext' hreporter'
      rw [hreporter] at hreporter'
      rw [Failure.reportsOf, List.append_nil] at hreporter'
      simp [hvalue, hcontext', hreporter']
  | take => simp [call, take, Call.result, Reporter.clear, Failure.reportsOf, Except.toOption]
  | resetError =>
    simp [call, Call.result, Reporter.resetError, Failure.reportsOf, Except.toOption]
  | resetRuntimeError =>
    simp [call, Call.result, Reporter.resetRuntimeError, Failure.reportsOf, Except.toOption]

/-- The flags after a line tell where it failed, whatever they were before. -/
theorem flags_run (depth : Nat) (s : Session) (source : String) (line : Nat) :
    ((s.run depth source line).2.reporter.hadError = true ↔
      ∃ f, Line.parse source line = .error f) ∧
    ((s.run depth source line).2.reporter.hadRuntimeError = true ↔
      ∃ tree f, Line.parse source line = .ok tree ∧
        (treeResult depth s.context tree).1 = .error f) := by
  obtain ⟨-, hcontext, hreporter⟩ := s.parse_agrees source line
  rw [run_eq_parse]
  cases hline : Line.parse source line with
  | error f =>
    rw [hline] at hreporter
    simp [hreporter, Except.toOption]
  | ok tree =>
    rw [hline] at hreporter
    obtain ⟨-, -, hreporter'⟩ := (s.parse source line).2.evalTree_agrees depth tree
    rw [hcontext, hreporter] at hreporter'
    cases hresult : (treeResult depth s.context tree).1 <;>
      simp [hreporter', hresult, Except.toOption]

/-! ### Many calls -/

theorem calls_cons (depth : Nat) (x : Call) (xs : List Call) (s : Session) :
    calls depth (x :: xs) s =
      ((s.call depth x).1 :: (calls depth xs (s.call depth x).2).1,
        (calls depth xs (s.call depth x).2).2) := rfl

theorem results_cons (depth : Nat) (x : Call) (xs : List Call) (c : Context) :
    results depth (x :: xs) c =
      ((x.result depth c).1 :: (results depth xs (x.result depth c).2).1,
        (results depth xs (x.result depth c).2).2) := rfl

/-- **Many calls**: what holds of one call holds along every sequence of them. -/
theorem calls_agree_results (depth : Nat) (xs : List Call) (s : Session) :
    (calls depth xs s).1.map Reply.product =
      (results depth xs s.context).1.map Except.toOption ∧
    (calls depth xs s).2.context = (results depth xs s.context).2 ∧
    (calls depth xs s).1.flatMap Reply.taken ++ (calls depth xs s).2.reporter.messages =
      s.reporter.messages ++ (results depth xs s.context).1.flatMap Failure.reportsOf := by
  induction xs generalizing s with
  | nil => simp [calls, results]
  | cons x xs ih =>
    obtain ⟨hproduct, hcontext, hmessages⟩ := s.call_agrees depth x
    obtain ⟨hproducts, hcontexts, hmore⟩ := ih (s.call depth x).2
    rw [hcontext] at hproducts hcontexts hmore
    rw [calls_cons, results_cons]
    refine ⟨?_, hcontexts, ?_⟩
    · rw [List.map_cons, List.map_cons, hproduct, hproducts]
    · -- the later calls start from the messages that this one leaves
      rw [List.flatMap_cons, List.flatMap_cons, List.append_assoc, hmore, ← List.append_assoc,
        hmessages, List.append_assoc]

/-- **Sessions and results agree.** For every sequence of calls and every session, each call gives
back the value or tree of its result, or nothing if that is an error; the context goes the same way;
and the messages taken along the way, followed by those still held, are the messages held at first,
followed by the reports of the results in order. In particular, in every session, a line is parsed
exactly when it parses on its own, which leaves the context alone and otherwise reports all lexical
errors or the one syntax error; a tree has the value that it has in the context, and its error is
reported; and after a line has been run the flags tell where it failed. -/
theorem calls_agree (depth : Nat) :
    (∀ (s : Session) (source : String) (line : Nat),
      (∀ tree, (s.parse source line).1 = some tree ↔ Line.parse source line = .ok tree) ∧
      (s.parse source line).2.context = s.context ∧
      (s.parse source line).2.reporter.messages =
        s.reporter.messages ++ Failure.reportsOf (Line.parse source line) ∧
      ∀ f, Line.parse source line = .error f →
        ((Token.scan source line).errors ≠ [] ∧
          f.reports = (Token.scan source line).errors.map LexicalError.report) ∨
        ((Token.scan source line).errors = [] ∧
          ∃ e, Expr.ofTokens (Token.scan source line).tokens = .error e ∧
            f.reports = [e.report])) ∧
    (∀ (s : Session) (tree : Expr),
      let (outcome, c) := (tree.evalUpTo depth).run s.context
      (s.evalTree depth tree).1 = outcome.result.toOption ∧
      (s.evalTree depth tree).2.context = c ∧
      (s.evalTree depth tree).2.reporter.messages =
        s.reporter.messages ++ Failure.reportsOf outcome.result) ∧
    (∀ (s : Session) (source : String) (line : Nat),
      let flags := (s.run depth source line).2.reporter
      (flags.hadError = true ↔ ∃ f, Line.parse source line = .error f) ∧
      (flags.hadRuntimeError = true ↔ ∃ tree f, Line.parse source line = .ok tree ∧
        (treeResult depth s.context tree).1 = .error f) ∧
      ¬ (flags.hadError = true ∧ flags.hadRuntimeError = true)) ∧
    (∀ (xs : List Call) (s : Session),
      (calls depth xs s).1.map Reply.product =
        (results depth xs s.context).1.map Except.toOption ∧
      (calls depth xs s).2.context = (results depth xs s.context).2 ∧
      (calls depth xs s).1.flatMap Reply.taken ++ (calls depth xs s).2.reporter.messages =
        s.reporter.messages ++ (results depth xs s.context).1.flatMap Failure.reportsOf) := by
  refine ⟨fun s source line => ?_, fun s tree => ?_, fun s source line => ?_,
    calls_agree_results depth⟩
  · obtain ⟨htree, hcontext, hreporter⟩ := s.parse_agrees source line
    refine ⟨fun tree => ?_, hcontext, by rw [hreporter], fun f hf => ?_⟩
    · rw [htree]
      cases Line.parse source line <;> simp [Except.toOption]
    · obtain ⟨herrors, rfl⟩ | ⟨herrors, e, he, rfl⟩ := Line.parse_error_cases hf
      · exact .inl ⟨herrors, rfl⟩
      · exact .inr ⟨herrors, e, he, rfl⟩
  · obtain ⟨hvalue, hcontext, hreporter⟩ := s.evalTree_agrees depth tree
    exact ⟨hvalue, hcontext, by rw [hreporter]; rfl⟩
  · obtain ⟨herror, hruntime⟩ := s.flags_run depth source line
    refine ⟨herror, hruntime, fun ⟨h, h'⟩ => ?_⟩
    obtain ⟨f, hf⟩ := herror.mp h
    obtain ⟨tree, -, htree, -⟩ := hruntime.mp h'
    rw [hf] at htree
    cases htree

end Session

end LetLang
