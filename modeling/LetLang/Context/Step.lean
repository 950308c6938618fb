import LetLang.Line

/-!
# Steps on a context

A script of operations on a context, each with its answer and the values that it printed. A scope is
a step with steps inside it: the variables that these bind are removed when the scope ends, one
definition for each time a name was bound, and the last bound first.
-/

namespace LetLang.Context

/-! ### What a context knows -/

/-- What a context knows about a name and a number of arguments. -/
structure NameInfo where
  isBound : Bool
  isBuiltin : Bool
  isFunction : Bool
  hasOverload : Bool
  arities : List Nat
  function : Option Function

/-- The parameters of the function, if there is one. -/
def NameInfo.parameters (i : NameInfo) : Option (List String) := i.function.map Function.params

/-- The body of the function, if there is one. -/
def NameInfo.body (i : NameInfo) : Option Expr := i.function.map Function.body

/-- What a context knows about a name and a number of arguments. -/
def info (c : Context) (name : String) (arity : Nat) : NameInfo where
  isBound := c.isBound name
  isBuiltin := Builtin.isBuiltin name arity
  isFunction := c.functions.isFunction name
  hasOverload := c.functions.hasOverload name arity
  arities := c.functions.arities name
  function := c.functions.find? name arity

/-! ### Steps -/

/-- An operation on a context. -/
inductive Step where
  | evaluate (source : String)
  | eval (tree : Expr)
  | define (name : String) (value : Value)
  | remove (name : String)
  | lookup (name : String) (line : Nat)
  | declare (function : Function)
  | query (name : String) (arity : Nat)
  /-- Calls the built-in function with the given name and arity; the number of arguments may differ.
  -/
  | builtin (name : String) (arity : Nat) (args : List Value) (line : Nat)
  /-- Defines a variable until the scope around the step ends. -/
  | bind (name : String) (value : Value)
  | scope (steps : List Step)

/-- What an operation gives back. -/
inductive Answer where
  | done
  | value (v : Value)
  | failed (f : Failure)
  /-- There is no such built-in function. -/
  | absent
  | info (i : NameInfo)

namespace Answer

/-- The answer for the end of an evaluation. -/
def ofOutcome : Outcome Value → Answer
  | .value v => value v
  | .error e => failed (.runtime e)
  | .tooDeep => failed .tooDeep

/-- The answer for a line of source. -/
def ofLine : Except Failure Value → Answer
  | .ok v => value v
  | .error f => failed f

/-- The answer for a value that may be missing. -/
def ofLookup : Except RuntimeError Value → Answer
  | .ok v => value v
  | .error e => failed (.runtime e)

end Answer

/-- A context inside a scope, with the names that the scope has bound so far, the last bound first.
-/
structure Frame where
  context : Context
  bound : List String := []

/-- The answer of a step and the values that it printed. -/
structure Record where
  answer : Answer
  printed : List Value := []

/-- The record of a step that leads from one context to another. -/
def record (answer : Answer) (before after : Context) : Record :=
  ⟨answer, after.sink.since before.sink.written.size⟩

/-- A step that changes the context of a frame, with its record. -/
def Frame.move (f : Frame) (answer : Answer) (after : Context) : List Record × Frame :=
  ([record answer f.context after], { f with context := after })

/-- Declares a function, and answers with what stands against it. -/
def declareStep (c : Context) (function : Function) : Answer × Context :=
  match c.declare function with
  | .ok c' => (.done, c')
  | .error e => (.failed (.runtime e), c)

/-- Calls a built-in function, if there is one with the given name and arity. -/
def builtinStep (c : Context) (name : String) (arity : Nat) (args : List Value) (line : Nat) :
    Answer × Context :=
  match Builtin.find? name arity with
  | some b =>
    let (outcome, c') := (b.run args line).run c
    (.ofOutcome outcome, c')
  | none => (.absent, c)

mutual

/-- Runs a step. The steps inside a scope have their records before that of the scope. At most
`depth` calls may be open at the same time. -/
def runStep (depth : Nat) : Step → Frame → List Record × Frame
  | .evaluate source, f =>
    let (result, c) := Line.evaluate depth source f.context
    f.move (.ofLine result) c
  | .eval tree, f =>
    let (outcome, c) := (tree.evalUpTo depth).run f.context
    f.move (.ofOutcome outcome) c
  | .define name v, f => f.move .done (f.context.define name v)
  | .remove name, f => f.move .done (f.context.remove name)
  | .lookup name line, f => f.move (.ofLookup (f.context.lookup name line)) f.context
  | .declare function, f =>
    let (answer, c) := declareStep f.context function
    f.move answer c
  | .query name arity, f => f.move (.info (f.context.info name arity)) f.context
  | .builtin name arity args line, f =>
    let (answer, c) := builtinStep f.context name arity args line
    f.move answer c
  | .bind name v, f =>
    ([⟨.done, []⟩], { context := f.context.define name v, bound := name :: f.bound })
  | .scope steps, f =>
    let (records, inner) := runSteps depth steps { context := f.context }
    (records ++ [⟨.done, []⟩], { f with context := inner.context.removeAll inner.bound })

/-- Runs the steps of a list, one after the other. -/
def runSteps (depth : Nat) : List Step → Frame → List Record × Frame
  | [], f => ([], f)
  | step :: steps, f =>
    let (records, f') := runStep depth step f
    let (more, f'') := runSteps depth steps f'
    (records ++ more, f'')

end

end LetLang.Context
