import LetLang.Context.Step
import LetLang.Session

/-!
# Steps on a session

A script of operations on a session. The tree of the last line that was parsed on its own is kept,
so that it can be evaluated later, any number of times.
-/

namespace LetLang.Session

/-- An operation on a session. -/
inductive Step where
  | run (source : String) (line : Nat)
  | parse (source : String) (line : Nat)
  /-- Evaluates the tree that is kept. -/
  | eval
  | take
  | resetError
  | resetRuntimeError
  | query (name : String) (arity : Nat)

/-- What an operation gives back. -/
inductive Answer where
  | done
  | value (v : Option Value)
  | tree (e : Option Expr)
  /-- No tree is kept. -/
  | noTree
  | taken (messages : List String)
  | info (i : Context.NameInfo)

/-- A session with the tree that is kept. -/
structure Desk where
  session : Session := {}
  kept : Option Expr := none

/-- The answer of a step, the values it printed, the messages it added, and what the session reports
after it. -/
structure Record where
  answer : Answer
  printed : List Value
  added : List String
  pending : Nat
  hadError : Bool
  hadRuntimeError : Bool

/-- The answer of a step and the desk after it. -/
def act (depth : Nat) (d : Desk) : Step → Answer × Desk
  | .run source line =>
    let (v, s) := d.session.run depth source line
    (.value v, { d with session := s })
  | .parse source line =>
    let (tree, s) := d.session.parse source line
    (.tree tree, ⟨s, tree⟩)
  | .eval =>
    match d.kept with
    | some tree =>
      let (v, s) := d.session.evalTree depth tree
      (.value v, { d with session := s })
    | none => (.noTree, d)
  | .take =>
    let (messages, s) := d.session.take
    (.taken messages, { d with session := s })
  | .resetError =>
    (.done, { d with session.reporter := d.session.reporter.resetError })
  | .resetRuntimeError =>
    (.done, { d with session.reporter := d.session.reporter.resetRuntimeError })
  | .query name arity => (.info (d.session.context.info name arity), d)

/-- The record of a step that leads from one session to another. -/
def record (answer : Answer) (before after : Session) : Record where
  answer := answer
  printed := after.context.sink.since before.context.sink.written.size
  added := after.reporter.messages.drop before.reporter.messages.length
  pending := after.reporter.messages.length
  hadError := after.reporter.hadError
  hadRuntimeError := after.reporter.hadRuntimeError

/-- Runs the steps of a list, one after the other. -/
def runSteps (depth : Nat) : List Step → Desk → List Record × Desk
  | [], d => ([], d)
  | step :: steps, d =>
    let (answer, d') := act depth d step
    let (more, d'') := runSteps depth steps d'
    (record answer d.session d'.session :: more, d'')

end LetLang.Session
