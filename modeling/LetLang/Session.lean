import LetLang.Line

/-!
# Sessions

A session runs lines of source in one context. It collects a message for each error and remembers
whether the last line had an error of syntax or of evaluation.
-/

namespace LetLang

/-- The messages of a session, the oldest first, and two flags for the kind of errors reported. -/
structure Reporter where
  messages : List String := []
  hadError : Bool := false
  hadRuntimeError : Bool := false
deriving Repr, DecidableEq

namespace Reporter

/-- Adds a message about the text of a line. -/
def error (r : Reporter) (message : String) : Reporter :=
  { r with messages := r.messages ++ [message], hadError := true }

/-- Adds a message about the evaluation of a line. -/
def runtimeError (r : Reporter) (message : String) : Reporter :=
  { r with messages := r.messages ++ [message], hadRuntimeError := true }

/-- Forgets errors in the text of a line. -/
def resetError (r : Reporter) : Reporter := { r with hadError := false }

/-- Forgets errors in the evaluation of a line. -/
def resetRuntimeError (r : Reporter) : Reporter := { r with hadRuntimeError := false }

/-- Reports lexical errors, in order. -/
def lexicalErrors (r : Reporter) (errors : List LexicalError) : Reporter :=
  errors.foldl (fun r e => r.error e.report) r

/-- The reporter without its messages. -/
def clear (r : Reporter) : Reporter := { r with messages := [] }

end Reporter

/-- A context with a reporter. -/
structure Session where
  context : Context := {}
  reporter : Reporter := {}

namespace Session

/-- Parses a line of source with the number `line`, and reports its errors. The flags tell about
this line only. -/
def parse (s : Session) (source : String) (line : Nat) : Option Expr × Session :=
  let scanned := Token.scan source line
  let r := s.reporter.resetError.resetRuntimeError.lexicalErrors scanned.errors
  if r.hadError then (none, { s with reporter := r })
  else
    match Expr.ofTokens scanned.tokens with
    | .ok tree => (some tree, { s with reporter := r })
    | .error e => (none, { s with reporter := r.error e.report })

/-- Evaluates a tree, and reports its error. At most `depth` calls may be open at the same time. -/
def evalTree (depth : Nat) (s : Session) (tree : Expr) : Option Value × Session :=
  match (tree.evalUpTo depth).run s.context with
  | (.value v, c) => (some v, { s with context := c })
  | (.error e, c) => (none, ⟨c, s.reporter.runtimeError e.report⟩)
  | (.tooDeep, c) => (none, ⟨c, s.reporter.runtimeError Failure.tooDeepReport⟩)

/-- Parses and evaluates a line of source with the number `line`. -/
def run (depth : Nat) (s : Session) (source : String) (line : Nat) : Option Value × Session :=
  match s.parse source line with
  | (some tree, s') => s'.evalTree depth tree
  | (none, s') => (none, s')

/-- The messages so far, which the session then forgets. -/
def take (s : Session) : List String × Session :=
  (s.reporter.messages, { s with reporter := s.reporter.clear })

end Session

end LetLang
