import LetLang.Reader
import LetLang.Value

/-!
# Failures

Each error has two texts: `message`, a full sentence with the place of the error, and `report`, the
line that a session collects and the console shows.
-/

namespace LetLang

/-- The sentence for an error at a place of the source. -/
def placedMessage (p : Position) (wording found : String) : String :=
  let line := p.line
  let column := p.column
  s!"Error on line {line}, column {column}: {wording} Found '{found}'."

namespace LexicalError

/-- The sentence for a lexical error. -/
def message (e : LexicalError) : String := placedMessage e.position e.fault.message e.lexeme

/-- The console line for a lexical error. -/
def report (e : LexicalError) : String :=
  let line := e.position.line
  let column := e.position.column
  let lexeme := e.lexeme
  let wording := e.fault.message
  s!"! LEXICAL ERROR [{line}:{column}] at '{lexeme}': {wording}"

end LexicalError

namespace SyntaxError

/-- The sentence for a syntax error. -/
def message (e : SyntaxError) : String := placedMessage e.position e.fault.message e.found

/-- Where a syntax error is, in words. -/
def place (e : SyntaxError) : String :=
  if e.isAtEnd then "at end" else "at '" ++ e.found ++ "'"

/-- The console line for a syntax error. -/
def report (e : SyntaxError) : String :=
  let line := e.position.line
  let column := e.position.column
  let place := e.place
  let wording := e.fault.message
  s!"! SYNTAX ERROR [{line}:{column}] {place}: {wording}"

end SyntaxError

namespace RuntimeError

/-- The sentence for a runtime error. -/
def message (e : RuntimeError) : String :=
  let line := e.line
  let token := e.token
  let wording := e.fault.message
  s!"Error on line {line}: `{token}` {wording}"

/-- The console line for a runtime error. -/
def report (e : RuntimeError) : String :=
  let token := e.token
  let wording := e.fault.message
  s!"! SEMANTIC ERROR: `{token}` {wording}"

end RuntimeError

/-- Why a line of source has no value. -/
inductive Failure where
  | lexical (errors : List LexicalError)
  | syntactic (error : SyntaxError)
  | runtime (error : RuntimeError)
  /-- More calls would have to be open than are allowed. -/
  | tooDeep
deriving Repr, DecidableEq

namespace Failure

/-- The console line for an evaluation with too many open calls. -/
def tooDeepReport : String := "! TOO MANY NESTED CALLS"

/-- The sentences for a failure, one for each error. -/
def message : Failure → String
  | lexical errors => "\n".intercalate (errors.map LexicalError.message)
  | syntactic e => e.message
  | runtime e => e.message
  | tooDeep => tooDeepReport

/-- The console lines for a failure, one for each error. -/
def reports : Failure → List String
  | lexical errors => errors.map LexicalError.report
  | syntactic e => [e.report]
  | runtime e => [e.report]
  | tooDeep => [tooDeepReport]

end Failure

end LetLang
