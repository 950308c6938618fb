import LetLang.Eval.Expr
import LetLang.Expr.Read
import LetLang.Failure
import LetLang.Token.Scan

/-!
# Lines of source

A line of source is one statement. `Line.parse` gives its tree and `Line.evaluate` its value; each
fails with all the lexical errors of the line, or else with the first error of a later stage.
-/

namespace LetLang.Line

/-- The tree of a line of source with the number `line`. -/
def parse (source : String) (line : Nat) : Except Failure Expr :=
  let scanned := Token.scan source line
  if scanned.errors.isEmpty then
    match Expr.ofTokens scanned.tokens with
    | .ok e => .ok e
    | .error e => .error (.syntactic e)
  else .error (.lexical scanned.errors)

/-- The value of a line of source in a context, and the context that its evaluation leaves. At most
`depth` calls may be open at the same time. -/
def evaluate (depth : Nat) (source : String) (c : Context) : Except Failure Value × Context :=
  match parse source 1 with
  | .error e => (.error e, c)
  | .ok tree =>
    match (tree.evalUpTo depth).run c with
    | (.value v, c') => (.ok v, c')
    | (.error e, c') => (.error (.runtime e), c')
    | (.tooDeep, c') => (.error .tooDeep, c')

end LetLang.Line
