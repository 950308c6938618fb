import LetLang.Builtin
import LetLang.Command
import LetLang.Command.Options
import LetLang.Context
import LetLang.Context.Functions
import LetLang.Context.Random
import LetLang.Context.Sink
import LetLang.Context.Step
import LetLang.Context.Variables
import LetLang.Decimal
import LetLang.Double
import LetLang.Eval
import LetLang.Eval.Builtin
import LetLang.Eval.Expr
import LetLang.Expr
import LetLang.Expr.Read
import LetLang.Expr.Text
import LetLang.Failure
import LetLang.Line
import LetLang.Main
import LetLang.Operator
import LetLang.Position
import LetLang.Proofs.Command.Modes
import LetLang.Proofs.Context
import LetLang.Proofs.Context.OverloadMaps
import LetLang.Proofs.Context.Overloads
import LetLang.Proofs.Context.Runs
import LetLang.Proofs.Context.Scopes
import LetLang.Proofs.Context.Sinks
import LetLang.Proofs.Context.Stacks
import LetLang.Proofs.Decimal
import LetLang.Proofs.Double.Bits
import LetLang.Proofs.Double.Nearest
import LetLang.Proofs.Eval.Environment
import LetLang.Proofs.Eval.Errors
import LetLang.Proofs.Eval.Frames
import LetLang.Proofs.Eval.Invariant
import LetLang.Proofs.Eval.Lookups
import LetLang.Proofs.Eval.MapLines
import LetLang.Proofs.Eval.MoreFunctions
import LetLang.Proofs.Eval.Nested
import LetLang.Proofs.Eval.Nil
import LetLang.Proofs.Eval.Refinement
import LetLang.Proofs.Eval.Relational
import LetLang.Proofs.Eval.Restore
import LetLang.Proofs.Eval.Termination
import LetLang.Proofs.Eval.Uniform
import LetLang.Proofs.Eval.Unmentioned
import LetLang.Proofs.Eval.WithPrints
import LetLang.Proofs.Expr.Completeness
import LetLang.Proofs.Expr.Declaration
import LetLang.Proofs.Expr.FirstError
import LetLang.Proofs.Expr.Follows
import LetLang.Proofs.Expr.Grammar
import LetLang.Proofs.Expr.Lookahead
import LetLang.Proofs.Expr.MapLines
import LetLang.Proofs.Expr.Precedence
import LetLang.Proofs.Expr.Printed
import LetLang.Proofs.Expr.Read
import LetLang.Proofs.Expr.Recursion
import LetLang.Proofs.Expr.Statement
import LetLang.Proofs.Expr.Subtrees
import LetLang.Proofs.Expr.Unambiguous
import LetLang.Proofs.Expr.WellFormed
import LetLang.Proofs.Expr.Written
import LetLang.Proofs.Line
import LetLang.Proofs.Line.FirstError
import LetLang.Proofs.Line.MapLines
import LetLang.Proofs.Line.Numbers
import LetLang.Proofs.Line.Printed
import LetLang.Proofs.Line.Written
import LetLang.Proofs.Reader
import LetLang.Proofs.Reader.Follows
import LetLang.Proofs.Reader.Reads
import LetLang.Proofs.Session
import LetLang.Proofs.Session.Calls
import LetLang.Proofs.Session.Nil
import LetLang.Proofs.Text.Lines
import LetLang.Proofs.Token.Lexeme
import LetLang.Proofs.Token.Munch
import LetLang.Proofs.Token.Newline
import LetLang.Proofs.Token.Places
import LetLang.Proofs.Token.Positions
import LetLang.Proofs.Token.Quoted
import LetLang.Proofs.Token.Reading
import LetLang.Proofs.Token.Spelling
import LetLang.Reader
import LetLang.Session
import LetLang.Session.Step
import LetLang.Text.Lines
import LetLang.Token
import LetLang.Token.LineIndex
import LetLang.Token.Scan
import LetLang.Value
