import LetLang.Expr
import LetLang.Reader

/-!
# Reading expressions

The grammar of the language as readers of tokens. A production is given readers for its parts, such
as a reader `nested` for the expressions inside the one that it reads. Loops then tie them together.
An expression inside another one comes after at least one token of the outer one, so `expression`
is a loop as well.
-/

namespace LetLang.Expr

open Reader

/-! ### Operands -/

/-- The literal that a token of the given kind stands for, if there is one. -/
def literalOf? : Token.Kind → Option Literal
  | .number x => some (.number x)
  | .quoted s => some (.quoted s)
  | .keyword .true_ => some (.bool true)
  | .keyword .false_ => some (.bool false)
  | .keyword .pi => some (.number 3.141592653589793)
  | .keyword .euler => some (.number 2.718281828459045)
  | _ => none

/-- Reads what follows a name at `line`: the arguments of a call, or nothing for a variable. -/
def readNamed (arguments : Reader (List Expr)) (name : String) (line : Nat) : Reader Expr := do
  if ← hasSymbol .leftParen then
    let args ← toParen arguments "Expected ',' or ')' after argument."
    return .call name args line
  else
    return .var name line

/-- Reads a group in parentheses, a call, a variable or a literal. -/
def readPrimary (nested : Reader Expr) (arguments : Reader (List Expr)) : Reader Expr := do
  if ← hasSymbol .leftParen then
    let inner ← nested
    symbol .rightParen "Expected ')' after expression."
    return inner
  match ← take? Token.Kind.identifier? with
  | some (name, t) => readNamed arguments name t.line
  | none =>
    let (value, t) ← take literalOf? "Expected expression."
    return .literal value t.line

/-- Reads a unary operator and the operand after it, or else what `primary` reads. -/
def readSigned (primary operand : Reader Expr) : Reader Expr := do
  match ← take? Token.Kind.unaryOp? with
  | some (op, t) => return .unary op (← operand) t.line
  | none => primary

/-- Reads what `primary` reads with the unary operators before it. -/
def readUnary (primary : Reader Expr) : Reader Expr := loop (readSigned primary)

/-! ### Binary operators -/

/-- The binary operator of the given rank that a token stands for, if there is one. -/
def binaryOfRank? (rank : Nat) (kind : Token.Kind) : Option BinaryOp :=
  kind.binaryOp?.filter (·.rank = rank)

/-- Reads an operator of the given rank and the operand after it, joins them to the operand `left`
and goes on with `more`; or else reads nothing. -/
def readJoined (operand : Reader Expr) (rank : Nat) (more : Expr → Reader Expr) (left : Expr) :
    Reader Expr := do
  match ← take? (binaryOfRank? rank) with
  | some (op, t) =>
    let right ← operand
    more (.binary op left right t.line)
  | none => return left

/-- Reads operators of one rank, each with the operand after it, and groups them to the left,
starting with `left`. -/
def readTail (operand : Reader Expr) (rank : Nat) (left : Expr) : Reader Expr :=
  loopFrom (readJoined operand rank) left

/-- Reads an operand and then what follows it. -/
def readChain (operand : Reader Expr) (tail : Expr → Reader Expr) : Reader Expr := do
  tail (← operand)

/-- Reads unary operands with binary operators of rank less than `k` between them. -/
def readBinary (nested : Reader Expr) : Nat → Reader Expr
  | 0 => readUnary (readPrimary nested (items nested))
  | k + 1 => readChain (readBinary nested k) (readTail (readBinary nested k) k)

/-! ### Expressions -/

/-- Reads one binding of a `let`. -/
def readBinding (nested : Reader Expr) : Reader (Binding Expr) := do
  let (name, t) ← take Token.Kind.identifier? "Expected variable name in 'let'."
  symbol .equal "Expected '=' after variable name."
  let value ← nested
  return ⟨name, value, t.line⟩

/-- Reads what follows the keyword of a `let` at `line`. -/
def readLet (bindings : Reader (List (Binding Expr))) (nested : Reader Expr) (line : Nat) :
    Reader Expr := do
  let bs ← bindings
  let _ ← keyword .in_ "Expected 'in' after 'let' bindings."
  let body ← nested
  return .letIn bs body line

/-- Reads what follows the keyword of an `if` at `line`. -/
def readIf (nested : Reader Expr) (line : Nat) : Reader Expr := do
  symbol .leftParen "Expected '(' after 'if'."
  let condition ← nested
  symbol .rightParen "Expected ')' after if condition."
  let onTrue ← nested
  let _ ← keyword .else_ "Expected 'else' after if branch."
  let onFalse ← nested
  return .conditional condition onTrue onFalse line

/-- Reads an `if`, or operands with binary operators. -/
def readConditional (nested operands : Reader Expr) : Reader Expr := do
  match ← keywordLine? .if_ with
  | some line => readIf nested line
  | none => operands

/-- Reads a `let`, or a conditional. -/
def readExpression (bindings : Reader (List (Binding Expr))) (nested conditional : Reader Expr) :
    Reader Expr := do
  match ← keywordLine? .let_ with
  | some line => readLet bindings nested line
  | none => conditional

/-- Reads any expression, given how to read those inside it. -/
def readAround (nested : Reader Expr) : Reader Expr :=
  readExpression (items (readBinding nested)) nested
    (readConditional nested (readBinary nested BinaryOp.rankCount))

/-- Reads an expression. -/
def expression : Reader Expr := loop readAround

/-- Reads a group in parentheses, a call, a variable or a literal. -/
def primaryLevel : Reader Expr := readPrimary expression (items expression)

/-- Reads operands with binary operators of rank less than `k` between them. -/
def binaryLevel (k : Nat) : Reader Expr := readBinary expression k

/-- Reads an `if`, or operands with binary operators. -/
def conditionalLevel : Reader Expr := readConditional expression (binaryLevel BinaryOp.rankCount)

/-! ### Statements -/

/-- The first of the named tokens whose name is in `seen` or was the name of an earlier one. -/
def firstRepeated? (seen : List String) : List (String × Token) → Option (String × Token)
  | [] => none
  | (name, t) :: more =>
    if name ∈ seen then some (name, t) else firstRepeated? (name :: seen) more

/-- Stops at the first parameter of a function that repeats an earlier one. -/
def checkDistinct (function : String) (params : List (String × Token)) : Reader Unit :=
  match firstRepeated? [] params with
  | some (name, t) => throw ⟨.duplicateParameter name function, t.lexeme, t.position⟩
  | none => return ()

/-- Reads the name of a parameter. -/
def parameter : Reader (String × Token) := take Token.Kind.identifier? "Expected parameter name."

/-- Reads the declaration of a function up to the parenthesis that closes its parameters. Gives its
line, its name and its parameters. -/
def readHead (parameters : Reader (List (String × Token))) :
    Reader (Nat × String × List (String × Token)) := do
  let line ← keyword .function "Expected 'function'."
  let (name, _) ← take Token.Kind.identifier? "Expected function name after 'function'."
  symbol .leftParen "Expected '(' after function name."
  let params ← toParen parameters "Expected ',' or ')' after parameter."
  return (line, name, params)

/-- Reads what follows the parameters of a function. -/
def readBody (nested : Reader Expr) (line : Nat) (name : String) (params : List (String × Token)) :
    Reader Expr := do
  symbol .arrow "Expected '=>' after parameters."
  let body ← nested
  return .function name (params.map Prod.fst) body line

/-- Reads the declaration of a function, given how to read its parameters and its body. -/
def readDeclaration (parameters : Reader (List (String × Token))) (nested : Reader Expr) :
    Reader Expr := do
  let (line, name, params) ← readHead parameters
  checkDistinct name params
  readBody nested line name params

/-- Reads the declaration of a function. -/
def declaration : Reader Expr := readDeclaration (items parameter) expression

/-- Whether the next token is the keyword of a declaration. -/
def startsDeclaration : Reader Bool := do
  return ((← peek?).bind fun t => t.kind.keyword? .function).isSome

/-- Reads the semicolon that ends a statement. -/
def readSemicolon : Reader Unit := do
  if ← hasSymbol .semicolon then return () else failWith .missingSemicolon

/-- Stops unless there are no tokens left before the end of the input. -/
def checkEnd : Reader Unit := do
  match ← peek? with
  | none => return ()
  | some t => if t.kind.isEnd then return () else failWith .trailingTokens

/-- Reads the semicolon after a statement, and checks that nothing else comes after it. -/
def endStatement (e : Expr) : Reader Expr := do
  readSemicolon
  checkEnd
  return e

/-- Reads a statement: the declaration of a function or an expression, then a semicolon, and then
nothing more. -/
def readStatement (declaration nested : Reader Expr) : Reader Expr := do
  let e ← if ← startsDeclaration then declaration else nested
  endStatement e

/-- Reads a statement. -/
def statement : Reader Expr := readStatement declaration expression

/-- The tree of a list of tokens that is one statement. -/
def ofTokens (ts : List Token) : Except SyntaxError Expr := (statement.run ts).1

end LetLang.Expr
