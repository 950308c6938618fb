import LetLang.Expr

/-!
# The grammar of statements

The grammar as a type of derivation trees. A derivation has a `yield`, the tokens at its leaves, and
a `meaning`, the tree that it stands for. Its productions, with the binary levels from the tightest
to the loosest counted from one:

* an expression is `let` bindings `in` an expression, or a conditional;
* bindings are one or more of `name = expression`, with commas between them;
* a conditional is `if` `(` expression `)` expression `else` expression, or the loosest level;
* level `k + 1` is an operand of level `k`, and any number of times a sign of rank `k` and another
  operand of level `k`; these group to the left;
* level zero is a unary sign before level zero, or a grouping;
* a grouping is `(` expression `)`, or a call;
* a call is a name before `(` arguments `)`, or a literal;
* arguments are expressions with commas between them, and there may be none;
* a literal is a number, a quoted text, `true`, `false`, `PI`, `E` or a name.

A statement is an expression, or `function`, a name, names in parentheses, `=>` and an expression.
-/

namespace LetLang.Grammar

/-! ### Leaves -/

/-- A token of the given kind. -/
structure Terminal (kind : Token.Kind) where
  token : Token
  kind_eq : token.kind = kind

/-- A token that is a name. -/
structure Name where
  token : Token
  name : String
  kind_eq : token.kind = .identifier name

/-- A token that is the sign of a unary operator. -/
structure UnarySign where
  token : Token
  op : UnaryOp
  kind_eq : token.kind = .symbol op.symbol

/-- The binary operators that share a level, the tightest first. -/
def operators : Nat → List BinaryOp
  | 0 => [.power]
  | 1 => [.multiply, .divide, .remainder]
  | 2 => [.add, .subtract, .concat]
  | 3 => [.less, .lessEqual, .greater, .greaterEqual]
  | 4 => [.equal, .notEqual]
  | 5 => [.and]
  | 6 => [.or]
  | _ => []

/-- A token that is the sign of a binary operator of the given rank. -/
structure BinarySign (k : Nat) where
  token : Token
  op : BinaryOp
  kind_eq : token.kind = .symbol op.symbol
  mem_operators : op ∈ operators k

/-- The value that a token of a kind denotes. -/
inductive Denotes : Token.Kind → Literal → Prop
  | number (x : Float) : Denotes (.number x) (.number x)
  | quoted (s : String) : Denotes (.quoted s) (.quoted s)
  | true_ : Denotes (.keyword .true_) (.bool true)
  | false_ : Denotes (.keyword .false_) (.bool false)
  | pi : Denotes (.keyword .pi) (.number 3.141592653589793)
  | euler : Denotes (.keyword .euler) (.number 2.718281828459045)

/-- A token that denotes a value. -/
structure Constant where
  token : Token
  value : Literal
  denotes : Denotes token.kind value

/-! ### Derivations -/

/-- What a derivation is of. -/
inductive Nonterminal where
  | expression
  | bindings
  | binding
  | conditional
  | level (k : Nat)
  /-- What follows the first operand of level `k + 1`. -/
  | tail (k : Nat)
  | grouping
  | call
  | arguments
  | literal

/-- What a derivation stands for. The tail of a level turns the operand before it into a tree. -/
abbrev Meaning : Nonterminal → Type
  | .bindings => List (Binding Expr)
  | .binding => Binding Expr
  | .tail _ => Expr → Expr
  | .arguments => List Expr
  | .expression | .conditional | .level _ | .grouping | .call | .literal => Expr

/-- The derivations of the grammar, one constructor for each production. -/
inductive Derivation : Nonterminal → Type
  | letIn (keyword : Terminal (.keyword .let_)) (bindings : Derivation .bindings)
    (separator : Terminal (.keyword .in_)) (body : Derivation .expression) :
    Derivation .expression
  | noLet (conditional : Derivation .conditional) : Derivation .expression
  | lastBinding (binding : Derivation .binding) : Derivation .bindings
  | moreBindings (binding : Derivation .binding) (comma : Terminal (.symbol .comma))
    (bindings : Derivation .bindings) : Derivation .bindings
  | binding (name : Name) (sign : Terminal (.symbol .equal)) (value : Derivation .expression) :
    Derivation .binding
  | ifElse (keyword : Terminal (.keyword .if_)) (left : Terminal (.symbol .leftParen))
    (condition : Derivation .expression) (right : Terminal (.symbol .rightParen))
    (onTrue : Derivation .expression) (separator : Terminal (.keyword .else_))
    (onFalse : Derivation .expression) : Derivation .conditional
  | noIf (operands : Derivation (.level 7)) : Derivation .conditional
  | chain {k : Nat} (first : Derivation (.level k)) (tail : Derivation (.tail k)) :
    Derivation (.level (k + 1))
  | endTail {k : Nat} : Derivation (.tail k)
  | moreTail {k : Nat} (sign : BinarySign k) (operand : Derivation (.level k))
    (tail : Derivation (.tail k)) : Derivation (.tail k)
  | unary (sign : UnarySign) (operand : Derivation (.level 0)) : Derivation (.level 0)
  | noUnary (grouping : Derivation .grouping) : Derivation (.level 0)
  | group (left : Terminal (.symbol .leftParen)) (inner : Derivation .expression)
    (right : Terminal (.symbol .rightParen)) : Derivation .grouping
  | noGroup (call : Derivation .call) : Derivation .grouping
  | emptyCall (name : Name) (left : Terminal (.symbol .leftParen))
    (right : Terminal (.symbol .rightParen)) : Derivation .call
  | call (name : Name) (left : Terminal (.symbol .leftParen))
    (arguments : Derivation .arguments) (right : Terminal (.symbol .rightParen)) :
    Derivation .call
  | noCall (literal : Derivation .literal) : Derivation .call
  | lastArgument (argument : Derivation .expression) : Derivation .arguments
  | moreArguments (argument : Derivation .expression) (comma : Terminal (.symbol .comma))
    (arguments : Derivation .arguments) : Derivation .arguments
  | constant (constant : Constant) : Derivation .literal
  | var (name : Name) : Derivation .literal

namespace Derivation

/-- The tokens of a derivation, in order. -/
def yield : {n : Nonterminal} → Derivation n → List Token
  | _, letIn keyword bs separator body =>
    keyword.token :: (bs.yield ++ separator.token :: body.yield)
  | _, noLet d => d.yield
  | _, lastBinding b => b.yield
  | _, moreBindings b comma bs => b.yield ++ comma.token :: bs.yield
  | _, binding name sign value => name.token :: sign.token :: value.yield
  | _, ifElse keyword left condition right onTrue separator onFalse =>
    keyword.token :: left.token :: (condition.yield ++ right.token ::
      (onTrue.yield ++ separator.token :: onFalse.yield))
  | _, noIf d => d.yield
  | _, chain first tail => first.yield ++ tail.yield
  | _, endTail => []
  | _, moreTail sign operand tail => sign.token :: (operand.yield ++ tail.yield)
  | _, unary sign operand => sign.token :: operand.yield
  | _, noUnary d => d.yield
  | _, group left inner right => left.token :: (inner.yield ++ [right.token])
  | _, noGroup d => d.yield
  | _, emptyCall name left right => [name.token, left.token, right.token]
  | _, call name left args right => name.token :: left.token :: (args.yield ++ [right.token])
  | _, noCall d => d.yield
  | _, lastArgument arg => arg.yield
  | _, moreArguments arg comma args => arg.yield ++ comma.token :: args.yield
  | _, constant c => [c.token]
  | _, var name => [name.token]

/-- What a derivation stands for. A node has the line of its sign or keyword, and otherwise that of
its first token. -/
def meaning : {n : Nonterminal} → Derivation n → Meaning n
  | _, letIn keyword bs _ body => .letIn bs.meaning body.meaning keyword.token.line
  | _, noLet d => d.meaning
  | _, lastBinding b => [b.meaning]
  | _, moreBindings b _ bs => b.meaning :: bs.meaning
  | _, binding name _ value => ⟨name.name, value.meaning, name.token.line⟩
  | _, ifElse keyword _ condition _ onTrue _ onFalse =>
    .conditional condition.meaning onTrue.meaning onFalse.meaning keyword.token.line
  | _, noIf d => d.meaning
  | _, chain first tail => tail.meaning first.meaning
  | _, endTail => fun left => left
  | _, moreTail sign operand tail => fun left =>
    tail.meaning (.binary sign.op left operand.meaning sign.token.line)
  | _, unary sign operand => .unary sign.op operand.meaning sign.token.line
  | _, noUnary d => d.meaning
  | _, group _ inner _ => inner.meaning
  | _, noGroup d => d.meaning
  | _, emptyCall name _ _ => .call name.name [] name.token.line
  | _, call name _ args _ => .call name.name args.meaning name.token.line
  | _, noCall d => d.meaning
  | _, lastArgument arg => [arg.meaning]
  | _, moreArguments arg _ args => arg.meaning :: args.meaning
  | _, constant c => .literal c.value c.token.line
  | _, var name => .var name.name name.token.line

/-- The operand of a level is an operand of all the looser ones. -/
theorem exists_level {k l : Nat} (d : Derivation (.level k)) (h : k ≤ l) :
    ∃ d' : Derivation (.level l), d'.yield = d.yield ∧ d'.meaning = d.meaning := by
  induction h with
  | refl => exact ⟨d, rfl, rfl⟩
  | step h ih =>
    obtain ⟨d', hyield, hmeaning⟩ := ih
    exact ⟨.chain d' .endTail, by rw [yield, yield, List.append_nil, hyield], hmeaning⟩

end Derivation

/-! ### Statements -/

/-- One or more names with commas between them. -/
inductive Parameters where
  | last (name : Name)
  | more (name : Name) (comma : Terminal (.symbol .comma)) (names : Parameters)

namespace Parameters

/-- The tokens of a list of parameters, in order. -/
def yield : Parameters → List Token
  | last name => [name.token]
  | more name comma names => name.token :: comma.token :: names.yield

/-- The tokens that are names. -/
def list : Parameters → List Name
  | last name => [name]
  | more name _ names => name :: names.list

end Parameters

/-- The derivations of a statement, without the semicolon. -/
inductive Statement where
  | function (keyword : Terminal (.keyword .function)) (name : Name)
    (left : Terminal (.symbol .leftParen)) (params : Option Parameters)
    (right : Terminal (.symbol .rightParen)) (arrow : Terminal (.symbol .arrow))
    (body : Derivation .expression)
  | expression (derivation : Derivation .expression)

namespace Statement

/-- The names of the parameters that may be missing. -/
def names (params : Option Parameters) : List String :=
  (params.elim [] Parameters.list).map Name.name

/-- The tokens of a statement, in order. -/
def yield : Statement → List Token
  | function keyword name left params right arrow body =>
    keyword.token :: name.token :: left.token :: (params.elim [] Parameters.yield ++
      right.token :: arrow.token :: body.yield)
  | expression derivation => derivation.yield

/-- The tree of a statement. -/
def tree : Statement → Expr
  | function keyword name _ params _ _ body =>
    .function name.name (names params) body.meaning keyword.token.line
  | expression derivation => derivation.meaning

/-- No two parameters of a declaration have the same name. -/
def Distinct : Statement → Prop
  | function _ _ _ params _ _ _ => (names params).Nodup
  | expression _ => True

end Statement

/-- The tokens `w` are a statement with the tree `t`, whose parameters are distinct if it is a
declaration. -/
def Derives (w : List Token) (t : Expr) : Prop :=
  ∃ s : Statement, s.yield = w ∧ s.tree = t ∧ s.Distinct

end LetLang.Grammar
