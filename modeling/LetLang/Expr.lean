import LetLang.Operator

/-!
# Expressions

The trees of the language. A declaration of a function is a tree too, so it may stand wherever an
expression may, although a source text only has it as a whole statement.
-/

namespace LetLang

/-- A value written in the source. -/
inductive Literal where
  | number (value : Float)
  | quoted (value : String)
  | bool (value : Bool)
deriving DecidableEq

/-- A name that a `let` binds, with what it is bound to and the line it stands on. -/
structure Binding (α : Type) where
  name : String
  value : α
  line : Nat
deriving DecidableEq

/-- An expression. Each node carries the line that an error at it is reported on. -/
inductive Expr where
  | literal (value : Literal) (line : Nat)
  | unary (op : UnaryOp) (operand : Expr) (line : Nat)
  | binary (op : BinaryOp) (left right : Expr) (line : Nat)
  | conditional (condition onTrue onFalse : Expr) (line : Nat)
  | var (name : String) (line : Nat)
  | letIn (bindings : List (Binding Expr)) (body : Expr) (line : Nat)
  | function (name : String) (params : List String) (body : Expr) (line : Nat)
  | call (name : String) (args : List Expr) (line : Nat)

namespace Expr

/-- The line of the root of a tree. -/
def line : Expr → Nat
  | literal _ n | unary _ _ n | binary _ _ _ n | conditional _ _ _ n | var _ n | letIn _ _ n
  | function _ _ _ n | call _ _ n => n

end Expr

end LetLang
