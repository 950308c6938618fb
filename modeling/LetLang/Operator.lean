import LetLang.Token

/-!
# Operators

The unary and binary operators, the symbols they are written with, and the rank that orders the
binary ones by how tightly they bind.
-/

namespace LetLang

/-- An operator before its operand. -/
inductive UnaryOp where
  | negate
  | not
deriving Repr, DecidableEq

namespace UnaryOp

/-- The symbol of the operator. -/
def symbol : UnaryOp → Symbol
  | negate => .minus
  | not => .bang

/-- The unary operator that is written with the given symbol, if there is one. -/
def ofSymbol? : Symbol → Option UnaryOp
  | .minus => some negate
  | .bang => some not
  | _ => none

@[simp]
theorem ofSymbol?_symbol (op : UnaryOp) : ofSymbol? op.symbol = some op := by
  cases op <;> rfl

theorem symbol_injective {a b : UnaryOp} (h : a.symbol = b.symbol) : a = b := by
  have hb := ofSymbol?_symbol b
  rw [← h, ofSymbol?_symbol] at hb
  exact Option.some.inj hb

end UnaryOp

/-- An operator between two operands. -/
inductive BinaryOp where
  | add
  | subtract
  | multiply
  | divide
  | remainder
  | power
  | concat
  | less
  | lessEqual
  | greater
  | greaterEqual
  | equal
  | notEqual
  | and
  | or
deriving Repr, DecidableEq

namespace BinaryOp

/-- The symbol of the operator. -/
def symbol : BinaryOp → Symbol
  | add => .plus
  | subtract => .minus
  | multiply => .star
  | divide => .slash
  | remainder => .percent
  | power => .caret
  | concat => .atSign
  | less => .less
  | lessEqual => .lessEqual
  | greater => .greater
  | greaterEqual => .greaterEqual
  | equal => .equalEqual
  | notEqual => .bangEqual
  | and => .ampersand
  | or => .pipe

/-- The binary operator that is written with the given symbol, if there is one. -/
def ofSymbol? : Symbol → Option BinaryOp
  | .plus => some add
  | .minus => some subtract
  | .star => some multiply
  | .slash => some divide
  | .percent => some remainder
  | .caret => some power
  | .atSign => some concat
  | .less => some less
  | .lessEqual => some lessEqual
  | .greater => some greater
  | .greaterEqual => some greaterEqual
  | .equalEqual => some equal
  | .bangEqual => some notEqual
  | .ampersand => some and
  | .pipe => some or
  | _ => none

@[simp]
theorem ofSymbol?_symbol (op : BinaryOp) : ofSymbol? op.symbol = some op := by
  cases op <;> rfl

theorem symbol_injective {a b : BinaryOp} (h : a.symbol = b.symbol) : a = b := by
  have hb := ofSymbol?_symbol b
  rw [← h, ofSymbol?_symbol] at hb
  exact Option.some.inj hb

/-- Operators of smaller rank bind more tightly; those of one rank group to the left. -/
def rank : BinaryOp → Nat
  | power => 0
  | multiply | divide | remainder => 1
  | add | subtract | concat => 2
  | less | lessEqual | greater | greaterEqual => 3
  | equal | notEqual => 4
  | and => 5
  | or => 6

/-- The number of ranks. -/
def rankCount : Nat := 7

theorem rank_lt_rankCount (op : BinaryOp) : op.rank < rankCount := by
  cases op <;> decide

end BinaryOp

/-- The binary operator that a token of the given kind stands for, if there is one. -/
def Token.Kind.binaryOp? : Token.Kind → Option BinaryOp
  | .symbol s => BinaryOp.ofSymbol? s
  | _ => none

/-- The unary operator that a token of the given kind stands for, if there is one. -/
def Token.Kind.unaryOp? : Token.Kind → Option UnaryOp
  | .symbol s => UnaryOp.ofSymbol? s
  | _ => none

end LetLang
