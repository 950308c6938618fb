import LetLang.Operator

/-!
# Readers of tokens

A `Reader` consumes tokens from the front of a list. It gives what it has read, or the syntax error
that stopped it, and in both cases the tokens that it has not consumed. A token that stops a reader
is never consumed.
-/

namespace LetLang

/-! ### Syntax errors -/

/-- What is wrong with a list of tokens that is no statement. -/
inductive SyntaxFault where
  /-- A token stands where something else was expected. -/
  | unexpectedToken (expected : String)
  /-- The input ends where something was expected. -/
  | unexpectedEnd (expected : String)
  | missingSemicolon
  | trailingTokens
  | duplicateParameter (name function : String)
deriving Repr, DecidableEq

/-- The wording of a syntax fault. -/
def SyntaxFault.message : SyntaxFault → String
  | unexpectedToken expected => expected
  | unexpectedEnd expected => expected
  | missingSemicolon => "Expected ';' at end of statement."
  | trailingTokens => "Unexpected tokens after ';'."
  | duplicateParameter name function =>
    s!"Duplicate parameter '{name}' in function '{function}'."

/-- A syntax fault, with the lexeme and the position of the token that was found. -/
structure SyntaxError where
  fault : SyntaxFault
  found : String
  position : Position
deriving Repr, DecidableEq

namespace SyntaxError

/-- Whether the error is at the end of the input, where there is no lexeme. -/
def isAtEnd (e : SyntaxError) : Bool := e.found.isEmpty

/-- The error for a fault at the first token that is left. Past the last token the lexeme is empty
and line and column are zero. -/
def atFirst (fault : SyntaxFault) : List Token → SyntaxError
  | [] => ⟨fault, "", ⟨0, 0⟩⟩
  | t :: _ => ⟨fault, t.lexeme, t.position⟩

end SyntaxError

namespace Token.Kind

/-- Whether the token stands at the end of the input. -/
def isEnd : Kind → Bool
  | .endOfInput => true
  | _ => false

/-- The name of an identifier. -/
def identifier? : Kind → Option String
  | .identifier name => some name
  | _ => none

/-- Recognises the keyword `k`. -/
def keyword? (k : Keyword) : Kind → Option Unit
  | .keyword k' => if k' = k then some () else none
  | _ => none

/-- Recognises the symbol `s`. -/
def symbol? (s : Symbol) : Kind → Option Unit
  | .symbol s' => if s' = s then some () else none
  | _ => none

end Token.Kind

/-- The fault of finding the first token that is left where something else was expected. -/
def SyntaxFault.unexpected (expected : String) : List Token → SyntaxFault
  | [] => .unexpectedEnd expected
  | t :: _ => if t.kind.isEnd then .unexpectedEnd expected else .unexpectedToken expected

/-! ### Readers -/

/-- Reads a part of a list of tokens, and leaves the others. -/
def Reader (α : Type) : Type := List Token → Except SyntaxError α × List Token

namespace Reader

/-- Runs a reader on a list of tokens. -/
def run (r : Reader α) (ts : List Token) : Except SyntaxError α × List Token := r ts

instance : Monad Reader where
  pure a := fun ts => (.ok a, ts)
  bind r f := fun ts =>
    match r ts with
    | (.ok a, rest) => f a rest
    | (.error e, rest) => (.error e, rest)

@[simp]
theorem run_pure (a : α) (ts : List Token) : (pure a : Reader α).run ts = (.ok a, ts) := rfl

theorem run_bind (r : Reader α) (f : α → Reader β) (ts : List Token) :
    (r >>= f).run ts =
      match r.run ts with
      | (.ok a, rest) => (f a).run rest
      | (.error e, rest) => (.error e, rest) := rfl

instance : LawfulMonad Reader :=
  LawfulMonad.mk' Reader
    (fun r => by
      funext ts
      show (match r.run ts with | (.ok a, rest) => _ | (.error e, rest) => _) = r.run ts
      rcases r.run ts with ⟨_ | _, _⟩ <;> rfl)
    (fun _ _ => rfl)
    (fun r f g => by
      funext ts
      show ((r >>= f) >>= g).run ts = (r >>= fun a => f a >>= g).run ts
      simp only [run_bind]
      rcases r.run ts with ⟨_ | _, _⟩ <;> rfl)

/-- Consumes nothing and stops with the given error. -/
def throw (e : SyntaxError) : Reader α := fun ts => (.error e, ts)

/-- Stops with a fault at the first token. -/
def failWith (fault : SyntaxFault) : Reader α := fun ts => (.error (.atFirst fault ts), ts)

/-- Stops because something else was expected at the first token. -/
def fail (expected : String) : Reader α := fun ts =>
  (.error (.atFirst (.unexpected expected ts) ts), ts)

/-- The first token, which stays where it is. -/
def peek? : Reader (Option Token) := fun ts => (.ok ts.head?, ts)

/-- Consumes the first token if `accept` takes its kind. -/
def take? (accept : Token.Kind → Option α) : Reader (Option (α × Token))
  | [] => (.ok none, [])
  | t :: ts =>
    match accept t.kind with
    | some a => (.ok (some (a, t)), ts)
    | none => (.ok none, t :: ts)

/-- Consumes the first token, whose kind `accept` must take. -/
def take (accept : Token.Kind → Option α) (expected : String) : Reader (α × Token) := do
  match ← take? accept with
  | some found => return found
  | none => fail expected

/-- Consumes the symbol `s`, which must come first. -/
def symbol (s : Symbol) (expected : String) : Reader Unit := do
  let _ ← take (Token.Kind.symbol? s) expected

/-- Consumes the keyword `k`, which must come first, and gives its line. -/
def keyword (k : Keyword) (expected : String) : Reader Nat := do
  let (_, t) ← take (Token.Kind.keyword? k) expected
  return t.line

/-- Consumes the symbol `s` if it comes first, and says whether it did. -/
def hasSymbol (s : Symbol) : Reader Bool := do
  return (← take? (Token.Kind.symbol? s)).isSome

/-- Consumes the keyword `k` if it comes first, and gives its line. -/
def keywordLine? (k : Keyword) : Reader (Option Nat) := do
  return (← take? (Token.Kind.keyword? k)).map fun (_, t) => t.line

/-! ### Loops -/

/-- At most `n` rounds of a loop. A round is given a reader for the rounds after it. -/
def loopUpTo (round : (ι → Reader α) → ι → Reader α) : Nat → ι → Reader α
  -- with enough rounds this is never run
  | 0, _ => fail ""
  | n + 1, i => round (loopUpTo round n) i

/-- A loop that carries a value along. A round consumes a token before it goes on to the next one,
so there are fewer rounds than allowed here: one for each token, and one more. -/
def loopFrom (round : (ι → Reader α) → ι → Reader α) (i : ι) : Reader α := fun ts =>
  loopUpTo round (ts.length + 1) i ts

/-- A loop that carries nothing along. -/
def loop (round : Reader α → Reader α) : Reader α :=
  loopFrom (fun more (_ : Unit) => round (more ())) ()

/-! ### Lists -/

/-- One item, and after a comma the items `more`. -/
def itemsWith (item : Reader α) (more : Reader (List α)) : Reader (List α) := do
  let first ← item
  if ← hasSymbol .comma then
    return first :: (← more)
  else
    return [first]

/-- One or more items, with a comma between any two. -/
def items (item : Reader α) : Reader (List α) := loop (itemsWith item)

/-- The list `list`, which may be missing, and a closing parenthesis. -/
def toParen (list : Reader (List α)) (expected : String) : Reader (List α) := do
  if ← hasSymbol .rightParen then
    return []
  else
    let found ← list
    symbol .rightParen expected
    return found

end Reader

end LetLang
