import LetLang.Position

/-!
# Tokens

A source text is a sequence of tokens: numbers, quoted texts, identifiers, keywords and symbols. A
token keeps its lexeme, the piece of source it was read from, and the position of its first
character.
-/

namespace LetLang

/-! ### Kinds of tokens -/

/-- A word with a meaning of its own. -/
inductive Keyword where
  | let_
  | in_
  | if_
  | else_
  | function
  | true_
  | false_
  | pi
  | euler
deriving Repr, DecidableEq

namespace Keyword

/-- How the keyword is written. -/
def spelling : Keyword → String
  | let_ => "let"
  | in_ => "in"
  | if_ => "if"
  | else_ => "else"
  | function => "function"
  | true_ => "true"
  | false_ => "false"
  | pi => "PI"
  | euler => "E"

/-- The keyword that is written `word`, if there is one. -/
def ofSpelling? : String → Option Keyword
  | "let" => some let_
  | "in" => some in_
  | "if" => some if_
  | "else" => some else_
  | "function" => some function
  | "true" => some true_
  | "false" => some false_
  | "PI" => some pi
  | "E" => some euler
  | _ => none

@[simp]
theorem ofSpelling?_spelling (k : Keyword) : ofSpelling? k.spelling = some k := by
  cases k <;> rfl

end Keyword

/-- A token of punctuation or an operator sign. -/
inductive Symbol where
  | leftParen
  | rightParen
  | comma
  | semicolon
  | plus
  | minus
  | star
  | slash
  | percent
  | caret
  | atSign
  | ampersand
  | pipe
  | bang
  | bangEqual
  | equal
  | equalEqual
  | arrow
  | less
  | lessEqual
  | greater
  | greaterEqual
deriving Repr, DecidableEq

namespace Symbol

/-- How the symbol is written. -/
def spelling : Symbol → String
  | leftParen => "("
  | rightParen => ")"
  | comma => ","
  | semicolon => ";"
  | plus => "+"
  | minus => "-"
  | star => "*"
  | slash => "/"
  | percent => "%"
  | caret => "^"
  | atSign => "@"
  | ampersand => "&"
  | pipe => "|"
  | bang => "!"
  | bangEqual => "!="
  | equal => "="
  | equalEqual => "=="
  | arrow => "=>"
  | less => "<"
  | lessEqual => "<="
  | greater => ">"
  | greaterEqual => ">="

/-- The symbol of one character, if there is one. -/
def ofChar? : Char → Option Symbol
  | '(' => some leftParen
  | ')' => some rightParen
  | ',' => some comma
  | ';' => some semicolon
  | '+' => some plus
  | '-' => some minus
  | '*' => some star
  | '/' => some slash
  | '%' => some percent
  | '^' => some caret
  | '@' => some atSign
  | '&' => some ampersand
  | '|' => some pipe
  | '!' => some bang
  | '=' => some equal
  | '<' => some less
  | '>' => some greater
  | _ => none

/-- The symbol of two characters, if there is one. -/
def ofPair? : Char → Char → Option Symbol
  | '!', '=' => some bangEqual
  | '=', '=' => some equalEqual
  | '=', '>' => some arrow
  | '<', '=' => some lessEqual
  | '>', '=' => some greaterEqual
  | _, _ => none

end Symbol

namespace Token

/-- What a token is. No source text yields a `blank` token: blanks only separate the others. -/
inductive Kind where
  | number (value : Float)
  | quoted (value : String)
  | identifier (name : String)
  | keyword (word : Keyword)
  | symbol (sign : Symbol)
  | blank
  | endOfInput
deriving DecidableEq

end Token

/-- A token of a source text. The token at the end of the input has an empty lexeme. -/
structure Token where
  kind : Token.Kind
  lexeme : String
  position : Position
deriving DecidableEq

namespace Token

/-- The line that the token starts on. -/
def line (t : Token) : Nat := t.position.line

end Token

/-! ### Lexical errors -/

/-- What is wrong with a piece of source that is no token. -/
inductive LexicalFault where
  /-- A character that begins no token. -/
  | unexpectedCharacter
  /-- A quote that is never closed. -/
  | unterminatedString
  /-- A number that runs into a word. -/
  | invalidToken
deriving Repr, DecidableEq

/-- The wording of a lexical fault. -/
def LexicalFault.message : LexicalFault → String
  | unexpectedCharacter => "Unexpected character."
  | unterminatedString => "Unterminated string."
  | invalidToken => "Is not a valid token."

/-- A piece of source that is no token. -/
structure LexicalError where
  fault : LexicalFault
  lexeme : String
  position : Position
deriving Repr, DecidableEq

end LetLang
