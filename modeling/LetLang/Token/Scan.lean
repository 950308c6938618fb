import LetLang.Decimal
import LetLang.Token
import LetLang.Token.LineIndex

/-!
# Scanning

`scan` cuts a source text into pieces, each as long as any rule allows: runs of blanks, tokens, and
faults. The pieces joined together are the text again (`flatten_pieces`), so nothing is lost, and
each piece starts at an offset that the index of the lines has a position for (`isSome_scan?`).
-/

namespace LetLang.Token

/-! ### Classes of characters -/

/-- The characters that separate tokens. -/
def isBlank (c : Char) : Bool := c = ' ' || c = '\t' || c = '\r' || c = '\n'

/-- The characters that a word can start with. -/
def isWordStart (c : Char) : Bool := c.isAlpha || c = '_'

/-- The characters that a word can go on with. -/
def isWordChar (c : Char) : Bool := c.isAlphanum || c = '_'

/-! ### The rules

Each rule looks at the characters after the first one of a piece and says what the piece is and how
many of these characters belong to it. -/

/-- What a piece of source stands for. -/
inductive Reading where
  | blank
  | token (kind : Kind)
  | fault (fault : LexicalFault)
deriving DecidableEq

/-- The digits of a fraction: those after a point. -/
def fractionDigits : List Char → List Char
  | '.' :: cs => cs.takeWhile Char.isDigit
  | _ => []

/-- The number of characters of a fraction with the given digits, its point included. Without digits
there is no fraction, and the point does not belong to the number. -/
def fractionLength (digits : List Char) : Nat :=
  if digits.isEmpty then 0 else digits.length + 1

/-- A number starts with the digit `c`. A word that follows at once makes all of it invalid. -/
def readNumber (c : Char) (cs : List Char) : Reading × Nat :=
  let whole := cs.takeWhile Char.isDigit
  let fraction := fractionDigits (cs.drop whole.length)
  let length := whole.length + fractionLength fraction
  match cs.drop length with
  | [] => (.token (.number (Decimal.ofDigits (c :: whole) fraction)), length)
  | d :: ds =>
    if isWordStart d then (.fault .invalidToken, length + 1 + (ds.takeWhile isWordChar).length)
    else (.token (.number (Decimal.ofDigits (c :: whole) fraction)), length)

/-- The kind of the token that is written `word`. -/
def wordKind (word : String) : Kind :=
  match Keyword.ofSpelling? word with
  | some k => .keyword k
  | none => .identifier word

/-- A word starts with `c`. -/
def readWord (c : Char) (cs : List Char) : Reading × Nat :=
  let more := cs.takeWhile isWordChar
  (.token (wordKind (String.ofList (c :: more))), more.length)

/-- The number of characters before the quote that closes a string. A quote directly after a
backslash does not close it. -/
def quotedLength? : List Char → Option Nat
  | [] => none
  | '"' :: _ => some 0
  | '\\' :: '"' :: cs => (quotedLength? cs).map (· + 2)
  | _ :: cs => (quotedLength? cs).map (· + 1)

/-- Replaces the escapes for a tab, a newline and a quote. Any other backslash stands for itself. -/
def unescape : List Char → List Char
  | '\\' :: 't' :: cs => '\t' :: unescape cs
  | '\\' :: 'n' :: cs => '\n' :: unescape cs
  | '\\' :: '"' :: cs => '"' :: unescape cs
  | c :: cs => c :: unescape cs
  | [] => []

/-- A string starts with a quote. Without a closing quote all that follows belongs to the fault. -/
def readQuoted (cs : List Char) : Reading × Nat :=
  match quotedLength? cs with
  | some n => (.token (.quoted (String.ofList (unescape (cs.take n)))), n + 1)
  | none => (.fault .unterminatedString, cs.length)

/-- A symbol starts with `c`; two characters are tried before one. -/
def readSymbol (c : Char) (cs : List Char) : Reading × Nat :=
  match cs.head?.bind (Symbol.ofPair? c) with
  | some s => (.token (.symbol s), 1)
  | none =>
    match Symbol.ofChar? c with
    | some s => (.token (.symbol s), 0)
    | none => (.fault .unexpectedCharacter, 0)

/-- What the piece that starts with `c` stands for, and how many of the characters `cs` after it
belong to the piece. -/
def readPiece (c : Char) (cs : List Char) : Reading × Nat :=
  if isBlank c then (.blank, (cs.takeWhile isBlank).length)
  else if c.isDigit then readNumber c cs
  else if isWordStart c then readWord c cs
  else if c = '"' then readQuoted cs
  else readSymbol c cs

/-! ### Pieces -/

/-- A piece of source with what it stands for. -/
structure Piece where
  reading : Reading
  chars : List Char

/-- The pieces of a text, in order. -/
def pieces : List Char → List Piece
  | [] => []
  | c :: cs =>
    let (reading, n) := readPiece c cs
    ⟨reading, c :: cs.take n⟩ :: pieces (cs.drop n)
termination_by cs => cs.length
decreasing_by simp only [List.length_drop, List.length_cons]; omega

@[simp]
theorem pieces_nil : pieces [] = [] := by rw [pieces]

theorem pieces_cons (c : Char) (cs : List Char) :
    pieces (c :: cs) =
      ⟨(readPiece c cs).1, c :: cs.take (readPiece c cs).2⟩ ::
        pieces (cs.drop (readPiece c cs).2) := by
  rw [pieces]

/-- The pieces of a text, joined together, are the text. -/
theorem flatten_pieces (cs : List Char) : (pieces cs).flatMap Piece.chars = cs := by
  fun_induction pieces cs with
  | case1 => rfl
  | case2 c cs reading n h ih => simp [ih]

/-- A piece with the position of its first character. -/
structure PlacedPiece extends Piece where
  position : Position

/-- Gives each piece its position, when the first one starts at `offset`. -/
def place? (index : LineIndex) (offset : Nat) : List Piece → Option (List PlacedPiece)
  | [] => some []
  | piece :: more => do
    let position ← index.locate? offset
    let placed ← place? index (offset + byteSize piece.chars) more
    return ⟨piece, position⟩ :: placed

/-- All pieces of a text have positions. -/
theorem isSome_place? {source : String} {before : List Char} {ps : List Piece}
    (hsource : source.toList = before ++ ps.flatMap Piece.chars) (line : Nat) :
    (place? (.ofSource source line) (byteSize before) ps).isSome = true := by
  induction ps generalizing before with
  | nil => rfl
  | cons piece more ih =>
    obtain ⟨position, hposition⟩ :=
      Option.isSome_iff_exists.mp (LineIndex.isSome_locate? hsource line)
    rw [List.flatMap_cons, ← List.append_assoc] at hsource
    obtain ⟨placed, hplaced⟩ := Option.isSome_iff_exists.mp (ih hsource)
    rw [byteSize_append] at hplaced
    rw [place?, hposition, hplaced]
    rfl

namespace PlacedPiece

/-- The token that the piece is, if it is one. -/
def token? (p : PlacedPiece) : Option Token :=
  match p.reading with
  | .token kind => some ⟨kind, String.ofList p.chars, p.position⟩
  | _ => none

/-- The error that the piece is, if it is one. -/
def error? (p : PlacedPiece) : Option LexicalError :=
  match p.reading with
  | .fault fault => some ⟨fault, String.ofList p.chars, p.position⟩
  | _ => none

end PlacedPiece

/-! ### The result of a scan -/

/-- The tokens of a source text, closed by the end of the input, and its lexical errors. -/
structure Scan where
  tokens : List Token
  errors : List LexicalError

/-- The token that stands at the end of the input. -/
def endAt (p : Position) : Token := ⟨.endOfInput, "", p⟩

/-- Scans a source text whose first line has the number `line`, if all positions are found. -/
def scan? (source : String) (line : Nat) : Option Scan := do
  let index := LineIndex.ofSource source line
  let placed ← place? index 0 (pieces source.toList)
  let last ← index.locate? source.utf8ByteSize
  return {
    tokens := placed.filterMap PlacedPiece.token? ++ [endAt last]
    errors := placed.filterMap PlacedPiece.error? }

/-- The positions are found in every text. -/
theorem isSome_scan? (source : String) (line : Nat) : (scan? source line).isSome = true := by
  have hpieces : source.toList = [] ++ (pieces source.toList).flatMap Piece.chars := by
    rw [flatten_pieces, List.nil_append]
  obtain ⟨placed, hplaced⟩ := Option.isSome_iff_exists.mp (isSome_place? hpieces line)
  obtain ⟨last, hlast⟩ := Option.isSome_iff_exists.mp
    (LineIndex.isSome_locate? (List.append_nil source.toList).symm line)
  rw [byteSize_nil] at hplaced
  rw [byteSize_toList] at hlast
  dsimp only [scan?]
  rw [hlast, hplaced]
  rfl

/-- Scans a source text whose first line has the number `line`. -/
def scan (source : String) (line : Nat) : Scan := (scan? source line).get (isSome_scan? source line)

end LetLang.Token
