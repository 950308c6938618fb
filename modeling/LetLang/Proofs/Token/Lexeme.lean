import LetLang.Token.Scan

/-!
# Lexical rules

What the pieces of a source text look like, said without a scanner. A rule allows a piece to be cut
off the front of a text: a run of blanks, a number, a number that runs into a word, a word, a
symbol, a string, or all the rest of the text if it begins with a quote that is never closed. A text
may allow several pieces, of different lengths. The piece that is cut off is the longest one, or a
single character if there is none (`Cuts`); a text is cut into pieces one after the other
(`Munched`).
-/

namespace LetLang.Token

/-! ### Characters -/

/-- A space, a tab, a carriage return or a newline. -/
def Separates (c : Char) : Prop := c ∈ [' ', '\t', '\r', '\n']

/-- A decimal digit. -/
def IsDigit (c : Char) : Prop := '0' ≤ c ∧ c ≤ '9'

/-- A letter of the Latin alphabet, or an underscore. -/
def IsLetter (c : Char) : Prop := ('A' ≤ c ∧ c ≤ 'Z') ∨ ('a' ≤ c ∧ c ≤ 'z') ∨ c = '_'

theorem isBlank_iff {c : Char} : isBlank c = true ↔ Separates c := by
  simp [isBlank, Separates, or_assoc]

theorem isDigit_iff {c : Char} : c.isDigit = true ↔ IsDigit c := by
  simp [Char.isDigit, IsDigit, Char.le_def]

theorem isWordStart_iff {c : Char} : isWordStart c = true ↔ IsLetter c := by
  have hupper : c.isUpper = decide ('A' ≤ c ∧ c ≤ 'Z') := rfl
  have hlower : c.isLower = (decide ('a' ≤ c) && decide (c ≤ 'z')) := rfl
  have halpha : c.isAlpha = (c.isUpper || c.isLower) := rfl
  simp [isWordStart, IsLetter, halpha, hupper, hlower, or_assoc]

theorem isWordChar_iff {c : Char} : isWordChar c = true ↔ IsLetter c ∨ IsDigit c := by
  have hchar : isWordChar c = (isWordStart c || c.isDigit) := by
    simp only [isWordChar, isWordStart, Char.isAlphanum, Bool.or_right_comm]
  rw [hchar, Bool.or_eq_true, isWordStart_iff, isDigit_iff]

/-- A digit does not separate tokens. -/
theorem IsDigit.not_separates {c : Char} (h : IsDigit c) : ¬ Separates c := by
  intro hc
  simp only [Separates, List.mem_cons, List.not_mem_nil, or_false] at hc
  obtain rfl | rfl | rfl | rfl := hc <;> exact absurd h (by unfold IsDigit; decide)

/-- A letter does not separate tokens. -/
theorem IsLetter.not_separates {c : Char} (h : IsLetter c) : ¬ Separates c := by
  intro hc
  simp only [Separates, List.mem_cons, List.not_mem_nil, or_false] at hc
  obtain rfl | rfl | rfl | rfl := hc <;> exact absurd h (by unfold IsLetter; decide)

/-- No character is a letter and a digit. -/
theorem IsLetter.not_isDigit {c : Char} (h : IsLetter c) : ¬ IsDigit c := by
  rintro ⟨hlow, hhigh⟩
  simp only [IsLetter, Char.le_def, UInt32.le_iff_toNat_le] at h hlow hhigh
  have h9 : '9'.val.toNat = 57 := rfl
  have hA : 'A'.val.toNat = 65 := rfl
  have ha : 'a'.val.toNat = 97 := rfl
  obtain ⟨h, -⟩ | ⟨h, -⟩ | rfl := h
  · omega
  · omega
  · exact absurd hhigh (by decide)

/-! ### Lexemes -/

/-- A number as it is written: digits, and possibly a point with digits after it. -/
structure Numeral where
  first : Char
  more : List Char
  /-- The digits after the point; if there are none, there is no point. -/
  fraction : List Char
  first_digit : IsDigit first
  more_digits : ∀ c ∈ more, IsDigit c
  fraction_digits : ∀ c ∈ fraction, IsDigit c

/-- A point with digits after it, or nothing if there are no digits. -/
def pointed : List Char → List Char
  | [] => []
  | c :: cs => '.' :: c :: cs

namespace Numeral

/-- The characters of a number. -/
def text (n : Numeral) : List Char := n.first :: (n.more ++ pointed n.fraction)

/-- The value of a number. -/
def value (n : Numeral) : Float := Decimal.ofDigits (n.first :: n.more) n.fraction

end Numeral

/-- A word: a letter, and then letters and digits. -/
structure Word where
  first : Char
  more : List Char
  first_letter : IsLetter first
  more_chars : ∀ c ∈ more, IsLetter c ∨ IsDigit c

/-- The characters of a word. -/
def Word.text (w : Word) : List Char := w.first :: w.more

/-- Every quote of the text comes directly after a backslash. -/
def AllEscaped (cs : List Char) : Prop :=
  ∀ before after, cs = before ++ '"' :: after → before.getLast? = some '\\'

/-- What stands between the quotes of a string: no quote in it closes the string, and the quote
after it does. -/
structure Quotation where
  body : List Char
  allEscaped : AllEscaped body
  last_ne : body.getLast? ≠ some '\\'

namespace Quotation

/-- The characters of a string, its quotes included. -/
def text (q : Quotation) : List Char := '"' :: (q.body ++ ['"'])

/-- What a string stands for. -/
def value (q : Quotation) : String := String.ofList (unescape q.body)

end Quotation

/-! ### Rules -/

/-- A rule allows the piece `w` to be cut off the text `w ++ rest`, with the given reading. -/
inductive Rule : Reading → List Char → List Char → Prop
  | blank (c : Char) (w rest : List Char) (h : ∀ d ∈ c :: w, Separates d) :
    Rule .blank (c :: w) rest
  | number (n : Numeral) (rest : List Char) : Rule (.token (.number n.value)) n.text rest
  | glued (n : Numeral) (w : Word) (rest : List Char) :
    Rule (.fault .invalidToken) (n.text ++ w.text) rest
  | keyword (k : Keyword) (w : Word) (rest : List Char) (h : w.text = k.spelling.toList) :
    Rule (.token (.keyword k)) w.text rest
  | identifier (w : Word) (rest : List Char) (h : ∀ k : Keyword, w.text ≠ k.spelling.toList) :
    Rule (.token (.identifier (String.ofList w.text))) w.text rest
  | symbol (s : Symbol) (rest : List Char) : Rule (.token (.symbol s)) s.spelling.toList rest
  | quoted (q : Quotation) (rest : List Char) : Rule (.token (.quoted q.value)) q.text rest
  | unterminated (body : List Char) (h : AllEscaped body) :
    Rule (.fault .unterminatedString) ('"' :: body) []

/-- The piece that has to be cut off the text `w ++ rest` is `w`, with the given reading: the
longest piece that a rule allows, or one unexpected character if no rule allows any. -/
inductive Cuts : Reading → List Char → List Char → Prop
  | longest {reading : Reading} {w rest : List Char} (rule : Rule reading w rest)
    (h : ∀ {reading' w' rest'}, Rule reading' w' rest' → w' ++ rest' = w ++ rest →
      w'.length ≤ w.length) : Cuts reading w rest
  | unexpected {c : Char} {rest : List Char}
    (h : ∀ {reading' w' rest'}, Rule reading' w' rest' → w' ++ rest' ≠ c :: rest) :
    Cuts (.fault .unexpectedCharacter) [c] rest

/-- The text is cut into these pieces, from its first character to its last. -/
inductive Munched : List Char → List Piece → Prop
  | nil : Munched [] []
  | cons {reading : Reading} {w rest : List Char} {ps : List Piece} (cut : Cuts reading w rest)
    (more : Munched rest ps) : Munched (w ++ rest) (⟨reading, w⟩ :: ps)

/-- A rule allows no empty piece. -/
theorem Rule.exists_cons {reading : Reading} {w rest : List Char} (h : Rule reading w rest) :
    ∃ c w', w = c :: w' := by
  cases h with
  | blank c w => exact ⟨c, w, rfl⟩
  | number n => exact ⟨n.first, _, rfl⟩
  | glued n w => exact ⟨n.first, _, rfl⟩
  | keyword k w => exact ⟨w.first, w.more, rfl⟩
  | identifier w => exact ⟨w.first, w.more, rfl⟩
  | symbol s => cases s <;> exact ⟨_, _, rfl⟩
  | quoted q => exact ⟨'"', _, rfl⟩
  | unterminated body => exact ⟨'"', body, rfl⟩

/-- No rule reads a piece as an unexpected character. -/
theorem Rule.reading_ne {reading : Reading} {w rest : List Char} (h : Rule reading w rest) :
    reading ≠ .fault .unexpectedCharacter := by
  rintro rfl
  cases h

end LetLang.Token
