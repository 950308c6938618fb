/-!
# Lines of a text

A line ends at a newline, and a carriage return directly before the newline belongs to the end. A
text that does not end with a newline has one more line, which keeps all its characters.
-/

namespace LetLang.Text

/-- The lines of a text. -/
def lines : List Char → List (List Char)
  | [] => []
  | '\n' :: cs => [] :: lines cs
  | '\r' :: '\n' :: cs => [] :: lines cs
  | c :: cs =>
    match lines cs with
    | [] => [[c]]
    | l :: ls => (c :: l) :: ls

/-- The characters with the Unicode property `White_Space`. -/
def isWhiteSpace (c : Char) : Bool :=
  ('\t' ≤ c && c ≤ '\r') || c = ' ' || c = '\u0085' || c = '\u00a0' || c = '\u1680' ||
    ('\u2000' ≤ c && c ≤ '\u200a') || c = '\u2028' || c = '\u2029' || c = '\u202f' ||
    c = '\u205f' || c = '\u3000'

/-- Whether a line has nothing but white space. -/
def isBlankLine (l : List Char) : Bool := l.all isWhiteSpace

/-- The lines of a text that are not blank, each with its number, when the first line of the text
has the number `n`. -/
def numberedLines (n : Nat) : List (List Char) → List (Nat × String)
  | [] => []
  | l :: ls =>
    if isBlankLine l then numberedLines (n + 1) ls
    else (n, String.ofList l) :: numberedLines (n + 1) ls

/-- The numbered lines of a script that are not blank. -/
def scriptLines (script : String) : List (Nat × String) := numberedLines 1 (lines script.toList)

end LetLang.Text
