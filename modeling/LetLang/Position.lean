/-!
# Positions

A position is a line and a column of a source text.
-/

namespace LetLang

/-- A place in a source text. Lines and columns count from one; columns count characters. -/
structure Position where
  line : Nat
  column : Nat
deriving Repr, DecidableEq

end LetLang
