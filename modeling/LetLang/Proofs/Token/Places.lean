import LetLang.Token.Scan

/-!
# Positions by moving over the text

A newline leads to the first column of the next line, and any other character leads one column on.
Moving over a text in this way leads to the position that the index of its lines has for the offset
(`LineIndex.locate?_byteSize`), whatever the sizes of the characters are. So the positions of a scan
are those of a walk over the pieces (`Token.scan_eq_place`), which is what proofs about the scanner
use.
-/

namespace LetLang

/-! ### Moving over a text -/

namespace Position

/-- The first place of line `line`. -/
def startOf (line : Nat) : Position := ⟨line, 1⟩

/-- The place after the character `c` at `p`. -/
def next (p : Position) (c : Char) : Position :=
  if c = '\n' then ⟨p.line + 1, 1⟩ else ⟨p.line, p.column + 1⟩

/-- The place after the text `cs` that starts at `p`. -/
def after (p : Position) (cs : List Char) : Position := cs.foldl next p

@[simp]
theorem after_nil (p : Position) : p.after [] = p := rfl

@[simp]
theorem after_cons (p : Position) (c : Char) (cs : List Char) :
    p.after (c :: cs) = (p.next c).after cs := rfl

@[simp]
theorem after_append (p : Position) (as bs : List Char) :
    p.after (as ++ bs) = (p.after as).after bs := List.foldl_append

/-- A text without newlines leads along its line. -/
theorem after_of_not_mem (p : Position) {cs : List Char} (h : '\n' ∉ cs) :
    p.after cs = ⟨p.line, p.column + cs.length⟩ := by
  induction cs generalizing p with
  | nil => rfl
  | cons c cs ih =>
    rw [List.mem_cons, not_or] at h
    have hnext : p.next c = ⟨p.line, p.column + 1⟩ := if_neg (Ne.symm h.1)
    rw [after_cons, ih _ h.2, hnext, List.length_cons]
    dsimp only
    rw [Nat.add_assoc, Nat.add_comm 1]

/-- Each newline leads to another line. -/
theorem line_after (p : Position) (cs : List Char) :
    (p.after cs).line = p.line + cs.count '\n' := by
  induction cs generalizing p with
  | nil => rfl
  | cons c cs ih =>
    rw [after_cons, ih, List.count_cons]
    unfold next
    by_cases hc : c = '\n'
    · rw [if_pos hc, if_pos (beq_iff_eq.mpr hc)]
      dsimp only
      omega
    · rw [if_neg hc, if_neg (mt beq_iff_eq.mp hc)]
      rfl

/-- A text that ends a line leads from the start of a line to the start of another. -/
theorem after_startOf_of_endsLine (line : Nat) {cs : List Char} (h : LineIndex.EndsLine cs) :
    (startOf line).after cs = startOf (line + cs.count '\n') := by
  have hline : ((startOf line).after cs).line = line + cs.count '\n' := line_after _ cs
  obtain rfl | ⟨before, rfl⟩ := h
  · rfl
  · rw [← hline, after_append]
    rfl

end Position

/-! ### Positions of offsets -/

/-- The index of the lines gives the position that moving over the text leads to. -/
theorem LineIndex.locate?_byteSize {source : String} {before after : List Char}
    (hsource : source.toList = before ++ after) (line : Nat) :
    (ofSource source line).locate? (byteSize before) =
      some ((Position.startOf line).after before) := by
  obtain ⟨lines, last, rfl, hlines, hlast⟩ := exists_lastLine before
  rw [byteSize_append, locate?_append hsource hlines hlast, Position.after_append,
    Position.after_startOf_of_endsLine line hlines, Position.after_of_not_mem _ hlast]
  rw [Position.startOf, Nat.add_comm 1]

/-- The first line has a character of two bytes, the second is empty, and offset 5 is inside a
character. -/
example :
    let index := LineIndex.ofSource "é\n\nü x" 7
    index.starts = #[0, 3, 4] ∧ index.locate? 3 = some ⟨8, 1⟩ ∧ index.locate? 5 = none ∧
      index.locate? 7 = some ⟨9, 3⟩ := by
  decide +kernel

namespace Token

/-- Gives each piece its position, when the first one is at `p`. -/
def place (p : Position) : List Piece → List PlacedPiece
  | [] => []
  | piece :: more => ⟨piece, p⟩ :: place (p.after piece.chars) more

/-- The scanner finds the positions that moving over the pieces leads to. -/
theorem place?_eq_some {source : String} {before : List Char} {ps : List Piece}
    (hsource : source.toList = before ++ ps.flatMap Piece.chars) (line : Nat) :
    place? (.ofSource source line) (byteSize before) ps =
      some (place ((Position.startOf line).after before) ps) := by
  induction ps generalizing before with
  | nil => rfl
  | cons piece more ih =>
    have hfirst := LineIndex.locate?_byteSize hsource line
    rw [List.flatMap_cons, ← List.append_assoc] at hsource
    have hmore := ih hsource
    rw [byteSize_append, Position.after_append] at hmore
    rw [place?, hfirst, hmore]
    rfl

/-- A scan by moving over the pieces. -/
theorem scan_eq_place (source : String) (line : Nat) :
    scan source line =
      { tokens := (place (.startOf line) (pieces source.toList)).filterMap PlacedPiece.token? ++
          [endAt ((Position.startOf line).after source.toList)]
        errors :=
          (place (.startOf line) (pieces source.toList)).filterMap PlacedPiece.error? } := by
  have hpieces : source.toList = [] ++ (pieces source.toList).flatMap Piece.chars := by
    rw [flatten_pieces, List.nil_append]
  have hplaced := place?_eq_some hpieces line
  have hend := LineIndex.locate?_byteSize (List.append_nil source.toList).symm line
  rw [byteSize_nil, Position.after_nil] at hplaced
  rw [byteSize_toList] at hend
  apply Option.get_of_eq_some
  dsimp only [scan?]
  rw [hplaced, hend]
  rfl

end Token

end LetLang
