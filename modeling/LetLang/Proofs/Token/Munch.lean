import LetLang.Proofs.Token.Places
import LetLang.Proofs.Token.Reading

/-!
# Maximal munch

The scanner cuts a text into exactly the pieces that the lexical rules ask for
(`munched_iff_eq_pieces`): at each place it takes the longest piece, and no other list of pieces
follows the rules. The tokens and the errors of a scan are these pieces without the runs of blanks.
-/

namespace LetLang.Token

/-! ### Maximal munch -/

/-- The scanner cuts off what the rules ask for. -/
theorem exists_cuts (c : Char) (cs : List Char) :
    ∃ w rest, cs = w ++ rest ∧ w.length = (readPiece c cs).2 ∧
      Cuts (readPiece c cs).1 (c :: w) rest := by
  -- a rule that applies here allows no more than what is read
  have hfits : ∀ {reading v rest}, Rule reading v rest → v ++ rest = c :: cs →
      ∃ w, v = c :: w ∧ Fits reading w.length (readPiece c cs) := by
    intro reading v rest hrule hv
    obtain ⟨d, w, rfl⟩ := hrule.exists_cons
    obtain ⟨rfl, rfl⟩ := List.cons.inj hv
    exact ⟨w, rfl, hrule.fits⟩
  obtain ⟨w, rest, hcs, hlength, hrule⟩ | hread := allowed_readPiece c cs
  · refine ⟨w, rest, hcs, hlength, .longest hrule fun hrule' hsplit => ?_⟩
    obtain ⟨w', rfl, hfit⟩ := hfits hrule' (hsplit.trans (congrArg (c :: ·) hcs.symm))
    rw [List.length_cons, List.length_cons, hlength]
    obtain hlt | heq := hfit
    · omega
    · have hsame : (readPiece c cs).2 = w'.length := congrArg Prod.snd heq
      omega
  · rw [hread]
    refine ⟨[], cs, rfl, rfl, .unexpected fun hrule hsplit => ?_⟩
    obtain ⟨w, rfl, hfit⟩ := hfits hrule hsplit
    rw [hread] at hfit
    obtain hlt | heq := hfit
    · exact absurd hlt (Nat.not_lt_zero _)
    · exact hrule.reading_ne (Prod.mk.inj heq).1.symm

/-- What the rules ask for is what the scanner reads. -/
theorem Cuts.eq_readPiece {reading : Reading} {v rest : List Char} (h : Cuts reading v rest) :
    ∃ c w, v = c :: w ∧ readPiece c (w ++ rest) = (reading, w.length) := by
  cases h with
  | longest rule hlongest =>
    obtain ⟨c, w, rfl⟩ := rule.exists_cons
    refine ⟨c, w, rfl, ?_⟩
    obtain hlt | heq := rule.fits
    · -- what is read would be longer than the longest piece
      obtain ⟨w', rest', hsplit, hlength, hrule⟩ | hread := allowed_readPiece c (w ++ rest)
      · have hle := hlongest hrule (congrArg (c :: ·) hsplit.symm)
        rw [List.length_cons, List.length_cons, hlength] at hle
        omega
      · rw [hread] at hlt
        exact absurd hlt (Nat.not_lt_zero _)
    · exact heq
  | @unexpected c _ hnone =>
    refine ⟨c, [], rfl, ?_⟩
    obtain ⟨w, rest', hsplit, -, hrule⟩ | hread := allowed_readPiece c rest
    · exact absurd (congrArg (c :: ·) hsplit.symm) (hnone hrule)
    · exact hread

/-- The pieces of the scanner are the only ones that follow the rules. -/
theorem munched_iff_eq_pieces {cs : List Char} {ps : List Piece} :
    Munched cs ps ↔ ps = pieces cs := by
  constructor
  · intro h
    induction h with
    | nil => rw [pieces_nil]
    | cons cut more ih =>
      obtain ⟨c, w, rfl, hread⟩ := cut.eq_readPiece
      rw [List.cons_append, pieces_cons, hread, List.take_left, List.drop_left, ih]
  · rintro rfl
    fun_induction pieces cs with
    | case1 => exact .nil
    | case2 c cs reading n hread ih =>
      obtain ⟨w, rest, rfl, hlength, hcut⟩ := exists_cuts c cs
      rw [hread] at hlength hcut
      obtain rfl : w.length = n := hlength
      rw [List.take_left, List.drop_left] at *
      exact .cons hcut ih

/-! ### Runs of blanks -/

/-- No blank follows a run of blanks. -/
theorem Cuts.blank_stops {w rest : List Char} (h : Cuts .blank w rest) :
    ∀ c ∈ rest.head?, ¬ Separates c := by
  intro c hc hsep
  obtain ⟨rest, rfl⟩ := List.head?_eq_some_iff.mp hc
  cases h with
  | longest rule hlongest =>
    cases rule with
    | blank d v _ hall =>
      -- with the blank after it, the run would be longer
      have hall' : ∀ e ∈ d :: (v ++ [c]), Separates e := by
        rw [← List.cons_append]
        exact List.forall_mem_append.mpr ⟨hall, by simpa using hsep⟩
      have hle := hlongest (.blank d (v ++ [c]) rest hall') (by simp)
      rw [List.length_cons, List.length_cons, List.length_append] at hle
      exact absurd hle (by simp)

/-- What is cut off as a run of blanks is one. -/
theorem Cuts.exists_separates {w rest : List Char} (h : Cuts .blank w rest) :
    ∃ c v, w = c :: v ∧ ∀ d ∈ c :: v, Separates d := by
  cases h with
  | longest rule =>
    cases rule with
    | blank c v _ hall => exact ⟨c, v, rfl, hall⟩

theorem Numeral.not_separates (n : Numeral) : ∀ c ∈ n.text, ¬ Separates c := by
  have hpoint : ∀ c ∈ pointed n.fraction, ¬ Separates c := by
    intro c hc
    have hdigits := n.fraction_digits
    cases hfraction : n.fraction with
    | nil =>
      rw [hfraction] at hc
      cases hc
    | cons d ds =>
      rw [hfraction] at hc hdigits
      obtain rfl | hc := List.mem_cons.mp hc
      · unfold Separates
        decide
      · exact (hdigits c hc).not_separates
  intro c hc
  obtain rfl | hc := List.mem_cons.mp hc
  · exact n.first_digit.not_separates
  · obtain hc | hc := List.mem_append.mp hc
    · exact (n.more_digits c hc).not_separates
    · exact hpoint c hc

theorem Word.not_separates (w : Word) : ∀ c ∈ w.text, ¬ Separates c := by
  intro c hc
  obtain rfl | hc := List.mem_cons.mp hc
  · exact w.first_letter.not_separates
  · obtain hletter | hdigit := w.more_chars c hc
    · exact hletter.not_separates
    · exact hdigit.not_separates

/-- A piece that is not a run of blanks does not end with a blank, unless it is the last one. -/
theorem Cuts.getLast_not_separates {reading : Reading} {w rest : List Char}
    (h : Cuts reading w rest) (hblank : reading ≠ .blank) (hrest : rest ≠ []) :
    ∀ c ∈ w.getLast?, ¬ Separates c := by
  intro c hc
  have hmem : c ∈ w := List.mem_of_getLast? hc
  cases h with
  | longest rule =>
    cases rule with
    | blank => exact absurd rfl hblank
    | number n => exact n.not_separates c hmem
    | glued n v =>
      obtain hmem | hmem := List.mem_append.mp hmem
      · exact n.not_separates c hmem
      · exact v.not_separates c hmem
    | keyword k v => exact v.not_separates c hmem
    | identifier v => exact v.not_separates c hmem
    | symbol s =>
      have hall : s.spelling.toList.all (!isBlank ·) = true := by cases s <;> rfl
      have hc := List.all_eq_true.mp hall c hmem
      exact fun hblank => absurd (isBlank_iff.mpr hblank) (by simpa using hc)
    | quoted q =>
      rw [Quotation.text, ← List.cons_append, List.getLast?_append] at hc
      obtain rfl : '"' = c := Option.some.inj hc
      unfold Separates
      decide
    | unterminated => exact absurd rfl hrest
  | @unexpected d _ hnone =>
    obtain rfl : c = d := List.mem_singleton.mp hmem
    intro hsep
    exact hnone (.blank c [] rest (by simpa using hsep)) rfl

/-- The text `w` between two others is a run of blanks that neither of them prolongs. -/
def MaximalRun (before w after : List Char) : Prop :=
  (∀ c ∈ w, Separates c) ∧ (∀ c ∈ before.getLast?, ¬ Separates c) ∧
    ∀ c ∈ after.head?, ¬ Separates c

/-- Joined together, the pieces are the text. -/
theorem Munched.flatMap_chars {cs : List Char} {ps : List Piece} (h : Munched cs ps) :
    ps.flatMap Piece.chars = cs := by
  rw [munched_iff_eq_pieces.mp h, flatten_pieces]

theorem Munched.cuts {cs : List Char} {ps : List Piece} {p : Piece} (h : Munched cs (p :: ps)) :
    Cuts p.reading p.chars (ps.flatMap Piece.chars) := by
  cases h with
  | cons cut more => rwa [more.flatMap_chars]

/-- The pieces after some first ones are those of the rest of the text. -/
theorem Munched.of_append {cs : List Char} {ps ps' : List Piece} (h : Munched cs (ps ++ ps')) :
    Munched (ps'.flatMap Piece.chars) ps' := by
  induction ps generalizing cs with
  | nil =>
    rw [List.nil_append] at h
    rwa [h.flatMap_chars]
  | cons p ps ih =>
    cases h with
    | cons cut more => exact ih more

/-- A piece of blanks is a maximal run. -/
theorem Munched.maximalRun {cs : List Char} {ps ps' : List Piece} {p : Piece}
    (h : Munched cs (ps ++ p :: ps')) (hblank : p.reading = .blank) :
    MaximalRun (ps.flatMap Piece.chars) p.chars (ps'.flatMap Piece.chars) := by
  have hcut : Cuts .blank p.chars (ps'.flatMap Piece.chars) := hblank ▸ h.of_append.cuts
  obtain ⟨c, w, hchars, hall⟩ := hcut.exists_separates
  refine ⟨hchars ▸ hall, ?_, hcut.blank_stops⟩
  obtain rfl | ⟨init, q, rfl⟩ := List.eq_nil_or_concat ps
  · intro d hd
    cases hd
  -- the piece `q` before the run does not end with a blank, and is no run of blanks itself
  rw [List.concat_eq_append] at h ⊢
  rw [List.append_assoc, List.singleton_append] at h
  have hq : Cuts q.reading q.chars ((p :: ps').flatMap Piece.chars) := h.of_append.cuts
  have hnext : ((p :: ps').flatMap Piece.chars).head? = some c := by
    rw [List.flatMap_cons, hchars]
    rfl
  have hreading : q.reading ≠ .blank := by
    intro hreading
    rw [hreading] at hq
    exact hq.blank_stops c hnext (hall c List.mem_cons_self)
  have hrest : (p :: ps').flatMap Piece.chars ≠ [] := by
    intro hnil
    rw [hnil] at hnext
    cases hnext
  obtain ⟨d, v, hv, -⟩ := hq.eq_readPiece
  have hlast : ((init ++ [q]).flatMap Piece.chars).getLast? = q.chars.getLast? := by
    rw [List.flatMap_append, List.flatMap_singleton, List.getLast?_append, hv, List.getLast?_cons,
      Option.some_or]
  rw [hlast]
  exact hq.getLast_not_separates hreading hrest

/-! ### The result of a scan -/

/-- The kind and the lexeme of a piece that is a token. -/
def Piece.token? (p : Piece) : Option (Kind × String) :=
  match p.reading with
  | .token kind => some (kind, String.ofList p.chars)
  | _ => none

/-- The fault and the lexeme of a piece that is an error. -/
def Piece.error? (p : Piece) : Option (LexicalFault × String) :=
  match p.reading with
  | .fault fault => some (fault, String.ofList p.chars)
  | _ => none

theorem tokens_place (ps : List Piece) (start : Position) :
    ((place start ps).filterMap PlacedPiece.token?).map (fun t => (t.kind, t.lexeme)) =
      ps.filterMap Piece.token? := by
  induction ps generalizing start with
  | nil => rfl
  | cons p ps ih =>
    obtain ⟨reading, chars⟩ := p
    cases reading with
    | token kind => exact congrArg (_ :: ·) (ih _)
    | blank => exact ih _
    | fault fault => exact ih _

theorem errors_place (ps : List Piece) (start : Position) :
    ((place start ps).filterMap PlacedPiece.error?).map (fun e => (e.fault, e.lexeme)) =
      ps.filterMap Piece.error? := by
  induction ps generalizing start with
  | nil => rfl
  | cons p ps ih =>
    obtain ⟨reading, chars⟩ := p
    cases reading with
    | fault fault => exact congrArg (_ :: ·) (ih _)
    | blank => exact ih _
    | token kind => exact ih _

/-- A token of a source text is the end of the input, or a rule allows its lexeme. -/
theorem exists_rule_of_mem_tokens {source : String} {line : Nat} {t : Token}
    (h : t ∈ (scan source line).tokens) :
    t.kind = .endOfInput ∨ ∃ rest, Rule (.token t.kind) t.lexeme.toList rest := by
  rw [scan_eq_place] at h
  rcases List.mem_append.mp h with h | h
  · right
    have hmunched : Munched source.toList (pieces source.toList) := munched_iff_eq_pieces.mpr rfl
    have hpair := List.mem_map_of_mem (f := fun t : Token => (t.kind, t.lexeme)) h
    rw [tokens_place] at hpair
    obtain ⟨⟨reading, chars⟩, hp, htoken⟩ := List.mem_filterMap.mp hpair
    obtain ⟨before, after, hsplit⟩ := List.append_of_mem hp
    rw [hsplit] at hmunched
    have hcut := hmunched.of_append.cuts
    cases reading with
    | token kind =>
      obtain ⟨hkind, hlexeme⟩ := Prod.mk.inj (Option.some.inj htoken)
      cases hcut with
      | longest rule =>
        rw [← hkind, ← hlexeme, String.toList_ofList]
        exact ⟨_, rule⟩
    | blank => cases htoken
    | fault fault => cases htoken
  · left
    obtain rfl := List.mem_singleton.mp h
    rfl

/-- A piece of source is not empty, and is not the end of the input. -/
theorem Munched.of_mem {cs : List Char} {ps : List Piece} (h : Munched cs ps) {p : Piece}
    (hp : p ∈ ps) : p.chars ≠ [] ∧ p.reading ≠ .token .endOfInput := by
  induction h with
  | nil => cases hp
  | cons cut more ih =>
    rcases List.mem_cons.mp hp with rfl | hp
    · cases cut with
      | longest rule =>
        obtain ⟨c, w, hw⟩ := rule.exists_cons
        refine ⟨hw ▸ List.cons_ne_nil c w, fun hreading => ?_⟩
        dsimp only at hreading
        subst hreading
        cases rule
      | unexpected => exact ⟨List.cons_ne_nil _ _, by rintro ⟨⟩⟩
    · exact ih hp

/-- The tokens of a source text are the end of the input and, before it, tokens of other kinds with
lexemes. -/
theorem exists_tokens_scan (source : String) (line : Nat) :
    ∃ init last, (scan source line).tokens = init ++ [last] ∧
      last.kind = .endOfInput ∧ last.lexeme = "" ∧
      ∀ t ∈ init, t.kind ≠ .endOfInput ∧ t.lexeme ≠ "" := by
  rw [scan_eq_place]
  refine ⟨_, _, rfl, rfl, rfl, fun t ht => ?_⟩
  have hmunched : Munched source.toList (pieces source.toList) := munched_iff_eq_pieces.mpr rfl
  have hpair := List.mem_map_of_mem (f := fun t : Token => (t.kind, t.lexeme)) ht
  rw [tokens_place] at hpair
  obtain ⟨⟨reading, chars⟩, hp, htoken⟩ := List.mem_filterMap.mp hpair
  obtain ⟨hchars, hreading⟩ := hmunched.of_mem hp
  cases reading with
  | token kind =>
    obtain ⟨rfl, hlexeme⟩ := Prod.mk.inj (Option.some.inj htoken)
    refine ⟨fun hkind => hreading (congrArg Reading.token hkind), fun hempty => hchars ?_⟩
    rw [← hlexeme] at hempty
    exact String.ofList_eq_empty_iff.mp hempty
  | blank => cases htoken
  | fault fault => cases htoken

theorem lexeme_eq_empty_iff {source : String} {line : Nat} {t : Token}
    (h : t ∈ (scan source line).tokens) : t.lexeme = "" ↔ t.kind = .endOfInput := by
  obtain ⟨init, last, htokens, hkind, hlexeme, hinit⟩ := exists_tokens_scan source line
  rw [htokens, List.mem_append, List.mem_singleton] at h
  rcases h with h | rfl
  · have ⟨hkind', hlexeme'⟩ := hinit t h
    exact ⟨fun h => absurd h hlexeme', fun h => absurd h hkind'⟩
  · exact ⟨fun _ => hkind, fun _ => hlexeme⟩

/-- **Maximal munch**: every source text is cut into pieces by the rules in exactly one way. The
pieces are not empty, joined together they are the text, and those that are blank are maximal runs.
The tokens of a scan, up to the one at the end of the input, and its errors are the other pieces, in
the order of the text. -/
theorem scan_eq_munched (source : String) (line : Nat) :
    ∃ ps : List Piece,
      (∀ ps', Munched source.toList ps' ↔ ps' = ps) ∧
      (∀ p ∈ ps, p.chars ≠ []) ∧
      ps.flatMap Piece.chars = source.toList ∧
      (∀ before p after, ps = before ++ p :: after → p.reading = .blank →
        MaximalRun (before.flatMap Piece.chars) p.chars (after.flatMap Piece.chars)) ∧
      (scan source line).tokens.map (fun t => (t.kind, t.lexeme)) =
        ps.filterMap Piece.token? ++ [(.endOfInput, "")] ∧
      (scan source line).errors.map (fun e => (e.fault, e.lexeme)) = ps.filterMap Piece.error? := by
  have hpieces : Munched source.toList (pieces source.toList) := munched_iff_eq_pieces.mpr rfl
  rw [scan_eq_place]
  refine ⟨pieces source.toList, fun ps' => munched_iff_eq_pieces, ?_, hpieces.flatMap_chars, ?_, ?_,
    errors_place _ _⟩
  · intro p hp
    obtain ⟨before, after, hsplit⟩ := List.append_of_mem hp
    rw [hsplit] at hpieces
    obtain ⟨c, w, hchars, -⟩ := hpieces.of_append.cuts.eq_readPiece
    rw [hchars]
    exact List.cons_ne_nil c w
  · intro before p after hsplit hblank
    rw [hsplit] at hpieces
    exact hpieces.maximalRun hblank
  · rw [List.map_append, tokens_place]
    rfl

end LetLang.Token
