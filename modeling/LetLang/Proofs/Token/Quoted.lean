import LetLang.Proofs.Token.Spelling

/-!
# String literals

A text can be written as a string literal, with a backslash before each quote and no other change,
exactly if it is escapable: what stands between the quotes of a literal is always read as an
escapable text (`Quotation.escapable`), and an escapable text is read back as it was written. A
literal does not depend on what follows it (`Quotation.pieces_append`), and what follows it is
scanned as if it stood alone, except that it stands elsewhere (`scan_moved`).
-/

namespace LetLang

namespace Token

/-! ### What an escaped text is read as -/

/-- The characters that a backslash escapes, and what they then stand for. -/
def escapes : List (Char × Char) := [('t', '\t'), ('n', '\n'), ('"', '"')]

theorem unescape_escaped {e v : Char} (h : (e, v) ∈ escapes) (cs : List Char) :
    unescape ('\\' :: e :: cs) = v :: unescape cs := by
  simp only [escapes, List.mem_cons, Prod.mk.injEq, List.not_mem_nil, or_false] at h
  obtain ⟨rfl, rfl⟩ | ⟨rfl, rfl⟩ | ⟨rfl, rfl⟩ := h <;> rfl

/-- What an escape stands for is no backslash and no letter. -/
theorem not_mem_of_mem_escapes {e v : Char} (h : (e, v) ∈ escapes) : v ∉ ['\\', 't', 'n'] := by
  simp only [escapes, List.mem_cons, Prod.mk.injEq, List.not_mem_nil, or_false] at h
  obtain ⟨rfl, rfl⟩ | ⟨rfl, rfl⟩ | ⟨rfl, rfl⟩ := h <;> decide

/-- A text is read from the left: an escape, or a character that stands for itself. -/
theorem unescape_induction {P : List Char → Prop} (nil : P [])
    (escaped : ∀ e v cs, (e, v) ∈ escapes → P cs → P ('\\' :: e :: cs))
    (plain : ∀ c cs, (c = '\\' → ∀ d ∈ cs.head?, d ∉ ['t', 'n', '"']) → P cs → P (c :: cs))
    (cs : List Char) : P cs := by
  fun_induction unescape cs with
  | case1 cs ih => exact escaped 't' '\t' cs (by decide) ih
  | case2 cs ih => exact escaped 'n' '\n' cs (by decide) ih
  | case3 cs ih => exact escaped '"' '"' cs (by decide) ih
  | case4 c cs htab hnewline hquote ih =>
    refine plain c cs (fun hc d hd hmem => ?_) ih
    obtain ⟨cs', rfl⟩ : ∃ cs', cs = d :: cs' := List.head?_eq_some_iff.mp hd
    simp only [List.mem_cons, List.not_mem_nil, or_false] at hmem
    obtain rfl | rfl | rfl := hmem
    · exact htab cs' hc rfl
    · exact hnewline cs' hc rfl
    · exact hquote cs' hc rfl
  | case5 => exact nil

/-- A letter `t` or `n` that is read first was first. -/
theorem head?_of_head?_unescape {cs : List Char} {d : Char} (hd : d ∈ ['t', 'n'])
    (h : (unescape cs).head? = some d) : cs.head? = some d := by
  induction cs using unescape_induction with
  | nil => exact h
  | escaped e v cs hescape _ =>
    rw [unescape_escaped hescape] at h
    obtain rfl : v = d := Option.some.inj h
    exact absurd (List.mem_cons_of_mem _ hd) (not_mem_of_mem_escapes hescape)
  | plain c cs hplain _ =>
    rw [unescape_cons hplain] at h
    exact h

/-- What is read has no escape of a tab or a newline in it. -/
theorem not_infix_unescape {d : Char} (hd : d ∈ ['t', 'n']) (cs : List Char) :
    ¬ ['\\', d] <:+: unescape cs := by
  induction cs using unescape_induction with
  | nil => simp [unescape]
  | escaped e v cs hescape ih =>
    rw [unescape_escaped hescape, List.infix_cons_iff]
    rintro (hstart | hinside)
    · obtain ⟨rfl, -⟩ := List.cons_prefix_cons.mp hstart
      exact not_mem_of_mem_escapes hescape List.mem_cons_self
    · exact ih hinside
  | plain c cs hplain ih =>
    rw [unescape_cons hplain, List.infix_cons_iff]
    rintro (hstart | hinside)
    · -- the letter would be the next character of the text, and escaped
      obtain ⟨rfl, hletter⟩ := List.cons_prefix_cons.mp hstart
      have hhead : (unescape cs).head? = some d := by
        obtain ⟨rest, hrest⟩ := hletter
        rw [← hrest]
        rfl
      refine hplain rfl d (head?_of_head?_unescape hd hhead) ?_
      exact List.mem_append_left ['"'] hd
    · exact ih hinside

theorem eq_nil_of_unescape {cs : List Char} (h : unescape cs = []) : cs = [] := by
  induction cs using unescape_induction with
  | nil => rfl
  | escaped e v cs hescape _ =>
    rw [unescape_escaped hescape] at h
    cases h
  | plain c cs hplain _ =>
    rw [unescape_cons hplain] at h
    cases h

/-- A backslash that is read last was last. -/
theorem getLast?_of_getLast?_unescape {cs : List Char}
    (h : (unescape cs).getLast? = some '\\') : cs.getLast? = some '\\' := by
  induction cs using unescape_induction with
  | nil => exact h
  | escaped e v cs hescape ih =>
    rw [unescape_escaped hescape] at h
    cases hlast : (unescape cs).getLast? with
    | none =>
      rw [List.getLast?_cons, hlast] at h
      obtain rfl : v = '\\' := Option.some.inj h
      exact absurd List.mem_cons_self (not_mem_of_mem_escapes hescape)
    | some d =>
      rw [getLast?_cons_of_eq_some hlast] at h
      exact getLast?_cons_of_eq_some (getLast?_cons_of_eq_some (ih (hlast.trans h)))
  | plain c cs hplain ih =>
    rw [unescape_cons hplain] at h
    cases hlast : (unescape cs).getLast? with
    | none =>
      obtain rfl : cs = [] := eq_nil_of_unescape (List.getLast?_eq_none_iff.mp hlast)
      exact h
    | some d =>
      rw [getLast?_cons_of_eq_some hlast] at h
      exact getLast?_cons_of_eq_some (ih (hlast.trans h))

/-- A backslash with a quote after it is read as a quote, wherever it is. -/
theorem unescape_append_quote (before after : List Char) :
    unescape (before ++ '\\' :: '"' :: after) = unescape before ++ '"' :: unescape after := by
  induction before using unescape_induction with
  | nil => rfl
  | escaped e v cs hescape ih =>
    rw [List.cons_append, List.cons_append, unescape_escaped hescape, unescape_escaped hescape, ih,
      List.cons_append]
  | plain c cs hplain ih =>
    rw [List.cons_append, unescape_cons hplain, unescape_cons, ih, List.cons_append]
    intro hc d hd
    cases cs with
    | nil =>
      obtain rfl : '\\' = d := Option.some.inj hd
      decide
    | cons c' cs => exact hplain hc d hd

namespace Quotation

/-- What a literal stands for can be written as a literal. -/
theorem escapable (q : Quotation) : Escapable (unescape q.body) where
  no_tab := not_infix_unescape (by decide) q.body
  no_newline := not_infix_unescape (by decide) q.body
  last_ne h := q.last_ne (getLast?_of_getLast?_unescape h)

/-- A quote inside a literal is read together with the backslash before it. -/
theorem exists_escape (q : Quotation) {before after : List Char}
    (h : q.body = before ++ '"' :: after) :
    ∃ before', before = before' ++ ['\\'] ∧
      unescape q.body = unescape before' ++ '"' :: unescape after := by
  obtain ⟨before', rfl⟩ := List.getLast?_eq_some_iff.mp (q.allEscaped before after h)
  refine ⟨before', rfl, ?_⟩
  rw [h, List.append_assoc]
  exact unescape_append_quote before' after

/-- A literal ends with its closing quote, whatever follows. -/
theorem pieces_append (q : Quotation) (rest : List Char) :
    pieces (q.text ++ rest) = ⟨.token (.quoted q.value), q.text⟩ :: pieces rest := by
  have hcs : q.body ++ ['"'] ++ rest = q.body ++ '"' :: rest := List.append_assoc ..
  have hread : readPiece '"' (q.body ++ ['"'] ++ rest) =
      (.token (.quoted q.value), (q.body ++ ['"']).length) := by
    rw [readPiece_quote, readQuoted, hcs, q.quotedLength?_eq]
    dsimp only
    rw [List.take_left, List.length_append]
    rfl
  rw [text, List.cons_append, pieces_cons, hread]
  dsimp only
  rw [List.take_left, List.drop_left]

end Quotation

end Token

/-! ### Texts that start elsewhere -/

namespace Position

/-- The place `q` of a text at the start of a line, when the text starts at `p` on that line. -/
def moved (p q : Position) : Position :=
  if q.line = p.line then ⟨q.line, q.column + (p.column - 1)⟩ else q

theorem moved_of_eq (p : Position) (column : Nat) :
    p.moved ⟨p.line, column⟩ = ⟨p.line, column + (p.column - 1)⟩ := if_pos rfl

theorem moved_of_ne {p q : Position} (h : q.line ≠ p.line) : p.moved q = q := if_neg h

theorem moved_startOf {p : Position} (h : 1 ≤ p.column) : p.moved (startOf p.line) = p := by
  rw [startOf, moved_of_eq, Nat.add_sub_cancel' h]

theorem next_newline (q : Position) : q.next '\n' = ⟨q.line + 1, 1⟩ := if_pos rfl

theorem next_of_ne (q : Position) {c : Char} (h : c ≠ '\n') :
    q.next c = ⟨q.line, q.column + 1⟩ := if_neg h

/-- Only the line of `p` is moved, so a character leads on as it did. -/
theorem next_moved {p q : Position} (h : p.line ≤ q.line) (c : Char) :
    (p.moved q).next c = p.moved (q.next c) := by
  obtain ⟨line, column⟩ := q
  have hafter : (⟨line + 1, 1⟩ : Position).line ≠ p.line := Nat.ne_of_gt (Nat.lt_succ_of_le h)
  by_cases hline : line = p.line
  · subst hline
    rw [moved_of_eq]
    by_cases hc : c = '\n'
    · rw [hc, next_newline, next_newline, moved_of_ne hafter]
    · rw [next_of_ne _ hc, next_of_ne _ hc, moved_of_eq, Nat.add_right_comm]
  · rw [moved_of_ne hline]
    by_cases hc : c = '\n'
    · rw [hc, next_newline, moved_of_ne hafter]
    · rw [next_of_ne _ hc]
      exact (moved_of_ne hline).symm

theorem line_le_next (q : Position) (c : Char) : q.line ≤ (q.next c).line := by
  by_cases hc : c = '\n'
  · rw [hc, next_newline]
    exact Nat.le_succ q.line
  · rw [next_of_ne q hc]

theorem line_le_after (q : Position) (cs : List Char) : q.line ≤ (q.after cs).line := by
  induction cs generalizing q with
  | nil => exact Nat.le_refl q.line
  | cons c cs ih => exact Nat.le_trans (line_le_next q c) (ih (q.next c))

theorem one_le_column_after {q : Position} (h : 1 ≤ q.column) (cs : List Char) :
    1 ≤ (q.after cs).column := by
  induction cs generalizing q with
  | nil => exact h
  | cons c cs ih =>
    apply ih
    by_cases hc : c = '\n'
    · rw [hc, next_newline]
    · rw [next_of_ne q hc]
      exact Nat.le_add_left 1 q.column

theorem after_moved {p q : Position} (h : p.line ≤ q.line) (cs : List Char) :
    (p.moved q).after cs = p.moved (q.after cs) := by
  induction cs generalizing q with
  | nil => rfl
  | cons c cs ih =>
    rw [after_cons, after_cons, next_moved h]
    exact ih (Nat.le_trans h (line_le_next q c))

end Position

/-- The error at the place to which the start of its line has moved. -/
def LexicalError.moved (p : Position) (e : LexicalError) : LexicalError :=
  { e with position := p.moved e.position }

namespace Token

/-- The token at the place to which the start of its line has moved. -/
def moved (p : Position) (t : Token) : Token := { t with position := p.moved t.position }

theorem place_moved {p q : Position} (h : p.line ≤ q.line) (ps : List Piece) :
    place (p.moved q) ps = (place q ps).map fun x => ⟨x.toPiece, p.moved x.position⟩ := by
  induction ps generalizing q with
  | nil => rfl
  | cons piece ps ih =>
    rw [place, Position.after_moved h, ih (Nat.le_trans h (Position.line_le_after q piece.chars))]
    rfl

/-- A text that starts at `p` has the tokens and errors that it has at the start of the line, moved
to `p`. -/
theorem scan_moved {p : Position} (h : 1 ≤ p.column) (source : String) :
    let placed := place p (pieces source.toList)
    placed.filterMap PlacedPiece.token? ++ [endAt (p.after source.toList)] =
      (scan source p.line).tokens.map (moved p) ∧
    placed.filterMap PlacedPiece.error? = (scan source p.line).errors.map (.moved p) := by
  have htoken (x : PlacedPiece) :
      (PlacedPiece.mk x.toPiece (p.moved x.position)).token? = x.token?.map (moved p) := by
    obtain ⟨⟨reading, chars⟩, position⟩ := x
    cases reading <;> rfl
  have herror (x : PlacedPiece) :
      (PlacedPiece.mk x.toPiece (p.moved x.position)).error? = x.error?.map (.moved p) := by
    obtain ⟨⟨reading, chars⟩, position⟩ := x
    cases reading <;> rfl
  have hplace := place_moved (Nat.le_refl p.line) (q := .startOf p.line) (pieces source.toList)
  have hafter := Position.after_moved (Nat.le_refl p.line) (q := .startOf p.line) source.toList
  rw [Position.moved_startOf h] at hplace hafter
  rw [hplace, hafter, scan_eq_place]
  simp only [List.filterMap_map, List.map_append, List.map_filterMap, Function.comp_def,
    htoken, herror, and_true]
  rfl

/-! ### Scanning literals -/

/-- An escapable text that is written as a literal is scanned as the literal, and then what follows
is scanned. -/
theorem Escapable.scan_append {s : String} (h : Escapable s.toList) (b : String) (line : Nat) :
    let written := (Kind.quoted s).spelling
    let p := (Position.startOf line).after written.toList
    (scan (written ++ b) line).tokens =
      ⟨.quoted s, written, .startOf line⟩ :: (scan b p.line).tokens.map (moved p) ∧
    (scan (written ++ b) line).errors = (scan b p.line).errors.map (.moved p) := by
  intro written p
  have hp : 1 ≤ p.column := Position.one_le_column_after (Nat.le_refl 1) _
  have hafter : (Position.startOf line).after written.toList = p := rfl
  clear_value p
  obtain ⟨q, hbody, hvalue⟩ := h.exists_quotation
  rw [String.ofList_toList] at hvalue
  have htext : written.toList = q.text := by
    rw [Quotation.text, hbody]
    exact String.toList_ofList
  have hpieces : pieces (written ++ b).toList =
      ⟨.token (.quoted s), written.toList⟩ :: pieces b.toList := by
    rw [String.toList_append, htext, q.pieces_append, hvalue]
  have hfirst : PlacedPiece.token? ⟨⟨.token (.quoted s), written.toList⟩, .startOf line⟩ =
      some ⟨.quoted s, written, .startOf line⟩ := by
    rw [PlacedPiece.token?, String.ofList_toList]
  obtain ⟨htokens, herrors⟩ := scan_moved hp b
  rw [← htokens, ← herrors, scan_eq_place]
  dsimp only
  rw [hpieces, String.toList_append, Position.after_append, hafter, place, hafter,
    List.filterMap_cons_some hfirst, List.filterMap_cons_none rfl]
  exact ⟨rfl, rfl⟩

/-- A literal of a source text is a quotation. -/
theorem exists_quotation_of_mem_tokens {source : String} {line : Nat} {t : Token} {s : String}
    (ht : t ∈ (scan source line).tokens) (hkind : t.kind = .quoted s) :
    ∃ q : Quotation, t.lexeme.toList = q.text ∧ s = q.value := by
  obtain hend | ⟨rest, hrule⟩ := exists_rule_of_mem_tokens ht
  · rw [hkind] at hend
    cases hend
  · rw [hkind] at hrule
    generalize t.lexeme.toList = lexeme at hrule ⊢
    cases hrule with
    | quoted q rest => exact ⟨q, rfl, rfl⟩

/-- **String literals.** An escapable text, written between quotes with a backslash before each of
its quotes, is scanned as the literal that stands for it, with all that was written as its lexeme;
after it come the tokens and errors of what follows. Conversely, every literal of a source text
stands for an escapable text, namely for what its lexeme without the two quotes is read as, and
every other quote of the lexeme is read together with a backslash before it. -/
theorem scan_quoted :
    (∀ (s b : String) (line : Nat), Escapable s.toList →
      let written := (Kind.quoted s).spelling
      let p := (Position.startOf line).after written.toList
      (scan (written ++ b) line).tokens =
        ⟨.quoted s, written, .startOf line⟩ :: (scan b p.line).tokens.map (moved p) ∧
      (scan (written ++ b) line).errors = (scan b p.line).errors.map (.moved p)) ∧
    ∀ (source : String) (line : Nat) (t : Token) (s : String), t ∈ (scan source line).tokens →
      t.kind = .quoted s →
        Escapable s.toList ∧
        ∃ body, t.lexeme.toList = '"' :: (body ++ ['"']) ∧ s.toList = unescape body ∧
          ∀ before after, body = before ++ '"' :: after →
            ∃ before', before = before' ++ ['\\'] ∧
              unescape body = unescape before' ++ '"' :: unescape after := by
  refine ⟨fun s b line hs => hs.scan_append b line, fun source line t s ht hkind => ?_⟩
  obtain ⟨q, hlexeme, rfl⟩ := exists_quotation_of_mem_tokens ht hkind
  rw [Quotation.value, String.toList_ofList]
  exact ⟨q.escapable, q.body, hlexeme, rfl, fun _ _ => q.exists_escape⟩

/-- A backslash and a quote before the letter `b`, written as a literal, and a semicolon. -/
theorem scan_quoted_backslash :
    Escapable "\\\"b".toList ∧
    (scan ("\"\\\\\"b\"" ++ ";") 1).tokens =
      [⟨.quoted "\\\"b", "\"\\\\\"b\"", ⟨1, 1⟩⟩, ⟨.symbol .semicolon, ";", ⟨1, 7⟩⟩,
        ⟨.endOfInput, "", ⟨1, 8⟩⟩] := by
  have hs : Escapable "\\\"b".toList := ⟨by decide, by decide, by decide⟩
  refine ⟨hs, ?_⟩
  have hsemicolon : (scan ";" 1).tokens =
      [⟨.symbol .semicolon, ";", ⟨1, 1⟩⟩, ⟨.endOfInput, "", ⟨1, 2⟩⟩] := by
    rw [scan_eq_place]
    with_unfolding_all rfl
  have hwritten : (Kind.quoted "\\\"b").spelling = "\"\\\\\"b\"" := by decide
  have hafter : (Position.startOf 1).after "\"\\\\\"b\"".toList = ⟨1, 7⟩ := by decide
  have hscan := (scan_quoted.1 "\\\"b" ";" 1 hs).1
  rw [hwritten, hafter, hsemicolon] at hscan
  exact hscan

end Token

end LetLang
