import LetLang.Proofs.Token.Positions
import LetLang.Proofs.Token.Spelling

/-!
# Scanning line by line

A newline after a text changes nothing about what is found in the text, unless the text leaves a
quote open: no number, word or symbol goes on after a newline (`readPiece_append`). What follows the
newline is scanned as a text of its own, whose first line is the next one (`found_blank`). Blanks
before and after the newline are one piece of the whole text, though they are pieces of their own in
the two parts, so the two scans are compared without the blanks.
-/

namespace LetLang.Token

/-! ### What is read before a text that stops it -/

theorem takeWhile_append_of_nil {p : Char → Bool} {rest : List Char} (h : rest.takeWhile p = [])
    (cs : List Char) : (cs ++ rest).takeWhile p = cs.takeWhile p := by
  rw [List.takeWhile_append]
  split_ifs with hall
  · have hself : cs.takeWhile p = cs := (List.takeWhile_prefix p).eq_of_length hall
    rw [h, List.append_nil, hself]
  · rfl

theorem Stops.fractionDigits_append {rest : List Char} (h : Stops rest) (cs : List Char) :
    fractionDigits (cs ++ rest) = fractionDigits cs := by
  cases cs with
  | nil =>
    have hnone := h.pointDigits_eq
    rw [pointDigits, h.wholeDigits_eq] at hnone
    exact hnone
  | cons c cs =>
    by_cases hc : c = '.'
    · rw [hc]
      exact takeWhile_append_of_nil h.wholeDigits_eq cs
    · have hnone (ds : List Char) : fractionDigits (c :: ds) = [] := by
        unfold fractionDigits
        split
        · next heq => exact absurd (List.cons.inj heq).1 hc
        · rfl
      rw [List.cons_append, hnone, hnone]

theorem Stops.readNumber_append {rest : List Char} (h : Stops rest) (c : Char) (cs : List Char) :
    readNumber c (cs ++ rest) = readNumber c cs := by
  have hwhole : wholeDigits (cs ++ rest) = wholeDigits cs :=
    takeWhile_append_of_nil h.wholeDigits_eq cs
  have hpoint : pointDigits (cs ++ rest) = pointDigits cs := by
    have hle : (wholeDigits cs).length ≤ cs.length := (List.takeWhile_prefix _).length_le
    rw [pointDigits, hwhole, List.drop_append_of_le_length hle, h.fractionDigits_append]
    rfl
  have hlength : numberLength (cs ++ rest) = numberLength cs := by
    rw [numberLength, hwhole, hpoint]
    rfl
  have hdrop : (cs ++ rest).drop (numberLength cs) = cs.drop (numberLength cs) ++ rest := by
    apply List.drop_append_of_le_length
    have hsplit := congrArg List.length (number_append_drop cs)
    rw [List.length_append, List.length_append, length_pointed] at hsplit
    rw [numberLength]
    omega
  obtain ⟨hstop, hread⟩ | ⟨d, ds, hd, hletter, hread⟩ := readNumber_cases c cs
  · obtain ⟨-, hread'⟩ | ⟨d, ds, hd, hletter, -⟩ := readNumber_cases c (cs ++ rest)
    · rw [hread, hread', hwhole, hpoint, hlength]
    · -- neither the text nor what follows it goes on with a letter
      rw [hlength, hdrop] at hd
      cases hcs : cs.drop (numberLength cs) with
      | nil =>
        rw [hcs, List.nil_append] at hd
        rw [hd] at h
        exact absurd hletter (h d rfl).1
      | cons e es =>
        rw [hcs, List.cons_append] at hd
        obtain ⟨rfl, -⟩ := List.cons.inj hd
        exact absurd hletter (hstop e es hcs)
  · obtain ⟨hstop', -⟩ | ⟨d', ds', hd', -, hread'⟩ := readNumber_cases c (cs ++ rest)
    · rw [hlength, hdrop, hd] at hstop'
      exact absurd hletter (hstop' d (ds ++ rest) rfl)
    · rw [hlength, hdrop, hd, List.cons_append] at hd'
      obtain ⟨-, rfl⟩ := List.cons.inj hd'
      rw [hread, hread', hlength, takeWhile_append_of_nil h.takeWhile_isWordChar]

theorem Stops.readWord_append {rest : List Char} (h : Stops rest) (c : Char) (cs : List Char) :
    readWord c (cs ++ rest) = readWord c cs := by
  unfold readWord
  rw [takeWhile_append_of_nil h.takeWhile_isWordChar]

/-- A string that is closed does not depend on what follows. -/
theorem readQuoted_append {cs : List Char} (h : (readQuoted cs).1 ≠ .fault .unterminatedString)
    (rest : List Char) : readQuoted (cs ++ rest) = readQuoted cs := by
  unfold readQuoted at h ⊢
  cases hlength : quotedLength? cs with
  | none =>
    rw [hlength] at h
    exact absurd rfl h
  | some n =>
    obtain ⟨q, after, rfl, rfl⟩ := exists_quotation hlength
    rw [List.append_assoc, List.cons_append, q.quotedLength?_eq]
    dsimp only
    rw [List.take_left, List.take_left]

theorem Stops.readSymbol_append {rest : List Char} (h : Stops rest) (c : Char) (cs : List Char) :
    readSymbol c (cs ++ rest) = readSymbol c cs := by
  cases cs with
  | nil =>
    unfold readSymbol
    rw [List.nil_append, h.ofPair?_eq]
    rfl
  | cons d ds => rfl

/-- What is read at a place does not depend on a text that stops it, unless a quote is left open. -/
theorem readPiece_append {c : Char} {cs rest : List Char} (hc : ¬ Separates c)
    (h : (readPiece c cs).1 ≠ .fault .unterminatedString) (hrest : Stops rest) :
    readPiece c (cs ++ rest) = readPiece c cs := by
  unfold readPiece at h ⊢
  rw [if_neg (mt isBlank_iff.mp hc)] at h ⊢
  rw [if_neg (mt isBlank_iff.mp hc)]
  split_ifs at h ⊢
  · exact hrest.readNumber_append c cs
  · exact hrest.readWord_append c cs
  · exact readQuoted_append h rest
  · exact hrest.readSymbol_append c cs

/-! ### What is found in a text -/

theorem found_nil (p : Position) : found p [] = [] := by
  rw [found, pieces_nil]
  rfl

/-- A blank is passed over. -/
theorem found_blank {c : Char} (hc : Separates c) (p : Position) (cs : List Char) :
    found p (c :: cs) = found (p.next c) cs := by
  -- all the blanks at the front are one piece, and the rest is the same with or without the first
  have hskip {d : Char} (hd : Separates d) (q : Position) (ds : List Char) :
      found q (d :: ds) =
        found (q.after (d :: ds.takeWhile isBlank)) (ds.drop (ds.takeWhile isBlank).length) := by
    have htake : ds.take (ds.takeWhile isBlank).length = ds.takeWhile isBlank :=
      (List.prefix_iff_eq_take.mp (List.takeWhile_prefix _)).symm
    rw [found, pieces_cons, readPiece_of_separates hd, htake]
    rfl
  rw [hskip hc]
  cases cs with
  | nil => rfl
  | cons d ds =>
    by_cases hd : Separates d
    · rw [hskip hd, List.takeWhile_cons_of_pos (isBlank_iff.mpr hd)]
      rfl
    · rw [List.takeWhile_cons_of_neg (mt isBlank_iff.mp hd)]
      rfl

/-- What is no blank is found. -/
theorem found_cons {c : Char} {w rest : List Char} {reading : Reading}
    (h : readPiece c (w ++ rest) = (reading, w.length)) (hreading : reading ≠ .blank)
    (p : Position) :
    found p (c :: (w ++ rest)) = ⟨⟨reading, c :: w⟩, p⟩ :: found (p.after (c :: w)) rest := by
  rw [found, pieces_cons, h, place, List.take_left, List.drop_left]
  exact List.filter_cons_of_pos (by simpa [Piece.isFound] using hreading)

/-- What is read where no blank stands is a token or an error. -/
theorem exists_read {c : Char} (hc : ¬ Separates c) (cs : List Char) :
    ∃ w rest reading, cs = w ++ rest ∧ readPiece c cs = (reading, w.length) ∧
      reading ≠ .blank := by
  obtain ⟨w, rest, hcs, hlength, hcut⟩ := exists_cuts c cs
  refine ⟨w, rest, (readPiece c cs).1, hcs, by rw [hlength], fun hblank => ?_⟩
  rw [hblank] at hcut
  obtain ⟨d, v, hv, hall⟩ := hcut.exists_separates
  obtain ⟨rfl, -⟩ := List.cons.inj hv
  exact hc (hall c List.mem_cons_self)

/-- The text is scanned without leaving a quote open. -/
def Closed (p : Position) (cs : List Char) : Prop :=
  ∀ x ∈ found p cs, x.reading ≠ .fault .unterminatedString

/-- In a text and one after it that stops what comes before, the tokens and errors of both are
found. -/
theorem Closed.found_append {cs rest : List Char} {p : Position} (h : Closed p cs)
    (hrest : Stops rest) : found p (cs ++ rest) = found p cs ++ found (p.after cs) rest := by
  -- blanks are passed over one by one, so the induction is on the length and not on the pieces
  induction hn : cs.length using Nat.strong_induction_on generalizing cs p with
  | _ n ih =>
  cases cs with
  | nil =>
    rw [found_nil]
    rfl
  | cons c cs =>
    rw [List.length_cons] at hn
    by_cases hc : Separates c
    · unfold Closed at h
      rw [found_blank hc] at h
      rw [List.cons_append, found_blank hc, found_blank hc, Position.after_cons]
      exact ih cs.length (by omega) h rfl
    · obtain ⟨w, after, reading, rfl, hread, hblank⟩ := exists_read hc cs
      have hfound := found_cons hread hblank p
      obtain ⟨hfirst, hmore⟩ : reading ≠ .fault .unterminatedString ∧
          Closed (p.after (c :: w)) after := by
        unfold Closed at h
        rw [hfound] at h
        exact List.forall_mem_cons.mp h
      -- the first piece is the same when the second text follows
      have hread' : readPiece c (w ++ (after ++ rest)) = (reading, w.length) := by
        rw [← List.append_assoc, readPiece_append hc (by rw [hread]; exact hfirst) hrest, hread]
      have hafter : p.after (c :: (w ++ after)) = (p.after (c :: w)).after after :=
        Position.after_append p (c :: w) after
      rw [List.length_append] at hn
      have hrec := ih after.length (by omega) hmore rfl
      rw [List.cons_append, List.append_assoc, found_cons hread' hblank, hfound, hafter, hrec]
      rfl

theorem stops_newline (rest : List Char) : Stops ('\n' :: rest) :=
  stops_cons (by unfold IsLetter; decide) (by unfold IsDigit; decide) (by decide) rest

/-- A text whose scan reports no open quote leaves none open. -/
theorem closed_of_errors {source : String} {line : Nat}
    (h : ∀ e ∈ (scan source line).errors, e.fault ≠ .unterminatedString) :
    Closed (.startOf line) source.toList := by
  intro x hx hreading
  obtain ⟨⟨reading, chars⟩, position⟩ := x
  obtain rfl : reading = _ := hreading
  refine h ⟨.unterminatedString, String.ofList chars, position⟩ ?_ rfl
  rw [errors_eq_found]
  exact List.mem_filterMap.mpr ⟨_, hx, rfl⟩

/-- **Scanning splits at newlines**: let the scan of `a` report no quote that is left open. The text
`a` with a newline and the text `b` after it has the tokens of `a` without the end of the input,
followed by the tokens that `b` has when its first line comes after the last line of `a`, and it has
the errors of both. Kinds, lexemes and positions are all the same. -/
theorem scan_append_newline {a : String} {line : Nat}
    (ha : ∀ e ∈ (scan a line).errors, e.fault ≠ .unterminatedString) (b : String) :
    let next := line + 1 + a.toList.count '\n'
    ∃ ts last, (scan a line).tokens = ts ++ [last] ∧ last.kind = .endOfInput ∧
      (∀ t ∈ ts, t.kind ≠ .endOfInput) ∧
      (scan (a ++ "\n" ++ b) line).tokens = ts ++ (scan b next).tokens ∧
      (scan (a ++ "\n" ++ b) line).errors = (scan a line).errors ++ (scan b next).errors := by
  intro next
  have hsource : (a ++ "\n" ++ b).toList = a.toList ++ '\n' :: b.toList := by
    rw [String.toList_append, String.toList_append, List.append_assoc]
    rfl
  have hnext : ((Position.startOf line).after a.toList).next '\n' = .startOf next := by
    rw [Position.after_startOf, Position.next, if_pos rfl, Position.ofPrefix]
    show Position.mk (line + a.toList.count '\n' + 1) 1 = ⟨line + 1 + a.toList.count '\n', 1⟩
    rw [Nat.add_right_comm]
  have hfound : found (.startOf line) (a ++ "\n" ++ b).toList =
      found (.startOf line) a.toList ++ found (.startOf next) b.toList := by
    rw [hsource, (closed_of_errors ha).found_append (stops_newline _), found_blank, hnext]
    unfold Separates
    decide
  have hend : (Position.startOf line).after (a ++ "\n" ++ b).toList =
      (Position.startOf next).after b.toList := by
    rw [hsource, Position.after_append, Position.after_cons, hnext]
  obtain ⟨ts, last, htokens, hlast, -, hts⟩ := exists_tokens_scan a line
  refine ⟨ts, last, htokens, hlast, fun t ht => (hts t ht).1, ?_, ?_⟩
  · have hts' : (found (.startOf line) a.toList).filterMap PlacedPiece.token? = ts :=
      (List.append_inj' ((tokens_eq_found a line).symm.trans htokens) rfl).1
    rw [tokens_eq_found, tokens_eq_found, hfound, hend, List.filterMap_append, hts',
      List.append_assoc]
  · rw [errors_eq_found, errors_eq_found, errors_eq_found, hfound, List.filterMap_append]

/-- A string over two lines, an unexpected character and a sign, then the same sign on the next
line. -/
theorem scan_append_newline_sign :
    (∀ e ∈ (scan "\"\n\"?= " 1).errors, e.fault ≠ .unterminatedString) ∧
    (scan ("\"\n\"?= " ++ "\n" ++ "=") 1).tokens =
      [⟨.quoted "\n", "\"\n\"", ⟨1, 1⟩⟩, ⟨.symbol .equal, "=", ⟨2, 3⟩⟩,
        ⟨.symbol .equal, "=", ⟨3, 1⟩⟩, ⟨.endOfInput, "", ⟨3, 2⟩⟩] ∧
    (scan ("\"\n\"?= " ++ "\n" ++ "=") 1).errors = [⟨.unexpectedCharacter, "?", ⟨2, 2⟩⟩] := by
  have htokens : (scan "\"\n\"?= " 1).tokens =
      [⟨.quoted "\n", "\"\n\"", ⟨1, 1⟩⟩, ⟨.symbol .equal, "=", ⟨2, 3⟩⟩] ++
        [⟨.endOfInput, "", ⟨2, 5⟩⟩] := by
    rw [scan_eq_place]
    with_unfolding_all rfl
  have herrors : (scan "\"\n\"?= " 1).errors = [⟨.unexpectedCharacter, "?", ⟨2, 2⟩⟩] := by
    rw [scan_eq_place]
    with_unfolding_all rfl
  have hsecond : (scan "=" 3).tokens =
      [⟨.symbol .equal, "=", ⟨3, 1⟩⟩, ⟨.endOfInput, "", ⟨3, 2⟩⟩] ∧ (scan "=" 3).errors = [] := by
    rw [scan_eq_place]
    with_unfolding_all exact ⟨rfl, rfl⟩
  have hclosed : ∀ e ∈ (scan "\"\n\"?= " 1).errors, e.fault ≠ .unterminatedString := by
    rw [herrors]
    simp
  obtain ⟨ts, last, hfirst, -, -, htokens', herrors'⟩ := scan_append_newline hclosed "="
  have hline : 1 + 1 + "\"\n\"?= ".toList.count '\n' = 3 := by decide
  obtain ⟨rfl, -⟩ := List.append_inj' (htokens.symm.trans hfirst) rfl
  rw [hline, hsecond.1] at htokens'
  rw [hline, hsecond.2, herrors] at herrors'
  exact ⟨hclosed, htokens', herrors'⟩

end LetLang.Token
