import LetLang.Proofs.Token.Lexeme

/-!
# What the scanner reads at a place

What the scanner reads at a place of the text is allowed by a rule, unless it is an unexpected
character (`allowed_readPiece`), and every piece that a rule allows there is shorter or is the same
one (`Rule.fits`). Both are shown for one rule at a time, since the first character of a piece tells
which rules apply.
-/

namespace LetLang.Token

/-! ### Symbols -/

theorem ofChar?_eq_some {c : Char} {s : Symbol} :
    Symbol.ofChar? c = some s ↔ s.spelling.toList = [c] := by
  constructor
  · intro h
    unfold Symbol.ofChar? at h
    split at h <;> cases h <;> rfl
  · intro h
    cases s <;> cases h <;> rfl

theorem ofPair?_eq_some {c d : Char} {s : Symbol} :
    Symbol.ofPair? c d = some s ↔ s.spelling.toList = [c, d] := by
  constructor
  · intro h
    unfold Symbol.ofPair? at h
    split at h <;> cases h <;> rfl
  · intro h
    cases s <;> cases h <;> rfl

/-- A symbol has one character or two. -/
theorem Symbol.spelling_cases (s : Symbol) :
    (∃ c, s.spelling.toList = [c]) ∨ ∃ c d, s.spelling.toList = [c, d] := by
  cases s <;> first | exact .inl ⟨_, rfl⟩ | exact .inr ⟨_, _, rfl⟩

/-! ### Which rule applies -/

theorem readPiece_of_separates {c : Char} (h : Separates c) (cs : List Char) :
    readPiece c cs = (.blank, (cs.takeWhile isBlank).length) := by
  rw [readPiece, if_pos (isBlank_iff.mpr h)]

theorem readPiece_of_isDigit {c : Char} (h : IsDigit c) (cs : List Char) :
    readPiece c cs = readNumber c cs := by
  rw [readPiece, if_neg (mt isBlank_iff.mp h.not_separates), if_pos (isDigit_iff.mpr h)]

theorem readPiece_of_isLetter {c : Char} (h : IsLetter c) (cs : List Char) :
    readPiece c cs = readWord c cs := by
  rw [readPiece, if_neg (mt isBlank_iff.mp h.not_separates),
    if_neg (mt isDigit_iff.mp h.not_isDigit), if_pos (isWordStart_iff.mpr h)]

theorem readPiece_quote (cs : List Char) : readPiece '"' cs = readQuoted cs := rfl

/-- The first character of a symbol begins nothing else. -/
theorem readPiece_of_symbol {s : Symbol} {c : Char} {w : List Char}
    (h : s.spelling.toList = c :: w) (cs : List Char) : readPiece c cs = readSymbol c cs := by
  cases s <;> cases h <;> rfl

/-- A piece of length `k` with a reading is shorter than what was read, or it is what was read. -/
def Fits (reading : Reading) (k : Nat) (read : Reading × Nat) : Prop :=
  k < read.2 ∨ read = (reading, k)

/-- What was read where `c` stands before the text `cs` is a piece that a rule allows there. -/
def Allowed (c : Char) (cs : List Char) (read : Reading × Nat) : Prop :=
  ∃ w rest, cs = w ++ rest ∧ w.length = read.2 ∧ Rule read.1 (c :: w) rest

/-! ### Numbers -/

/-- The digits at the front of a text. -/
def wholeDigits (cs : List Char) : List Char := cs.takeWhile Char.isDigit

/-- The digits of the fraction after the digits at the front of a text. -/
def pointDigits (cs : List Char) : List Char := fractionDigits (cs.drop (wholeDigits cs).length)

/-- The length of the number at the front of a text, of which the first digit may be missing. -/
def numberLength (cs : List Char) : Nat :=
  (wholeDigits cs).length + fractionLength (pointDigits cs)

theorem fractionLength_of_ne_nil {ds : List Char} (h : ds ≠ []) :
    fractionLength ds = ds.length + 1 := by
  rw [fractionLength, if_neg (by simpa using h)]

theorem length_pointed (ds : List Char) : (pointed ds).length = fractionLength ds := by
  cases ds <;> simp [pointed, fractionLength]

theorem isDigit_of_mem_takeWhile {c : Char} {cs : List Char}
    (h : c ∈ cs.takeWhile Char.isDigit) : IsDigit c :=
  isDigit_iff.mp (List.all_eq_true.mp List.all_takeWhile c h)

theorem isDigit_of_mem_fractionDigits {c : Char} {cs : List Char} (h : c ∈ fractionDigits cs) :
    IsDigit c := by
  unfold fractionDigits at h
  split at h
  · exact isDigit_of_mem_takeWhile h
  · cases h

theorem pointed_fractionDigits_isPrefix (cs : List Char) : pointed (fractionDigits cs) <+: cs := by
  unfold fractionDigits
  split
  · next cs =>
    cases hdigits : cs.takeWhile Char.isDigit with
    | nil => exact List.nil_prefix
    | cons d ds =>
      have hprefix := List.takeWhile_prefix (l := cs) Char.isDigit
      rw [hdigits] at hprefix
      exact List.prefix_cons_inj '.' |>.mpr hprefix
  · exact List.nil_prefix

/-- A number stands at the front of the text. -/
theorem number_append_drop (cs : List Char) :
    cs = wholeDigits cs ++ pointed (pointDigits cs) ++ cs.drop (numberLength cs) := by
  have hwhole : cs.take (wholeDigits cs).length = wholeDigits cs :=
    (List.prefix_iff_eq_take.mp (List.takeWhile_prefix _)).symm
  have hpoint := List.prefix_iff_eq_take.mp
    (pointed_fractionDigits_isPrefix (cs.drop (wholeDigits cs).length))
  have htake : cs.take (numberLength cs) = wholeDigits cs ++ pointed (pointDigits cs) := by
    rw [numberLength, List.take_add, hwhole, ← length_pointed, pointDigits, ← hpoint]
  rw [← htake, List.take_append_drop]

/-- Digits in front of a text make the number longer. -/
theorem wholeDigits_append {ds : List Char} (h : ∀ d ∈ ds, IsDigit d) (cs : List Char) :
    wholeDigits (ds ++ cs) = ds ++ wholeDigits cs :=
  List.takeWhile_append_of_pos fun d hd => isDigit_iff.mpr (h d hd)

theorem pointDigits_append {ds : List Char} (h : ∀ d ∈ ds, IsDigit d) (cs : List Char) :
    pointDigits (ds ++ cs) = pointDigits cs := by
  rw [pointDigits, wholeDigits_append h, List.length_append, List.drop_length_add_append,
    ← pointDigits]

theorem wholeDigits_pointed {ds : List Char} (hds : ds ≠ []) (cs : List Char) :
    wholeDigits (pointed ds ++ cs) = [] := by
  cases ds with
  | nil => exact absurd rfl hds
  | cons d ds => rfl

theorem pointDigits_pointed {ds : List Char} (h : ∀ d ∈ ds, IsDigit d) (hds : ds ≠ [])
    (cs : List Char) : pointDigits (pointed ds ++ cs) = ds ++ wholeDigits cs := by
  rw [pointDigits, wholeDigits_pointed hds]
  cases ds with
  | nil => exact absurd rfl hds
  | cons d ds => exact wholeDigits_append h cs

/-- A number is not continued by a letter. -/
theorem numberLength_letter {c : Char} (h : IsLetter c) (cs : List Char) :
    wholeDigits (c :: cs) = [] ∧ pointDigits (c :: cs) = [] := by
  have hwhole : wholeDigits (c :: cs) = [] :=
    List.takeWhile_cons_of_neg (mt isDigit_iff.mp h.not_isDigit)
  have hpoint : c ≠ '.' := by
    rintro rfl
    exact absurd h (by unfold IsLetter; decide)
  refine ⟨hwhole, ?_⟩
  rw [pointDigits, hwhole]
  unfold fractionDigits
  split
  · next heq => exact absurd (List.cons.inj heq).1 hpoint
  · rfl

/-- What is read where a digit stands: a number, or a number that runs into a word. -/
theorem readNumber_cases (c : Char) (cs : List Char) :
    ((∀ d ds, cs.drop (numberLength cs) = d :: ds → ¬ IsLetter d) ∧
      readNumber c cs =
        (.token (.number (Decimal.ofDigits (c :: wholeDigits cs) (pointDigits cs))),
          numberLength cs)) ∨
    ∃ d ds, cs.drop (numberLength cs) = d :: ds ∧ IsLetter d ∧
      readNumber c cs =
        (.fault .invalidToken, numberLength cs + 1 + (ds.takeWhile isWordChar).length) := by
  dsimp only [readNumber, numberLength, pointDigits, wholeDigits]
  generalize cs.takeWhile Char.isDigit = whole
  generalize fractionDigits (cs.drop whole.length) = fraction
  -- what comes after the number decides
  cases cs.drop (whole.length + fractionLength fraction) with
  | nil => exact .inl ⟨by rintro d ds ⟨⟩, rfl⟩
  | cons d ds =>
    by_cases hd : isWordStart d = true
    · exact .inr ⟨d, ds, rfl, isWordStart_iff.mp hd, if_pos hd⟩
    · refine .inl ⟨?_, if_neg hd⟩
      rintro d ds ⟨⟩
      exact mt isWordStart_iff.mpr hd

theorem allowed_readNumber {c : Char} (hc : IsDigit c) (cs : List Char) :
    Allowed c cs (readNumber c cs) := by
  let n : Numeral := {
    first := c
    more := wholeDigits cs
    fraction := pointDigits cs
    first_digit := hc
    more_digits := fun d hd => isDigit_of_mem_takeWhile hd
    fraction_digits := fun d hd => isDigit_of_mem_fractionDigits hd }
  have hlength : (wholeDigits cs ++ pointed (pointDigits cs)).length = numberLength cs := by
    rw [List.length_append, length_pointed, numberLength]
  have hcs := number_append_drop cs
  obtain ⟨-, hread⟩ | ⟨d, ds, hdrop, hd, hread⟩ := readNumber_cases c cs
  · rw [hread]
    exact ⟨_, _, hcs, hlength, .number n _⟩
  · let w : Word := {
      first := d
      more := ds.takeWhile isWordChar
      first_letter := hd
      more_chars := fun e he => isWordChar_iff.mp (List.all_eq_true.mp List.all_takeWhile e he) }
    -- the word goes on after the number for as long as word characters follow
    have hword : d :: ds = w.text ++ ds.dropWhile isWordChar := by
      rw [Word.text, List.cons_append, List.takeWhile_append_dropWhile]
    rw [hdrop, hword, ← List.append_assoc] at hcs
    rw [hread]
    refine ⟨_, _, hcs, ?_, .glued n w _⟩
    show _ = numberLength cs + 1 + w.more.length
    rw [List.length_append, hlength, Word.text, List.length_cons]
    omega

/-- A number that is written at the front of a text is shorter than the number that is found there,
or it has the same digits. -/
theorem Numeral.lt_numberLength_or_eq (n : Numeral) (rest : List Char) :
    let cs := n.more ++ (pointed n.fraction ++ rest)
    (n.more ++ pointed n.fraction).length < numberLength cs ∨
      n.more = wholeDigits cs ∧ n.fraction = pointDigits cs := by
  intro cs
  have hlength : (n.more ++ pointed n.fraction).length =
      n.more.length + fractionLength n.fraction := by
    rw [List.length_append, length_pointed]
  rw [numberLength, wholeDigits_append n.more_digits, pointDigits_append n.more_digits, hlength]
  by_cases hfraction : n.fraction = []
  · -- digits or a fraction that follow belong to the number that is found
    rw [hfraction]
    show _ < (n.more ++ wholeDigits rest).length + fractionLength (pointDigits rest) ∨
      n.more = n.more ++ wholeDigits rest ∧ [] = pointDigits rest
    cases hwhole : wholeDigits rest with
    | nil =>
      cases hpoint : pointDigits rest with
      | nil => exact .inr ⟨(List.append_nil _).symm, rfl⟩
      | cons d ds =>
        left
        rw [List.append_nil, fractionLength_of_ne_nil (List.cons_ne_nil d ds)]
        exact Nat.add_lt_add_left (Nat.succ_pos _) _
    | cons d ds =>
      left
      rw [List.length_append, List.length_cons]
      have hnone : fractionLength [] = 0 := rfl
      omega
  · -- only digits can make the fraction longer
    rw [wholeDigits_pointed hfraction, pointDigits_pointed n.fraction_digits hfraction,
      List.append_nil]
    have hfound : fractionLength (n.fraction ++ wholeDigits rest) =
        n.fraction.length + (wholeDigits rest).length + 1 := by
      rw [fractionLength_of_ne_nil (List.append_ne_nil_of_left_ne_nil hfraction _),
        List.length_append]
    rw [hfound, fractionLength_of_ne_nil hfraction]
    cases wholeDigits rest with
    | nil => exact .inr ⟨rfl, (List.append_nil _).symm⟩
    | cons d ds =>
      left
      rw [List.length_cons]
      omega

/-- A number that is written at the front of a text is part of what is read there. -/
theorem Numeral.fits (n : Numeral) (rest : List Char) :
    Fits (.token (.number n.value)) (n.more ++ pointed n.fraction).length
      (readNumber n.first (n.more ++ pointed n.fraction ++ rest)) := by
  rw [List.append_assoc]
  obtain hlt | ⟨hmore, hpoint⟩ := n.lt_numberLength_or_eq rest
  · left
    obtain ⟨-, hread⟩ | ⟨d, ds, -, -, hread⟩ := readNumber_cases n.first _
    · rwa [hread]
    · rw [hread]
      dsimp only
      omega
  · -- the same number is read, unless a word follows it
    have hlength : (n.more ++ pointed n.fraction).length =
        numberLength (n.more ++ (pointed n.fraction ++ rest)) := by
      rw [numberLength, ← hmore, ← hpoint, List.length_append, length_pointed]
    obtain ⟨-, hread⟩ | ⟨d, ds, -, -, hread⟩ := readNumber_cases n.first _
    · right
      rw [hread, ← hmore, ← hpoint, hlength]
      rfl
    · left
      rw [hread]
      dsimp only
      omega

/-- The number that is found is the one that is written, if what follows does not go on with it. -/
theorem Numeral.digits_append (n : Numeral) {rest : List Char} (hwhole : wholeDigits rest = [])
    (hpoint : pointDigits rest = []) :
    wholeDigits (n.more ++ (pointed n.fraction ++ rest)) = n.more ∧
      pointDigits (n.more ++ (pointed n.fraction ++ rest)) = n.fraction := by
  rw [wholeDigits_append n.more_digits, pointDigits_append n.more_digits]
  by_cases hfraction : n.fraction = []
  · rw [hfraction]
    exact ⟨by rw [pointed, List.nil_append, hwhole, List.append_nil], hpoint⟩
  · rw [wholeDigits_pointed hfraction, pointDigits_pointed n.fraction_digits hfraction]
    exact ⟨List.append_nil _, by rw [hwhole, List.append_nil]⟩

/-- A number that runs into a word is read as far as the word goes. -/
theorem Numeral.glued_fits (n : Numeral) (w : Word) (rest : List Char) :
    Fits (.fault .invalidToken) (n.more ++ pointed n.fraction ++ w.text).length
      (readNumber n.first (n.more ++ pointed n.fraction ++ w.text ++ rest)) := by
  generalize hcs : n.more ++ pointed n.fraction ++ w.text ++ rest = cs
  rw [List.append_assoc (n.more ++ _), List.append_assoc] at hcs
  -- the number that is found ends where the word begins
  have hdigits : wholeDigits cs = n.more ∧ pointDigits cs = n.fraction := by
    obtain ⟨hwhole, hpoint⟩ := numberLength_letter w.first_letter (w.more ++ rest)
    rw [← hcs]
    exact n.digits_append hwhole hpoint
  have hlength : numberLength cs = (n.more ++ pointed n.fraction).length := by
    rw [numberLength, hdigits.1, hdigits.2, List.length_append, length_pointed]
  have hdrop : cs.drop (numberLength cs) = w.first :: (w.more ++ rest) := by
    rw [hlength, ← hcs, ← List.append_assoc, List.drop_left]
    rfl
  obtain ⟨hnone, -⟩ | ⟨d, ds, hds, -, hread⟩ := readNumber_cases n.first cs
  · exact absurd w.first_letter (hnone _ _ hdrop)
  · obtain ⟨rfl, rfl⟩ := List.cons.inj (hds.symm.trans hdrop)
    have hmore : (w.more ++ rest).takeWhile isWordChar = w.more ++ rest.takeWhile isWordChar :=
      List.takeWhile_append_of_pos fun c hc => isWordChar_iff.mpr (w.more_chars c hc)
    have htext : (n.more ++ pointed n.fraction ++ w.text).length =
        numberLength cs + 1 + w.more.length := by
      rw [List.length_append, ← hlength, Word.text, List.length_cons]
      omega
    rw [hread, htext, hmore, List.length_append]
    cases rest.takeWhile isWordChar with
    | nil => exact .inr rfl
    | cons c cs =>
      left
      rw [List.length_cons]
      dsimp only
      omega

/-! ### Words -/

theorem ofSpelling?_eq_some {s : String} {k : Keyword} :
    Keyword.ofSpelling? s = some k ↔ s = k.spelling := by
  constructor
  · intro h
    unfold Keyword.ofSpelling? at h
    split at h <;> cases h <;> rfl
  · rintro rfl
    exact Keyword.ofSpelling?_spelling k

/-- A word is read as a keyword or, if it is none, as an identifier. -/
theorem rule_word (w : Word) (rest : List Char) :
    Rule (.token (wordKind (String.ofList w.text))) w.text rest := by
  unfold wordKind
  cases hk : Keyword.ofSpelling? (String.ofList w.text) with
  | some k =>
    refine .keyword k w rest ?_
    rw [← ofSpelling?_eq_some.mp hk, String.toList_ofList]
  | none =>
    refine .identifier w rest fun k htext => ?_
    rw [htext, String.ofList_toList, Keyword.ofSpelling?_spelling] at hk
    cases hk

/-- A word at the front of a text is part of the word that is read there. -/
theorem Word.fits (w : Word) (rest : List Char) :
    Fits (.token (wordKind (String.ofList w.text))) w.more.length
      (readWord w.first (w.more ++ rest)) := by
  have hmore : (w.more ++ rest).takeWhile isWordChar = w.more ++ rest.takeWhile isWordChar :=
    List.takeWhile_append_of_pos fun c hc => isWordChar_iff.mpr (w.more_chars c hc)
  unfold readWord
  simp only [hmore]
  cases rest.takeWhile isWordChar with
  | nil => exact .inr (by rw [List.append_nil]; rfl)
  | cons c cs =>
    left
    simp only [List.length_append, List.length_cons]
    omega

/-! ### Strings -/

theorem allEscaped_nil : AllEscaped [] := by
  intro before after h
  cases before <;> cases h

theorem not_allEscaped_quote (cs : List Char) : ¬ AllEscaped ('"' :: cs) := by
  intro h
  cases h [] cs rfl

theorem getLast?_cons_of_eq_some {c d : Char} {cs : List Char} (h : cs.getLast? = some d) :
    (c :: cs).getLast? = some d := by
  rw [List.getLast?_cons, h, Option.getD_some]

/-- An escaped quote in front does not matter. -/
theorem allEscaped_escape {cs : List Char} : AllEscaped ('\\' :: '"' :: cs) ↔ AllEscaped cs := by
  constructor
  · intro h before after hcs
    have hlast := h ('\\' :: '"' :: before) after (by rw [hcs]; rfl)
    cases before with
    | nil => cases hlast
    | cons c before => simpa [List.getLast?_cons] using hlast
  · intro h before after hcs
    match before, hcs with
    | [_], hcs =>
      obtain ⟨rfl, -⟩ := List.cons.inj hcs
      rfl
    | _ :: _ :: before, hcs =>
      have hrest := (List.cons.inj (List.cons.inj hcs).2).2
      exact getLast?_cons_of_eq_some (getLast?_cons_of_eq_some (h before after hrest))

/-- A character in front that is no quote, and no backslash before a quote, does not matter. -/
theorem allEscaped_cons {c : Char} {cs : List Char} (hc : c ≠ '"')
    (hcs : ∀ cs', c = '\\' → cs ≠ '"' :: cs') : AllEscaped (c :: cs) ↔ AllEscaped cs := by
  constructor
  · intro h before after hsplit
    have hlast := h (c :: before) after (by rw [hsplit]; rfl)
    cases before with
    | nil => exact absurd hsplit (hcs after (Option.some.inj hlast))
    | cons d before => simpa [List.getLast?_cons] using hlast
  · intro h before after hsplit
    cases before with
    | nil => exact absurd (List.cons.inj hsplit).1 hc
    | cons d before => exact getLast?_cons_of_eq_some (h before after (List.cons.inj hsplit).2)

/-- A string is never closed if each of its quotes is escaped. -/
theorem quotedLength?_eq_none {cs : List Char} : quotedLength? cs = none ↔ AllEscaped cs := by
  fun_induction quotedLength? cs with
  | case1 => simp [allEscaped_nil]
  | case2 cs => simp [not_allEscaped_quote]
  | case3 cs ih => rw [Option.map_eq_none_iff, ih, allEscaped_escape]
  | case4 c cs hc hcs ih =>
    rw [Option.map_eq_none_iff, ih, allEscaped_cons hc fun cs' h h' => hcs cs' h h']

/-- A string that is closed is a quotation. -/
theorem exists_quotation {cs : List Char} {n : Nat} (h : quotedLength? cs = some n) :
    ∃ (q : Quotation) (rest : List Char), cs = q.body ++ '"' :: rest ∧ q.body.length = n := by
  fun_induction quotedLength? cs generalizing n with
  | case1 => cases h
  | case2 cs =>
    cases h
    exact ⟨⟨[], allEscaped_nil, by simp⟩, cs, rfl, rfl⟩
  | case3 cs ih =>
    obtain ⟨m, hm, rfl⟩ := Option.map_eq_some_iff.mp h
    obtain ⟨q, rest, rfl, rfl⟩ := ih hm
    have hlast : ('\\' :: '"' :: q.body).getLast? ≠ some '\\' := by
      have hbody := q.last_ne
      cases hq : q.body.getLast? with
      | none => simp [List.getLast?_cons, hq]
      | some d => simpa [List.getLast?_cons, hq] using hbody
    exact ⟨⟨_, allEscaped_escape.mpr q.allEscaped, hlast⟩, rest, rfl, rfl⟩
  | case4 c cs hc hcs ih =>
    obtain ⟨m, hm, rfl⟩ := Option.map_eq_some_iff.mp h
    obtain ⟨q, rest, rfl, rfl⟩ := ih hm
    have hall : AllEscaped (c :: q.body) :=
      (allEscaped_cons hc fun cs' h h' => hcs (cs' ++ '"' :: rest) h (by rw [h']; rfl)).mpr
        q.allEscaped
    have hlast : (c :: q.body).getLast? ≠ some '\\' := by
      have hbody := q.last_ne
      cases hq : q.body.getLast? with
      | none =>
        -- a backslash directly before the closing quote would escape it
        have hnil : q.body = [] := List.getLast?_eq_none_iff.mp hq
        rw [hnil] at hcs ⊢
        intro h
        exact hcs rest (Option.some.inj h) rfl
      | some d => simpa [List.getLast?_cons, hq] using hbody
    exact ⟨⟨_, hall, hlast⟩, rest, rfl, rfl⟩

/-- Of two quotations at the front of a text, neither is longer: the first quote that is not escaped
closes both. -/
theorem Quotation.not_longer {q q' : Quotation} {rest rest' : List Char}
    (h : q.body ++ '"' :: rest = q'.body ++ '"' :: rest') : ¬ q.body.length < q'.body.length := by
  intro hlt
  have hprefix : q.body ++ ['"'] <+: q'.body := by
    refine List.prefix_of_prefix_length_le ⟨rest, ?_⟩ ⟨'"' :: rest', h.symm⟩ ?_
    · rw [List.append_assoc]
      rfl
    · rw [List.length_append]
      exact hlt
  obtain ⟨after, hafter⟩ := hprefix
  exact q.last_ne (q'.allEscaped q.body after (by rw [← hafter, List.append_assoc]; rfl))

/-- The quote after a quotation closes the string. -/
theorem Quotation.quotedLength?_eq (q : Quotation) (rest : List Char) :
    quotedLength? (q.body ++ '"' :: rest) = some q.body.length := by
  cases hlength : quotedLength? (q.body ++ '"' :: rest) with
  | none => exact absurd (quotedLength?_eq_none.mp hlength q.body rest rfl) q.last_ne
  | some n =>
    obtain ⟨q', rest', hbody, rfl⟩ := exists_quotation hlength
    have hle := not_longer hbody
    have hge := not_longer hbody.symm
    congr 1
    omega

theorem allowed_readQuoted (cs : List Char) : Allowed '"' cs (readQuoted cs) := by
  unfold readQuoted
  cases hlength : quotedLength? cs with
  | none =>
    exact ⟨cs, [], (List.append_nil cs).symm, rfl,
      .unterminated cs (quotedLength?_eq_none.mp hlength)⟩
  | some n =>
    obtain ⟨q, rest, rfl, rfl⟩ := exists_quotation hlength
    refine ⟨q.body ++ ['"'], rest, by rw [List.append_assoc]; rfl, List.length_append, ?_⟩
    simp only [List.take_left]
    exact .quoted q rest

/-! ### Pieces -/

theorem allowed_readSymbol (c : Char) (cs : List Char) :
    Allowed c cs (readSymbol c cs) ∨ readSymbol c cs = (.fault .unexpectedCharacter, 0) := by
  unfold readSymbol
  cases hpair : cs.head?.bind (Symbol.ofPair? c) with
  | some s =>
    obtain ⟨d, hd, hs⟩ := Option.bind_eq_some_iff.mp hpair
    obtain ⟨rest, rfl⟩ := List.head?_eq_some_iff.mp hd
    have hrule := Rule.symbol s rest
    rw [ofPair?_eq_some.mp hs] at hrule
    exact .inl ⟨[d], rest, rfl, rfl, hrule⟩
  | none =>
    cases hs : Symbol.ofChar? c with
    | some s =>
      have hrule := Rule.symbol s cs
      rw [ofChar?_eq_some.mp hs] at hrule
      exact .inl ⟨[], cs, rfl, rfl, hrule⟩
    | none => exact .inr rfl

/-- What the scanner reads is allowed by a rule, unless it is one unexpected character. -/
theorem allowed_readPiece (c : Char) (cs : List Char) :
    Allowed c cs (readPiece c cs) ∨ readPiece c cs = (.fault .unexpectedCharacter, 0) := by
  by_cases hblank : Separates c
  · rw [readPiece_of_separates hblank]
    have hrule : Rule .blank (c :: cs.takeWhile isBlank) (cs.dropWhile isBlank) := by
      refine .blank c _ _ (List.forall_mem_cons.mpr ⟨hblank, fun d hd => ?_⟩)
      exact isBlank_iff.mp (List.all_eq_true.mp List.all_takeWhile d hd)
    exact .inl ⟨_, _, List.takeWhile_append_dropWhile.symm, rfl, hrule⟩
  by_cases hdigit : IsDigit c
  · rw [readPiece_of_isDigit hdigit]
    exact .inl (allowed_readNumber hdigit cs)
  by_cases hletter : IsLetter c
  · rw [readPiece_of_isLetter hletter]
    let w : Word := {
      first := c
      more := cs.takeWhile isWordChar
      first_letter := hletter
      more_chars := fun d hd => isWordChar_iff.mp (List.all_eq_true.mp List.all_takeWhile d hd) }
    exact .inl ⟨_, _, List.takeWhile_append_dropWhile.symm, rfl, rule_word w _⟩
  by_cases hquote : c = '"'
  · rw [hquote, readPiece_quote]
    exact .inl (allowed_readQuoted cs)
  · have hread : readPiece c cs = readSymbol c cs := by
      rw [readPiece, if_neg (mt isBlank_iff.mp hblank), if_neg (mt isDigit_iff.mp hdigit),
        if_neg (mt isWordStart_iff.mp hletter), if_neg hquote]
    rw [hread]
    exact allowed_readSymbol c cs

/-- Whatever a rule allows is shorter than what the scanner reads, or it is what the scanner reads.
-/
theorem Rule.fits {reading : Reading} {c : Char} {w rest : List Char}
    (h : Rule reading (c :: w) rest) : Fits reading w.length (readPiece c (w ++ rest)) := by
  generalize hw : c :: w = v at h
  cases h with
  | blank d v rest hsep =>
    cases hw
    obtain ⟨hc, hv⟩ := List.forall_mem_cons.mp hsep
    have hwhile : (w ++ rest).takeWhile isBlank = w ++ rest.takeWhile isBlank :=
      List.takeWhile_append_of_pos fun d hd => isBlank_iff.mpr (hv d hd)
    rw [readPiece_of_separates hc, hwhile]
    cases rest.takeWhile isBlank with
    | nil => exact .inr (by rw [List.append_nil])
    | cons d ds =>
      left
      rw [List.length_append, List.length_cons]
      dsimp only
      omega
  | number n rest =>
    cases hw
    rw [readPiece_of_isDigit n.first_digit]
    exact n.fits rest
  | glued n v rest =>
    cases hw
    rw [readPiece_of_isDigit n.first_digit]
    exact n.glued_fits v rest
  | keyword k v rest hk =>
    cases hw
    rw [readPiece_of_isLetter v.first_letter]
    have hkind : wordKind (String.ofList v.text) = .keyword k := by
      rw [wordKind, hk, String.ofList_toList, Keyword.ofSpelling?_spelling]
    rw [← hkind]
    exact v.fits rest
  | identifier v rest hk =>
    cases hw
    rw [readPiece_of_isLetter v.first_letter]
    have hkind : wordKind (String.ofList v.text) = .identifier (String.ofList v.text) := by
      unfold wordKind
      cases hspelling : Keyword.ofSpelling? (String.ofList v.text) with
      | none => rfl
      | some k =>
        have htext : v.text = k.spelling.toList := by
          rw [← ofSpelling?_eq_some.mp hspelling, String.toList_ofList]
        exact absurd htext (hk k)
    rw [← hkind]
    exact v.fits rest
  | symbol s rest =>
    rw [readPiece_of_symbol hw.symm]
    unfold readSymbol
    obtain ⟨d, hs⟩ | ⟨d, e, hs⟩ := Symbol.spelling_cases s
    · obtain ⟨rfl, rfl⟩ := List.cons.inj (hw.trans hs)
      rw [List.nil_append]
      -- two characters are longer than one
      cases rest.head?.bind (Symbol.ofPair? c) with
      | some s' => exact .inl Nat.one_pos
      | none =>
        right
        rw [ofChar?_eq_some.mpr hs]
        rfl
    · obtain ⟨rfl, rfl⟩ := List.cons.inj (hw.trans hs)
      have hpair : Symbol.ofPair? c e = some s := ofPair?_eq_some.mpr hs
      right
      rw [List.cons_append, List.head?_cons, Option.bind_some, hpair]
      rfl
  | quoted q rest =>
    cases hw
    right
    rw [List.append_assoc]
    show readQuoted (q.body ++ '"' :: rest) = _
    unfold readQuoted
    rw [q.quotedLength?_eq]
    simp only [List.take_left, List.length_append, List.length_cons, List.length_nil]
    rfl
  | unterminated body hbody =>
    cases hw
    right
    rw [List.append_nil]
    show readQuoted w = _
    unfold readQuoted
    rw [quotedLength?_eq_none.mpr hbody]

end LetLang.Token
