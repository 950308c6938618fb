import LetLang.Proofs.Decimal
import LetLang.Proofs.Token.Munch

/-!
# Tokens as they are written

Every kind of token that a source text can have is written in some way (`Kind.spelling`): a number
in its shortest decimal form, a string with its quotes escaped, and the others as they are. Written
with single blanks between them, tokens are scanned as they are (`scan_spaced`), if names are no
keywords, numbers are finite and not negative, and no backslash of a string is taken for part of an
escape.
-/

namespace LetLang.Token

/-! ### What ends a lexeme -/

/-- No character at the front of the text makes a number, a word or a symbol before it longer. -/
def Stops (rest : List Char) : Prop :=
  ∀ c ∈ rest.head?, ¬ IsLetter c ∧ ¬ IsDigit c ∧ c ∉ ['.', '=', '>']

theorem stops_nil : Stops [] := by
  intro c hc
  cases hc

theorem stops_cons {c : Char} (hletter : ¬ IsLetter c) (hdigit : ¬ IsDigit c)
    (hc : c ∉ ['.', '=', '>']) (rest : List Char) : Stops (c :: rest) := by
  intro d hd
  obtain rfl : c = d := Option.some.inj hd
  exact ⟨hletter, hdigit, hc⟩

theorem Stops.wholeDigits_eq {rest : List Char} (h : Stops rest) : wholeDigits rest = [] := by
  cases rest with
  | nil => rfl
  | cons c cs => exact List.takeWhile_cons_of_neg (mt isDigit_iff.mp (h c rfl).2.1)

theorem Stops.pointDigits_eq {rest : List Char} (h : Stops rest) : pointDigits rest = [] := by
  rw [pointDigits, h.wholeDigits_eq, List.length_nil, List.drop_zero]
  unfold fractionDigits
  split
  · exact absurd List.mem_cons_self (h '.' rfl).2.2
  · rfl

theorem Stops.takeWhile_isWordChar {rest : List Char} (h : Stops rest) :
    rest.takeWhile isWordChar = [] := by
  cases rest with
  | nil => rfl
  | cons c cs =>
    refine List.takeWhile_cons_of_neg (mt isWordChar_iff.mp ?_)
    exact not_or.mpr ⟨(h c rfl).1, (h c rfl).2.1⟩

theorem Stops.ofPair?_eq {rest : List Char} (h : Stops rest) (c : Char) :
    rest.head?.bind (Symbol.ofPair? c) = none := by
  cases rest with
  | nil => rfl
  | cons d ds =>
    have hd := (h d rfl).2.2
    show Symbol.ofPair? c d = none
    -- the second character of every symbol of two is `=` or `>`
    unfold Symbol.ofPair?
    split <;> first | rfl | simp at hd

/-- The number that is read before such a text is the one that is written. -/
theorem Numeral.readNumber_length (n : Numeral) {rest : List Char} (h : Stops rest) :
    (readNumber n.first (n.more ++ pointed n.fraction ++ rest)).2 =
      (n.more ++ pointed n.fraction).length := by
  rw [List.append_assoc]
  obtain ⟨hwhole, hpoint⟩ := n.digits_append h.wholeDigits_eq h.pointDigits_eq
  have hlength : numberLength (n.more ++ (pointed n.fraction ++ rest)) =
      (n.more ++ pointed n.fraction).length := by
    rw [numberLength, hwhole, hpoint, List.length_append, length_pointed]
  obtain ⟨-, hread⟩ | ⟨d, ds, hdrop, hd, -⟩ := readNumber_cases n.first _
  · rw [hread]
    exact hlength
  · rw [hlength, ← List.append_assoc, List.drop_left] at hdrop
    rw [hdrop] at h
    exact absurd hd (h d rfl).1

theorem Word.readWord_length (w : Word) {rest : List Char} (h : Stops rest) :
    (readWord w.first (w.more ++ rest)).2 = w.more.length := by
  have hmore : (w.more ++ rest).takeWhile isWordChar = w.more ++ rest.takeWhile isWordChar :=
    List.takeWhile_append_of_pos fun c hc => isWordChar_iff.mpr (w.more_chars c hc)
  unfold readWord
  dsimp only
  rw [hmore, h.takeWhile_isWordChar, List.append_nil]

/-- The scanner reads a token before such a text as far as it is written. -/
theorem Rule.readPiece_eq {kind : Kind} {c : Char} {w rest : List Char}
    (h : Rule (.token kind) (c :: w) rest) (hrest : Stops rest) :
    readPiece c (w ++ rest) = (.token kind, w.length) := by
  -- the scanner would read another token only by reading further than the rule
  refine h.fits.resolve_left (Nat.not_lt.mpr ?_)
  generalize hw : c :: w = v at h
  cases h with
  | number n =>
    cases hw
    rw [readPiece_of_isDigit n.first_digit]
    exact (n.readNumber_length hrest).le
  | keyword k v =>
    cases hw
    rw [readPiece_of_isLetter v.first_letter]
    exact (v.readWord_length hrest).le
  | identifier v =>
    cases hw
    rw [readPiece_of_isLetter v.first_letter]
    exact (v.readWord_length hrest).le
  | symbol s =>
    rw [readPiece_of_symbol hw.symm]
    obtain ⟨d, hs⟩ | ⟨d, e, hs⟩ := Symbol.spelling_cases s
    · obtain ⟨rfl, rfl⟩ := List.cons.inj (hw.trans hs)
      unfold readSymbol
      rw [List.nil_append, hrest.ofPair?_eq, ofChar?_eq_some.mpr hs]
      exact Nat.le_refl _
    · obtain ⟨rfl, rfl⟩ := List.cons.inj (hw.trans hs)
      unfold readSymbol
      rw [List.cons_append, List.head?_cons, Option.bind_some, ofPair?_eq_some.mpr hs]
      exact Nat.le_refl _
  | quoted q =>
    cases hw
    rw [List.append_assoc]
    show (readQuoted (q.body ++ '"' :: rest)).2 ≤ _
    unfold readQuoted
    rw [q.quotedLength?_eq]
    show q.body.length + 1 ≤ _
    rw [List.length_append]
    exact Nat.le_refl _

/-! ### Names and strings -/

/-- A word that is no keyword. -/
def IsName (name : String) : Prop :=
  (∃ w : Word, name.toList = w.text) ∧ ∀ k : Keyword, name ≠ k.spelling

/-- The text with a backslash before each quote. -/
def escape : List Char → List Char
  | [] => []
  | c :: cs => if c = '"' then '\\' :: '"' :: escape cs else c :: escape cs

/-- With a backslash before each quote the text is read as it is: no other backslash in it is part
of an escape, and none escapes the quote after it. -/
structure Escapable (cs : List Char) : Prop where
  no_tab : ¬ ['\\', 't'] <:+: cs
  no_newline : ¬ ['\\', 'n'] <:+: cs
  last_ne : cs.getLast? ≠ some '\\'

theorem escape_quote (cs : List Char) : escape ('"' :: cs) = '\\' :: '"' :: escape cs := rfl

theorem escape_cons {c : Char} (h : c ≠ '"') (cs : List Char) :
    escape (c :: cs) = c :: escape cs := if_neg h

/-- An escaped text does not begin with a quote. -/
theorem escape_ne_quote (cs rest : List Char) : escape cs ≠ '"' :: rest := by
  cases cs with
  | nil =>
    intro h
    cases h
  | cons c cs =>
    intro h
    by_cases hc : c = '"'
    · rw [hc, escape_quote] at h
      exact absurd (List.cons.inj h).1 (by decide)
    · rw [escape_cons hc] at h
      exact hc (List.cons.inj h).1

theorem allEscaped_escape_text (cs : List Char) : AllEscaped (escape cs) := by
  induction cs with
  | nil => exact allEscaped_nil
  | cons c cs ih =>
    by_cases hc : c = '"'
    · rw [hc, escape_quote]
      exact allEscaped_escape.mpr ih
    · rw [escape_cons hc]
      exact (allEscaped_cons hc fun rest _ => escape_ne_quote cs rest).mpr ih

theorem getLast?_escape (cs : List Char) : (escape cs).getLast? = cs.getLast? := by
  induction cs with
  | nil => rfl
  | cons c cs ih =>
    by_cases hc : c = '"'
    · rw [hc, escape_quote, List.getLast?_cons, List.getLast?_cons, List.getLast?_cons, ih]
      rfl
    · rw [escape_cons hc, List.getLast?_cons, List.getLast?_cons, ih]

/-- A character that is no backslash stands for itself, and so does a backslash before a character
that it does not escape. -/
theorem unescape_cons {c : Char} {cs : List Char}
    (h : c = '\\' → ∀ d ∈ cs.head?, d ∉ ['t', 'n', '"']) :
    unescape (c :: cs) = c :: unescape cs := by
  conv_lhs => unfold unescape
  -- one goal for each of the three escapes, then any other character
  split
  · next heq =>
    obtain ⟨rfl, rfl⟩ := List.cons.inj heq
    exact absurd (h rfl 't' rfl) (by decide)
  · next heq =>
    obtain ⟨rfl, rfl⟩ := List.cons.inj heq
    exact absurd (h rfl 'n' rfl) (by decide)
  · next heq =>
    obtain ⟨rfl, rfl⟩ := List.cons.inj heq
    exact absurd (h rfl '"' rfl) (by decide)
  · next heq =>
    obtain ⟨rfl, rfl⟩ := List.cons.inj heq
    rfl
  · next heq => cases heq

/-- An escaped text is read as the text. -/
theorem unescape_escape {cs : List Char} (htab : ¬ ['\\', 't'] <:+: cs)
    (hnewline : ¬ ['\\', 'n'] <:+: cs) : unescape (escape cs) = cs := by
  induction cs with
  | nil => rfl
  | cons c cs ih =>
    have hcs : unescape (escape cs) = cs :=
      ih (fun h => htab (h.trans (List.suffix_cons c cs).isInfix))
        (fun h => hnewline (h.trans (List.suffix_cons c cs).isInfix))
    by_cases hc : c = '"'
    · rw [hc, escape_quote]
      exact congrArg ('"' :: ·) hcs
    · rw [escape_cons hc, unescape_cons, hcs]
      rintro rfl d hd hmem
      -- the character after the backslash is one of the text, or another backslash
      cases cs with
      | nil => cases hd
      | cons e cs =>
        by_cases he : e = '"'
        · rw [he, escape_quote] at hd
          obtain rfl : '\\' = d := Option.some.inj hd
          exact absurd hmem (by decide)
        · rw [escape_cons he] at hd
          obtain rfl : e = d := Option.some.inj hd
          have hprefix : ['\\', e] <:+: '\\' :: e :: cs := (List.prefix_append ['\\', e] cs).isInfix
          simp only [List.mem_cons, List.not_mem_nil, or_false] at hmem
          obtain rfl | rfl | rfl := hmem
          · exact htab hprefix
          · exact hnewline hprefix
          · exact he rfl

/-- An escapable text, escaped and between quotes, is a string with the text as its value. -/
theorem Escapable.exists_quotation {cs : List Char} (h : Escapable cs) :
    ∃ q : Quotation, q.body = escape cs ∧ q.value = String.ofList cs := by
  have hlast : (escape cs).getLast? ≠ some '\\' := by
    rw [getLast?_escape]
    exact h.last_ne
  refine ⟨⟨escape cs, allEscaped_escape_text cs, hlast⟩, rfl, ?_⟩
  rw [Quotation.value, unescape_escape h.no_tab h.no_newline]

/-! ### Spellings -/

/-- How a token of a kind is written. -/
def Kind.spelling : Kind → String
  | number x => Decimal.text x
  | quoted s => String.ofList ('"' :: (escape s.toList ++ ['"']))
  | identifier name => name
  | keyword word => word.spelling
  | symbol sign => sign.spelling
  | blank => " "
  | endOfInput => ""

/-- A token of the kind, written down, is read as that kind. -/
def Kind.Writable : Kind → Prop
  | number x => Double.isNegative x = false ∧ Double.code x < Double.infinityCode
  | quoted s => Escapable s.toList
  | identifier name => IsName name
  | keyword _ | symbol _ => True
  | blank | endOfInput => False

theorem IsName.rule {name : String} (h : IsName name) (rest : List Char) :
    Rule (.token (.identifier name)) name.toList rest := by
  obtain ⟨⟨w, hw⟩, hkeyword⟩ := h
  obtain rfl : name = String.ofList w.text := by rw [← hw, String.ofList_toList]
  rw [String.toList_ofList]
  refine .identifier w rest fun k hk => hkeyword k ?_
  rw [hk, String.ofList_toList]

/-- Word characters are a word, if the first of them can start one. -/
theorem exists_word {cs : List Char} (hfirst : cs.head?.any isWordStart = true)
    (hall : cs.all isWordChar = true) : ∃ w : Word, w.text = cs := by
  cases cs with
  | nil => cases hfirst
  | cons c cs =>
    have hmore : ∀ d ∈ cs, IsLetter d ∨ IsDigit d := fun d hd =>
      isWordChar_iff.mp (List.all_eq_true.mp hall d (List.mem_cons_of_mem c hd))
    exact ⟨⟨c, cs, isWordStart_iff.mp hfirst, hmore⟩, rfl⟩

/-- Word characters that are no keyword are a name, if the first of them can start a word. -/
theorem isName_of_all {name : String} (hfirst : name.toList.head?.any isWordStart = true)
    (hall : name.toList.all isWordChar = true) (hkeyword : Keyword.ofSpelling? name = none) :
    IsName name := by
  obtain ⟨w, hw⟩ := exists_word hfirst hall
  refine ⟨⟨w, hw.symm⟩, ?_⟩
  rintro k rfl
  rw [Keyword.ofSpelling?_spelling] at hkeyword
  cases hkeyword

theorem rule_keyword (k : Keyword) (rest : List Char) :
    Rule (.token (.keyword k)) k.spelling.toList rest := by
  have hfirst : k.spelling.toList.head?.any isWordStart = true := by cases k <;> rfl
  have hall : k.spelling.toList.all isWordChar = true := by cases k <;> rfl
  obtain ⟨w, hw⟩ := exists_word hfirst hall
  rw [← hw]
  exact .keyword k w rest hw

/-- A rule allows the spelling of a kind. -/
theorem Kind.Writable.rule {kind : Kind} (h : kind.Writable) (rest : List Char) :
    Rule (.token kind) kind.spelling.toList rest := by
  cases kind with
  | number x =>
    obtain ⟨m, htext, hvalue⟩ := Decimal.exists_numeral h.1 h.2
    show Rule _ (Decimal.text x).toList rest
    rw [← htext, String.toList_ofList, ← hvalue]
    exact .number m rest
  | quoted s =>
    obtain ⟨q, hbody, hvalue⟩ := Escapable.exists_quotation h
    have hrule := Rule.quoted q rest
    rw [hvalue, String.ofList_toList, Quotation.text, hbody] at hrule
    rw [Kind.spelling, String.toList_ofList]
    exact hrule
  | identifier name => exact IsName.rule h rest
  | keyword k => exact rule_keyword k rest
  | symbol s => exact .symbol s rest
  | blank => exact h.elim
  | endOfInput => exact h.elim

/-- The spelling of a kind is not empty, and does not begin with a blank. -/
theorem Kind.Writable.exists_cons {kind : Kind} (h : kind.Writable) :
    ∃ c w, kind.spelling.toList = c :: w ∧ ¬ Separates c := by
  obtain ⟨c, w, hw⟩ := (h.rule []).exists_cons
  refine ⟨c, w, hw, fun hc => ?_⟩
  -- a blank at the front would be read, and not the token
  have hrule := h.rule []
  rw [hw] at hrule
  have hread := hrule.readPiece_eq stops_nil
  rw [readPiece_of_separates hc] at hread
  cases hread

/-! ### Texts that are cut into tokens -/

/-- Before `rest`, the text `w` is cut into tokens of the given kinds and blanks between them. -/
def CutAs (w : List Char) (kinds : List Kind) (rest : List Char) : Prop :=
  ∃ ps, pieces (w ++ rest) = ps ++ pieces rest ∧
    (ps.filterMap Piece.token?).map Prod.fst = kinds ∧ ps.filterMap Piece.error? = []

theorem cutAs_nil (rest : List Char) : CutAs [] [] rest := ⟨[], rfl, rfl, rfl⟩

theorem CutAs.append {w w' rest : List Char} {ks ks' : List Kind} (h : CutAs w ks (w' ++ rest))
    (h' : CutAs w' ks' rest) : CutAs (w ++ w') (ks ++ ks') rest := by
  obtain ⟨ps, hpieces, htokens, herrors⟩ := h
  obtain ⟨ps', hpieces', htokens', herrors'⟩ := h'
  refine ⟨ps ++ ps', ?_, ?_, ?_⟩
  · rw [List.append_assoc, hpieces, hpieces', List.append_assoc]
  · rw [List.filterMap_append, List.map_append, htokens, htokens']
  · rw [List.filterMap_append, herrors, herrors', List.append_nil]

/-- A source text that is cut into tokens is scanned as these tokens. -/
theorem CutAs.scan {source : String} {kinds : List Kind} (h : CutAs source.toList kinds [])
    (line : Nat) :
    (scan source line).tokens.map Token.kind = kinds ++ [.endOfInput] ∧
      (scan source line).errors = [] := by
  obtain ⟨ps, hpieces, htokens, herrors⟩ := h
  rw [List.append_nil, pieces_nil, List.append_nil] at hpieces
  constructor
  · have hplace :=
      congrArg (List.map Prod.fst) (tokens_place (pieces source.toList) (.startOf line))
    rw [List.map_map, hpieces, htokens] at hplace
    rw [scan_eq_place, List.map_append, hpieces]
    exact congrArg (· ++ [Kind.endOfInput]) hplace
  · have hplace := errors_place (pieces source.toList) (.startOf line)
    rw [hpieces, herrors] at hplace
    rw [scan_eq_place, hpieces]
    exact List.map_eq_nil_iff.mp hplace

/-- A token is cut off before a text that does not prolong it. -/
theorem Kind.Writable.cutAs {kind : Kind} (h : kind.Writable) {rest : List Char}
    (hrest : Stops rest) : CutAs kind.spelling.toList [kind] rest := by
  have hrule := h.rule rest
  obtain ⟨c, w, hw, -⟩ := h.exists_cons
  refine ⟨[⟨.token kind, kind.spelling.toList⟩], ?_, rfl, rfl⟩
  rw [hw] at hrule ⊢
  rw [List.cons_append, pieces_cons, hrule.readPiece_eq hrest, List.take_left, List.drop_left]
  rfl

/-- A symbol of one character that begins no longer one is cut off before any text. -/
theorem cutAs_symbol {s : Symbol} {c : Char} (hs : s.spelling.toList = [c])
    (hpair : ∀ d, Symbol.ofPair? c d = none) (rest : List Char) :
    CutAs s.spelling.toList [.symbol s] rest := by
  have hnone : rest.head?.bind (Symbol.ofPair? c) = none := by
    cases rest with
    | nil => rfl
    | cons d ds => exact hpair d
  have hread : readPiece c rest = (.token (.symbol s), 0) := by
    rw [readPiece_of_symbol hs, readSymbol, hnone, ofChar?_eq_some.mpr hs]
  refine ⟨[⟨.token (.symbol s), [c]⟩], ?_, rfl, rfl⟩
  rw [hs, List.singleton_append, pieces_cons, hread]
  rfl

/-- Blanks before a text that begins with another character are no token. -/
theorem cutAs_blanks (n : Nat) {rest : List Char} (hrest : ∀ c ∈ rest.head?, ¬ Separates c) :
    CutAs (List.replicate n ' ') [] rest := by
  cases n with
  | zero => exact cutAs_nil rest
  | succ n =>
    have hblank : Separates ' ' := by
      unfold Separates
      decide
    have hstop : rest.takeWhile isBlank = [] := by
      cases rest with
      | nil => rfl
      | cons c cs => exact List.takeWhile_cons_of_neg (mt isBlank_iff.mp (hrest c rfl))
    have hwhile : (List.replicate n ' ' ++ rest).takeWhile isBlank = List.replicate n ' ' := by
      rw [List.takeWhile_append_of_pos, hstop, List.append_nil]
      intro c hc
      rw [List.eq_of_mem_replicate hc]
      rfl
    refine ⟨[⟨.blank, ' ' :: List.replicate n ' '⟩], ?_, rfl, rfl⟩
    rw [List.replicate_succ, List.cons_append, pieces_cons, readPiece_of_separates hblank, hwhile,
      List.take_left, List.drop_left]
    rfl

theorem stops_blank (rest : List Char) : Stops (' ' :: rest) :=
  stops_cons (by unfold IsLetter; decide) (by unfold IsDigit; decide) (by decide) rest

/-- A symbol prolongs no token before it, unless it could be the second half of one. -/
theorem stops_symbol {s : Symbol}
    (hs : s ∉ [.equal, .equalEqual, .arrow, .greater, .greaterEqual]) (rest : List Char) :
    Stops (s.spelling.toList ++ rest) := by
  obtain ⟨c, w, hw⟩ := (Rule.symbol s []).exists_cons
  rw [hw]
  cases s <;> cases hw <;> first
    | exact absurd (by decide) hs
    | exact stops_cons (by unfold IsLetter; decide) (by unfold IsDigit; decide) (by decide) _

/-- Blanks prolong no token. -/
theorem Stops.blanks_append {rest : List Char} (h : Stops rest) (n : Nat) :
    Stops (List.replicate n ' ' ++ rest) := by
  cases n with
  | zero => exact h
  | succ n => exact stops_blank _

/-! ### Scanning what is written -/

/-- Tokens of the given kinds, written with a blank between any two. -/
def spaced (kinds : List Kind) : String := " ".intercalate (kinds.map Kind.spelling)

theorem spaced_cons_cons (k k' : Kind) (ks : List Kind) :
    (spaced (k :: k' :: ks)).toList = k.spelling.toList ++ ' ' :: (spaced (k' :: ks)).toList := by
  unfold spaced
  rw [List.map_cons, List.map_cons, String.intercalate_cons_cons, String.toList_append,
    String.toList_append, List.append_assoc]
  rfl

theorem spaced_singleton (k : Kind) : (spaced [k]).toList = k.spelling.toList :=
  congrArg String.toList String.intercalate_singleton

/-- Tokens with blanks between them are cut into these tokens. -/
theorem cutAs_spaced {kinds : List Kind} (h : ∀ k ∈ kinds, k.Writable) {rest : List Char}
    (hrest : Stops rest) : CutAs (spaced kinds).toList kinds rest := by
  induction kinds with
  | nil => exact cutAs_nil rest
  | cons k ks ih =>
    obtain ⟨hk, hks⟩ := List.forall_mem_cons.mp h
    cases ks with
    | nil =>
      rw [spaced_singleton]
      exact hk.cutAs hrest
    | cons k' ks =>
      -- what follows the blank is a token, so the blank is a piece by itself
      have hnext : ∀ c ∈ ((spaced (k' :: ks)).toList ++ rest).head?, ¬ Separates c := by
        obtain ⟨c, w, hw, hc⟩ := (hks k' List.mem_cons_self).exists_cons
        have hhead : ((spaced (k' :: ks)).toList ++ rest).head? = some c := by
          cases ks with
          | nil => rw [spaced_singleton, hw]; rfl
          | cons k'' ks => rw [spaced_cons_cons, hw]; rfl
        intro d hd
        rw [hhead] at hd
        exact Option.some.inj hd ▸ hc
      rw [spaced_cons_cons]
      exact (hk.cutAs (stops_blank _)).append ((cutAs_blanks 1 hnext).append (ih hks))

/-- A semicolon, with blanks before it, is cut off before any text. -/
theorem cutAs_semicolon (blanks : Nat) (rest : List Char) :
    CutAs (List.replicate blanks ' ' ++ [';']) [.symbol .semicolon] rest := by
  have hnext : ∀ c ∈ ([';'] ++ rest).head?, ¬ Separates c := by
    rintro c ⟨⟩
    unfold Separates
    decide
  exact (cutAs_blanks blanks hnext).append (cutAs_symbol (s := .semicolon) rfl (fun _ => rfl) rest)

/-- Tokens that are written with single blanks between them, and a semicolon after them, are scanned
as they are. -/
theorem scan_spaced {kinds : List Kind} (h : ∀ k ∈ kinds, k.Writable) (blanks line : Nat) :
    let source := spaced kinds ++ String.ofList (List.replicate blanks ' ') ++ ";"
    (scan source line).tokens.map Token.kind = kinds ++ [.symbol .semicolon, .endOfInput] ∧
      (scan source line).errors = [] := by
  intro source
  have hstops : Stops (List.replicate blanks ' ' ++ [';'] ++ []) := by
    rw [List.append_nil]
    exact (stops_symbol (s := .semicolon) (by decide) []).blanks_append blanks
  have hcut : CutAs source.toList (kinds ++ [.symbol .semicolon]) [] := by
    rw [String.toList_append, String.toList_append, String.toList_ofList, List.append_assoc]
    exact (cutAs_spaced h hstops).append (cutAs_semicolon blanks [])
  obtain ⟨htokens, herrors⟩ := hcut.scan line
  rw [List.append_assoc] at htokens
  exact ⟨htokens, herrors⟩

/-! ### Newlines -/

theorem mem_of_mem_escape {c : Char} {cs : List Char} (h : c ∈ escape cs) : c = '\\' ∨ c ∈ cs := by
  induction cs with
  | nil => cases h
  | cons d cs ih =>
    by_cases hd : d = '"'
    · rw [hd, escape_quote, List.mem_cons, List.mem_cons] at h
      rw [hd, List.mem_cons]
      rcases h with h | h | h
      · exact .inl h
      · exact .inr (.inl h)
      · exact (ih h).imp_right .inr
    · rw [escape_cons hd, List.mem_cons] at h
      rw [List.mem_cons]
      rcases h with h | h
      · exact .inr (.inl h)
      · exact (ih h).imp_right .inr

/-- Only strings have newlines in them. -/
theorem Kind.Writable.newline_not_mem {kind : Kind} (h : kind.Writable)
    (hquoted : ∀ s, kind = .quoted s → '\n' ∉ s.toList) : '\n' ∉ kind.spelling.toList := by
  have hnewline : Separates '\n' := by
    unfold Separates
    decide
  cases kind with
  | number x =>
    obtain ⟨m, htext, -⟩ := Decimal.exists_numeral h.1 h.2
    show '\n' ∉ (Decimal.text x).toList
    rw [← htext, String.toList_ofList]
    exact fun hmem => m.not_separates _ hmem hnewline
  | quoted s =>
    intro hmem
    rw [Kind.spelling, String.toList_ofList, List.mem_cons, List.mem_append] at hmem
    rcases hmem with hmem | hmem | hmem
    · exact absurd hmem (by decide)
    · exact (mem_of_mem_escape hmem).elim (absurd · (by decide)) (hquoted s rfl)
    · exact absurd hmem (by decide)
  | identifier name =>
    obtain ⟨⟨w, hw⟩, -⟩ := h
    show '\n' ∉ name.toList
    rw [hw]
    exact fun hmem => w.not_separates _ hmem hnewline
  | keyword k => cases k <;> decide
  | symbol s => cases s <;> decide
  | blank => exact h.elim
  | endOfInput => exact h.elim

theorem newline_not_mem_spaced {kinds : List Kind} (h : ∀ k ∈ kinds, k.Writable)
    (hquoted : ∀ s, .quoted s ∈ kinds → '\n' ∉ s.toList) : '\n' ∉ (spaced kinds).toList := by
  induction kinds with
  | nil => exact List.not_mem_nil
  | cons k ks ih =>
    obtain ⟨hk, hks⟩ := List.forall_mem_cons.mp h
    have hfirst := hk.newline_not_mem fun s hs => hquoted s (hs ▸ List.mem_cons_self)
    have hmore := ih hks fun s hs => hquoted s (List.mem_cons_of_mem k hs)
    cases ks with
    | nil =>
      rw [spaced_singleton]
      exact hfirst
    | cons k' ks =>
      rw [spaced_cons_cons, List.mem_append, List.mem_cons]
      rintro (hmem | hmem | hmem)
      · exact hfirst hmem
      · exact absurd hmem (by decide)
      · exact hmore hmem

end LetLang.Token
