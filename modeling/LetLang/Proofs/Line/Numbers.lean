import LetLang.Proofs.Eval.Nested
import LetLang.Proofs.Line.Written

/-!
# Printed numbers evaluate to themselves

The text of a finite number is a source text for the number, and two such texts with an operator
between them are a source text for what the operator does with the numbers
(`Line.evaluate_printed_numbers`). The text of a number that is not negative is one token
(`Decimal.exists_numeral`). That of a negative number is two, a minus and the text of its magnitude:
the minus is read as an operator, which binds tighter than any other, and what it does with the
magnitude is to set the sign again (`Double.neg_of_isNegative`).
-/

namespace LetLang

open Token (Kind CutAs Stops)

/-! ### Numbers as tokens -/

/-- The number without its sign. -/
def Double.magnitude (x : Float) : Float := ofCode false (code x)

theorem Double.magnitude_eq {x : Float} (h : isNegative x = false) : magnitude x = x := by
  unfold magnitude
  rw [← h, ofCode_code]

/-- The kinds of the tokens that a number is written with. -/
def signedKinds (x : Float) : List Kind :=
  if Double.isNegative x then [.symbol .minus, .number (Double.magnitude x)]
  else [.number (Double.magnitude x)]

/-- The tree that a number is written as. -/
def signedTree (x : Float) (line : Nat) : Expr :=
  if Double.isNegative x then .unary .negate (.literal (.number (Double.magnitude x)) line) line
  else .literal (.number (Double.magnitude x)) line

section

variable {x : Float} (hx : Double.code x < Double.infinityCode)
include hx

theorem writable_magnitude : (Kind.number (Double.magnitude x)).Writable := by
  refine ⟨Double.isNegative_ofCode hx.le, ?_⟩
  unfold Double.magnitude
  rw [Double.code_ofCode hx.le]
  exact hx

/-- A negative number is printed with a minus before its magnitude. -/
theorem toList_text_of_isNegative (hsign : Double.isNegative x = true) :
    (Decimal.text x).toList = '-' :: (Decimal.text (Double.magnitude x)).toList := by
  have hcode : Double.code (Double.magnitude x) = Double.code x := Double.code_ofCode hx.le
  have hpositive : Double.isNegative (Double.magnitude x) = false := Double.isNegative_ofCode hx.le
  have hnumber : ¬ Double.infinityCode < Double.code x := Nat.lt_asymm hx
  unfold Decimal.text
  dsimp only
  rw [hcode, hpositive, hsign, if_neg hnumber, if_neg hnumber, String.toList_ofList,
    String.toList_ofList]
  rfl

/-- The text of a number is cut into its tokens, before any text that does not prolong it. -/
theorem cutAs_text {rest : List Char} (hrest : Stops rest) :
    CutAs (Decimal.text x).toList (signedKinds x) rest := by
  have hmagnitude := (writable_magnitude hx).cutAs hrest
  unfold signedKinds
  cases hsign : Double.isNegative x with
  | true =>
    rw [toList_text_of_isNegative hx hsign]
    exact (Token.cutAs_symbol (s := .minus) rfl (fun _ => rfl) _).append hmagnitude
  | false =>
    rw [Double.magnitude_eq hsign] at hmagnitude ⊢
    exact hmagnitude

/-- The text of a number does not begin with a blank. -/
theorem text_exists_cons : ∃ c w, (Decimal.text x).toList = c :: w ∧ ¬ Token.Separates c := by
  cases hsign : Double.isNegative x with
  | true =>
    refine ⟨'-', _, toList_text_of_isNegative hx hsign, ?_⟩
    unfold Token.Separates
    decide
  | false =>
    have hcons := (writable_magnitude hx).exists_cons
    rw [Double.magnitude_eq hsign] at hcons
    exact hcons

theorem newline_not_mem_text : '\n' ∉ (Decimal.text x).toList := by
  have hmagnitude := (writable_magnitude hx).newline_not_mem nofun
  cases hsign : Double.isNegative x with
  | true =>
    rw [toList_text_of_isNegative hx hsign, List.mem_cons]
    exact not_or.mpr ⟨by decide, hmagnitude⟩
  | false =>
    rw [Double.magnitude_eq hsign] at hmagnitude
    exact hmagnitude

/-- The tree that a number is written as has the number as its value, and nothing else happens. -/
theorem evalWith_signedTree (enter : Expr → Eval Value) (line : Nat) :
    (signedTree x line).evalWith enter = pure (.number x) := by
  unfold signedTree
  cases hsign : Double.isNegative x with
  | true =>
    show (pure (.number (-Double.magnitude x)) : Eval Value) = _
    unfold Double.magnitude
    rw [Double.neg_of_isNegative hsign hx]
  | false =>
    show (pure (.number (Double.magnitude x)) : Eval Value) = _
    rw [Double.magnitude_eq hsign]

end

theorem mapLines_signedTree (x : Float) (f : Nat → Nat) (line : Nat) :
    (signedTree x line).mapLines f = signedTree x (f line) := by
  unfold signedTree
  cases Double.isNegative x <;> rfl

/-- Tokens that a number is written with derive its tree. -/
theorem Grammar.derivesTree_signed {f : Nat → Nat} {m : Nat} {x : Float} {ts : List Token}
    (hts : Have f m (signedKinds x) ts) (line : Nat) : DerivesTree f m ts (signedTree x line) := by
  unfold signedKinds at hts
  unfold signedTree
  cases hsign : Double.isNegative x with
  | true =>
    rw [hsign] at hts
    obtain ⟨sign, more, rfl, hline, hmore⟩ := hts.exists_cons
    obtain ⟨d, rfl, hmeaning⟩ := exists_literal (v := .number (Double.magnitude x)) hmore line
    refine .of_level (.unary ⟨sign.token, .negate, sign.kind_eq⟩ d) (by decide) ?_
    show Expr.unary .negate (d.meaning.mapLines f) (f sign.token.line) = _
    rw [hmeaning, hline]
    rfl
  | false =>
    rw [hsign] at hts
    obtain ⟨d, rfl, hmeaning⟩ := exists_literal (v := .number (Double.magnitude x)) hts line
    exact .of_level d (by decide) hmeaning

/-! ### Texts with blanks between them -/

/-- The texts one after the other, with `blanks i` blanks before the one with the number `i`. -/
def spread (blanks : Nat → Nat) : List String → String
  | [] => ""
  | s :: more =>
    String.ofList (List.replicate (blanks 0) ' ') ++ s ++ spread (fun i => blanks (i + 1)) more

theorem toList_spread_cons (blanks : Nat → Nat) (s : String) (more : List String) :
    (spread blanks (s :: more)).toList = List.replicate (blanks 0) ' ' ++
      (s.toList ++ (spread (fun i => blanks (i + 1)) more).toList) := by
  rw [spread, String.toList_append, String.toList_append, String.toList_ofList, List.append_assoc]

/-- A text that does not begin with a blank is cut as it is without the blanks before it. -/
theorem cutAs_spread (blanks : Nat → Nat) {s : String} {more : List String} {ks ks' : List Kind}
    (hfirst : ∃ c w, s.toList = c :: w ∧ ¬ Token.Separates c)
    (hs : CutAs s.toList ks (spread (fun i => blanks (i + 1)) more).toList)
    (hmore : CutAs (spread (fun i => blanks (i + 1)) more).toList ks' []) :
    CutAs (spread blanks (s :: more)).toList (ks ++ ks') [] := by
  have hnext : ∀ c ∈ (s.toList ++ (spread (fun i => blanks (i + 1)) more).toList ++ []).head?,
      ¬ Token.Separates c := by
    obtain ⟨c, w, hw, hc⟩ := hfirst
    rw [hw]
    rintro d ⟨⟩
    exact hc
  rw [toList_spread_cons]
  rw [← List.append_nil (spread (fun i => blanks (i + 1)) more).toList] at hs
  exact (Token.cutAs_blanks (blanks 0) hnext).append (hs.append hmore)

/-- A symbol, with blanks before it, prolongs no token, unless it could be the second half of one.
-/
theorem stops_spread {s : Symbol} (hs : s ∉ [.equal, .equalEqual, .arrow, .greater, .greaterEqual])
    (blanks : Nat → Nat) (more : List String) :
    Stops (spread blanks (s.spelling :: more)).toList := by
  rw [toList_spread_cons]
  exact (Token.stops_symbol hs _).blanks_append (blanks 0)

theorem newline_not_mem_spread {parts : List String} (h : ∀ s ∈ parts, '\n' ∉ s.toList)
    (blanks : Nat → Nat) : '\n' ∉ (spread blanks parts).toList := by
  induction parts generalizing blanks with
  | nil => exact List.not_mem_nil
  | cons s more ih =>
    obtain ⟨hs, hmore⟩ := List.forall_mem_cons.mp h
    rw [toList_spread_cons, List.mem_append, List.mem_append]
    rintro (hmem | hmem | hmem)
    · exact absurd (List.eq_of_mem_replicate hmem) (by decide)
    · exact hs hmem
    · exact ih hmore _ hmem

/-- A symbol of one character that begins no longer one may have any text after it. -/
theorem cutAs_spread_symbol (blanks : Nat → Nat) {s : Symbol} {c : Char} {more : List String}
    {ks : List Kind} (hs : s.spelling.toList = [c]) (hpair : ∀ d, Symbol.ofPair? c d = none)
    (hmore : CutAs (spread (fun i => blanks (i + 1)) more).toList ks []) :
    CutAs (spread blanks (s.spelling :: more)).toList (.symbol s :: ks) [] :=
  have hwritable : (Kind.symbol s).Writable := trivial
  cutAs_spread blanks hwritable.exists_cons (Token.cutAs_symbol hs hpair _) hmore

/-- So may a number in parentheses. -/
theorem cutAs_spread_group (blanks : Nat → Nat) {x : Float} {more : List String} {ks : List Kind}
    (hx : Double.code x < Double.infinityCode)
    (hmore : CutAs (spread (fun i => blanks (i + 3)) more).toList ks []) :
    CutAs (spread blanks ("(" :: Decimal.text x :: ")" :: more)).toList
      (Expr.grouped (signedKinds x) ++ ks) [] := by
  have hright : CutAs (spread (fun i => blanks (i + 2)) (")" :: more)).toList
      (.symbol .rightParen :: ks) [] :=
    cutAs_spread_symbol _ (s := .rightParen) rfl (fun _ => rfl) hmore
  have hnumber := cutAs_text hx
    (stops_spread (s := .rightParen) (by decide) (fun i => blanks (i + 2)) more)
  have hleft := cutAs_spread_symbol blanks (s := .leftParen) rfl (fun _ => rfl)
    (cutAs_spread _ (text_exists_cons hx) hnumber hright)
  unfold Expr.grouped
  rw [List.cons_append, List.append_assoc]
  exact hleft

/-! ### Evaluating printed numbers -/

namespace Line

open Grammar

/-- A text on one line that is cut into tokens of an expression and a semicolon is parsed as the
expression. -/
theorem parse_of_cutAs {source : String} {ks : List Kind} {t : Expr}
    (hcut : CutAs source.toList (ks ++ [.symbol .semicolon]) [])
    (hnewline : '\n' ∉ source.toList) (n : Nat)
    (hderives : ∀ ts, Have id n ks ts → DerivesTree id n ts t) :
    parse source n = .ok (t.mapLines fun _ => n) := by
  obtain ⟨htokens, herrors⟩ := hcut.scan n
  rw [List.append_assoc] at htokens
  have hlines : ∀ u ∈ (Token.scan source n).tokens, id u.line = n :=
    fun u hu => Token.line_of_mem_tokens hnewline hu
  obtain ⟨t', hparse, hsame⟩ := parse_of_derives (t := t) htokens herrors hlines fun ts hts => by
    obtain ⟨d, hyield, hmeaning⟩ := hderives ts hts
    exact ⟨d.meaning, ⟨.expression d, hyield, rfl, trivial⟩, hmeaning⟩
  rw [Expr.mapLines_id] at hsame
  rw [hparse, hsame]

theorem parse_number {x : Float} (hx : Double.code x < Double.infinityCode) (blanks : Nat → Nat)
    (n : Nat) : parse (spread blanks [Decimal.text x, ";"]) n = .ok (signedTree x n) := by
  have hsemicolon : CutAs (spread (fun i => blanks (i + 1)) [";"]).toList [.symbol .semicolon] [] :=
    cutAs_spread_symbol _ (s := .semicolon) rfl (fun _ => rfl) (Token.cutAs_nil [])
  have hcut := cutAs_spread blanks (text_exists_cons hx)
    (cutAs_text hx (stops_spread (s := .semicolon) (by decide) _ [])) hsemicolon
  have hnewline : '\n' ∉ (spread blanks [Decimal.text x, ";"]).toList := by
    apply newline_not_mem_spread
    rw [List.forall_mem_cons, List.forall_mem_singleton]
    exact ⟨newline_not_mem_text hx, by decide⟩
  have hparse := parse_of_cutAs hcut hnewline n fun ts hts => derivesTree_signed hts n
  rw [mapLines_signedTree] at hparse
  exact hparse

theorem parse_operation {x y : Float} (hx : Double.code x < Double.infinityCode)
    (hy : Double.code y < Double.infinityCode) (op : BinaryOp) (blanks : Nat → Nat) (n : Nat) :
    parse (spread blanks ["(", Decimal.text x, ")", op.symbol.spelling, "(", Decimal.text y, ")",
      ";"]) n = .ok (.binary op (signedTree x n) (signedTree y n) n) := by
  have hwritable : (Kind.symbol op.symbol).Writable := trivial
  have hsemicolon : CutAs (spread (fun i => blanks (i + 7)) [";"]).toList [.symbol .semicolon] [] :=
    cutAs_spread_symbol _ (s := .semicolon) rfl (fun _ => rfl) (Token.cutAs_nil [])
  have hright := cutAs_spread_group (fun i => blanks (i + 4)) hy hsemicolon
  have hop := cutAs_spread (fun i => blanks (i + 3)) hwritable.exists_cons
    (hwritable.cutAs (stops_spread (s := .leftParen) (by decide) _ _)) hright
  have hcut := cutAs_spread_group blanks hx hop
  rw [← List.append_assoc, ← List.append_assoc, List.append_assoc (Expr.grouped _)] at hcut
  have hnewline : '\n' ∉ (spread blanks ["(", Decimal.text x, ")", op.symbol.spelling, "(",
      Decimal.text y, ")", ";"]).toList := by
    apply newline_not_mem_spread
    simp only [List.forall_mem_cons]
    have hop := hwritable.newline_not_mem fun _ h => by cases h
    exact ⟨by decide, newline_not_mem_text hx, by decide, hop, by decide, newline_not_mem_text hy,
      by decide, by decide, List.forall_mem_nil _⟩
  have hparse := parse_of_cutAs hcut hnewline n fun ts hts => derivesTree_binary hts
    (fun us hus => derivesTree_signed hus n) (fun us hus => derivesTree_signed hus n) n
  rw [Expr.mapLines, mapLines_signedTree, mapLines_signedTree] at hparse
  exact hparse

/-- A line whose tree does not look at the context has the value that it has everywhere. -/
theorem evaluate_of_ofExcept {source : String} {tree : Expr} {r : Except RuntimeError Value}
    {depth : Nat} (hparse : parse source 1 = .ok tree)
    (heval : tree.evalUpTo depth = Eval.ofExcept r) (c : Context) :
    evaluate depth source c = (r.mapError .runtime, c) := by
  unfold evaluate
  rw [hparse]
  dsimp only
  rw [heval]
  cases r <;> rfl

/-- **Printed numbers evaluate to themselves.** Let `x` and `y` be finite numbers, possibly `-0`. In
every context the text of `x`, with a semicolon after it, has the value `x`; and the texts of `x`
and `y` in parentheses, with an operator between them and a semicolon after them, have the value
that the operator gives for `x` and `y`. Only the connectives give none. Nothing is printed and the
context stays as it is. There may be any number of blanks before each part. -/
theorem evaluate_printed_numbers {x y : Float} (hx : Double.code x < Double.infinityCode)
    (hy : Double.code y < Double.infinityCode) (op : BinaryOp) (blanks : Nat → Nat) (depth : Nat)
    (c : Context) :
    evaluate depth (spread blanks [(Value.number x).display, ";"]) c = (.ok (.number x), c) ∧
    evaluate depth (spread blanks ["(", (Value.number x).display, ")", op.symbol.spelling, "(",
        (Value.number y).display, ")", ";"]) c =
      (((Value.number x).applyBinary op (.number y) 1).mapError .runtime, c) ∧
    (op ≠ .and → op ≠ .or → ∃ v, (Value.number x).applyBinary op (.number y) 1 = .ok v) := by
  refine ⟨?_, ?_, fun hand hor => ?_⟩
  · have heval : (signedTree x 1).evalUpTo depth = Eval.ofExcept (.ok (.number x)) := by
      rw [Expr.evalUpTo_eq, evalWith_signedTree hx]
      rfl
    exact evaluate_of_ofExcept (parse_number hx blanks 1) heval c
  · have heval : (Expr.binary op (signedTree x 1) (signedTree y 1) 1).evalUpTo depth =
        Eval.ofExcept ((Value.number x).applyBinary op (.number y) 1) := by
      rw [Expr.evalUpTo_eq, Expr.evalWith, evalWith_signedTree hx, evalWith_signedTree hy,
        pure_bind, pure_bind]
    exact evaluate_of_ofExcept (parse_operation hx hy op blanks 1) heval c
  · cases op with
    | and => exact absurd rfl hand
    | or => exact absurd rfl hor
    | _ => exact ⟨_, rfl⟩

/-- Negative zero is a number like the others, also as a divisor. -/
theorem evaluate_printed_zero :
    Double.code (-0.0) < Double.infinityCode ∧ Double.code 1.5 < Double.infinityCode ∧
    evaluate 0 "-0;" {} = (.ok (.number (-0.0)), {}) ∧
    evaluate 0 "(1.5)/(-0);" {} = (.ok (.number (1.5 / -0.0)), {}) := by
  have hzero : Double.code (-0.0) < Double.infinityCode := by decide +kernel
  have hnumber : Double.code 1.5 < Double.infinityCode := by decide +kernel
  have hsource : spread (fun _ => 0) [(Value.number (-0.0)).display, ";"] = "-0;" := by
    decide +kernel
  have hsource' : spread (fun _ => 0) ["(", (Value.number 1.5).display, ")",
      BinaryOp.divide.symbol.spelling, "(", (Value.number (-0.0)).display, ")", ";"] =
      "(1.5)/(-0);" := by
    decide +kernel
  obtain ⟨hself, -, -⟩ := evaluate_printed_numbers hzero hnumber .divide (fun _ => 0) 0 {}
  obtain ⟨-, hquotient, -⟩ := evaluate_printed_numbers hnumber hzero .divide (fun _ => 0) 0 {}
  rw [hsource] at hself
  rw [hsource'] at hquotient
  exact ⟨hzero, hnumber, hself, hquotient⟩

end Line

end LetLang
