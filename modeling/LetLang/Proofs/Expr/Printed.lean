import LetLang.Expr.Text
import LetLang.Proofs.Expr.MapLines
import LetLang.Proofs.Expr.WellFormed
import LetLang.Proofs.Expr.Written

/-!
# Printed trees determine trees

Two well-formed statements that are printed alike are the same up to line numbers
(`Expr.sameUpToLines_of_text_eq`), if their strings have no quotes in them and their numbers are
finite and not negative.

The printed form of a tree begins with a token, its *lead*, which tells the root of the tree apart
from others, and goes on with its *remainder*, in which the printed forms of its operands stand
between punctuation. A reader finds the lead of whatever is printed (`readLead_text`), so texts that
are equal have equal leads and remainders. There the operands can be taken off one after the other,
since a printed tree is not the beginning of another one (`separable_of_wellFormedTree`).
-/

namespace LetLang

open Token (Kind Stops)

/-- A literal whose printed form tells where it ends. -/
def Literal.Printable : Literal → Prop
  | number x => Double.isNegative x = false ∧ Double.code x < Double.infinityCode
  | quoted s => '"' ∉ s.toList
  | bool _ => True

/-! ### The first token of a text -/

namespace Token

/-- The token at the front of a printed text, and the text after it. A string ends at the next
quote, and an opening parenthesis is a token by itself. -/
def readLead : List Char → Option (Kind × List Char)
  | [] => none
  | c :: cs =>
    if c = '"' then
      some (.quoted (String.ofList (cs.takeWhile (· ≠ '"'))), (cs.dropWhile (· ≠ '"')).tail)
    else if c = '(' then some (.symbol .leftParen, cs)
    else
      match readPiece c cs with
      | (.token kind, n) => some (kind, cs.drop n)
      | _ => none

/-- A kind of token that is written without quotes and parentheses. -/
def Kind.IsBare : Kind → Prop
  | number x => Double.isNegative x = false ∧ Double.code x < Double.infinityCode
  | identifier name => IsName name
  | keyword _ => True
  | symbol s => s ≠ .leftParen
  | quoted _ | blank | endOfInput => False

theorem Kind.IsBare.writable {kind : Kind} (h : kind.IsBare) : kind.Writable := by
  cases kind with
  | number x => exact h
  | identifier name => exact h
  | keyword k => exact trivial
  | symbol s => exact trivial
  | quoted s => exact h.elim
  | blank => exact h.elim
  | endOfInput => exact h.elim

theorem isBare_keyword (k : Keyword) : (Kind.keyword k).IsBare := trivial

theorem IsName.isBare {name : String} (h : IsName name) : (Kind.identifier name).IsBare := h

theorem readLead_quoted {s : List Char} (h : '"' ∉ s) (rest : List Char) :
    readLead ('"' :: (s ++ '"' :: rest)) = some (.quoted (String.ofList s), rest) := by
  have hall : ∀ c ∈ s, decide (c ≠ '"') = true := by
    intro c hc
    apply decide_eq_true
    rintro rfl
    exact h hc
  have htake : (s ++ '"' :: rest).takeWhile (· ≠ '"') = s := by
    rw [List.takeWhile_append_of_pos hall, List.takeWhile_cons_of_neg (by decide), List.append_nil]
  have hdrop : (s ++ '"' :: rest).dropWhile (· ≠ '"') = '"' :: rest := by
    rw [List.dropWhile_append_of_pos hall, List.dropWhile_cons_of_neg (by decide)]
  rw [readLead, if_pos rfl, htake, hdrop]
  rfl

theorem readPiece_leftParen (cs : List Char) :
    readPiece '(' cs = (.token (.symbol .leftParen), 0) := by
  cases cs <;> rfl

/-- The first character of a token without quotes and parentheses is none of them. -/
theorem Kind.IsBare.exists_cons {kind : Kind} (h : kind.IsBare) :
    ∃ c w, kind.spelling.toList = c :: w ∧ c ≠ '"' ∧ c ≠ '(' := by
  have hrule := h.writable.rule []
  obtain ⟨c, w, hw, -⟩ := h.writable.exists_cons
  rw [hw] at hrule
  have hread := hrule.readPiece_eq stops_nil
  refine ⟨c, w, hw, ?_, ?_⟩
  · rintro rfl
    rw [readPiece_quote] at hread
    unfold readQuoted at hread
    split at hread
    · cases (Prod.mk.inj hread).1
      exact h.elim
    · cases (Prod.mk.inj hread).1
  · rintro rfl
    rw [readPiece_leftParen] at hread
    cases (Prod.mk.inj hread).1
    exact h rfl

theorem Kind.IsBare.readLead_append {kind : Kind} (h : kind.IsBare) {rest : List Char}
    (hrest : Stops rest) : readLead (kind.spelling.toList ++ rest) = some (kind, rest) := by
  have hrule := h.writable.rule rest
  obtain ⟨c, w, hw, hquote, hparen⟩ := h.exists_cons
  rw [hw] at hrule ⊢
  rw [List.cons_append, readLead, if_neg hquote, if_neg hparen, hrule.readPiece_eq hrest]
  simp only [List.drop_left]

end Token

namespace Expr

/-! ### Leads and remainders -/

/-- The token that the printed form of a tree begins with. -/
def lead : Expr → Kind
  | literal v _ => v.kind
  | unary op _ _ => .symbol op.symbol
  | binary op _ _ _ => .symbol op.symbol
  | conditional .. => .keyword .if_
  | var name _ => .identifier name
  | letIn .. => .keyword .let_
  | function .. => .keyword .function
  | call .. => .symbol .leftParen

/-- Texts with a comma and a blank before each of them. -/
def commaLed (texts : List String) : List Char := texts.flatMap fun t => ',' :: ' ' :: t.toList

/-- What the printed form of a call goes on with after the name. -/
def argumentsText : List Expr → List Char
  | [] => [')']
  | args => ' ' :: '[' :: ((commaSeparated (texts args)).toList ++ [']', ')'])

/-- The printed form of a binding. -/
def bindingText (name : String) (value : Expr) : List Char :=
  '=' :: ' ' :: '(' :: (name.toList ++ ' ' :: (value.text.toList ++ [')']))

/-- What the printed form of a tree goes on with after its lead. -/
def remainder : Expr → List Char
  | literal .. | var .. => []
  | unary _ operand _ => ' ' :: '(' :: (operand.text.toList ++ [')'])
  | binary _ left right _ =>
    ' ' :: '(' :: (left.text.toList ++ ',' :: ' ' :: (right.text.toList ++ [')']))
  | conditional c t e _ =>
    ['-', 'e', 'l', 's', 'e', ' ', '('] ++ (c.text.toList ++ ',' :: ' ' :: (t.text.toList ++
      ',' :: ' ' :: (e.text.toList ++ [')'])))
  | letIn bindings body _ =>
    ['-', 'i', 'n', ' ', '\x7b'] ++ ((commaSeparated (bindingTexts bindings)).toList ++
      '\x7d' :: '(' :: (body.text.toList ++ [')']))
  | function name params body _ =>
    ' ' :: (name.toList ++ '(' :: ((commaSeparated params).toList ++
      ([')', ' ', '=', '>', ' '] ++ body.text.toList)))
  | call name args _ => ['c', 'a', 'l', 'l', ' '] ++ (name.toList ++ argumentsText args)

theorem commaLed_cons (t : String) (ts : List String) :
    commaLed (t :: ts) = ',' :: ' ' :: (t.toList ++ commaLed ts) := rfl

/-- Texts with commas between them are these texts with a comma before each, but for the first
comma. -/
theorem commaLed_eq {ts : List String} (h : ts ≠ []) :
    commaLed ts = ',' :: ' ' :: (commaSeparated ts).toList := by
  induction ts with
  | nil => exact absurd rfl h
  | cons t ts ih =>
    rw [commaLed_cons]
    cases ts with
    | nil =>
      rw [commaSeparated, String.intercalate_singleton]
      simp [commaLed]
    | cons u ts =>
      rw [ih (List.cons_ne_nil u ts)]
      unfold commaSeparated
      rw [String.intercalate_cons_cons, String.toList_append, String.toList_append,
        List.append_assoc]
      rfl

/-- A text without quotes is not changed by escaping. -/
theorem escape_eq_self {cs : List Char} (h : '"' ∉ cs) : Token.escape cs = cs := by
  induction cs with
  | nil => rfl
  | cons c cs ih =>
    rw [List.mem_cons, not_or] at h
    rw [Token.escape_cons (Ne.symm h.1), ih h.2]

/-- A literal is printed as its token is written, unless that escapes a quote. -/
theorem text_eq_spelling {v : Literal} (h : ∀ s, v = .quoted s → '"' ∉ s.toList) :
    v.text = v.kind.spelling := by
  cases v with
  | number x => rfl
  | quoted s =>
    show "\"" ++ s ++ "\"" = String.ofList ('"' :: (Token.escape s.toList ++ ['"']))
    rw [escape_eq_self (h s rfl), ← String.toList_inj, String.toList_ofList, String.toList_append,
      String.toList_append, List.append_assoc]
    rfl
  | bool b => cases b <;> rfl

/-- The printed form of a tree is its lead and its remainder. -/
theorem toList_text {e : Expr} (h : ∀ s n, e = literal (.quoted s) n → '"' ∉ s.toList) :
    e.text.toList = e.lead.spelling.toList ++ e.remainder := by
  have hopen : " (".toList = [' ', '('] := rfl
  have hcomma : ", ".toList = [',', ' '] := rfl
  have hclose : ")".toList = [')'] := rfl
  cases e with
  | literal v n =>
    have hquoted : ∀ s, v = .quoted s → '"' ∉ s.toList := fun s hs => h s n (by rw [hs])
    rw [text, lead, remainder, text_eq_spelling hquoted, List.append_nil]
  | unary op operand n =>
    simp only [text, remainder, lead, Kind.spelling, String.toList_append, List.append_assoc, hopen,
      hclose, List.cons_append, List.nil_append]
  | binary op left right n =>
    simp only [text, remainder, lead, Kind.spelling, String.toList_append, List.append_assoc, hopen,
      hcomma, hclose, List.cons_append, List.nil_append]
  | conditional c t e n =>
    have hif : "if-else (".toList = Keyword.if_.spelling.toList ++
        ['-', 'e', 'l', 's', 'e', ' ', '('] := rfl
    simp only [text, remainder, lead, Kind.spelling, String.toList_append, List.append_assoc, hif,
      hcomma, hclose, List.cons_append, List.nil_append]
  | var name n => rw [text, lead, remainder, Kind.spelling, List.append_nil]
  | letIn bs body n =>
    have hlet : "let-in \x7b".toList = Keyword.let_.spelling.toList ++
        ['-', 'i', 'n', ' ', '\x7b'] := rfl
    have hin : "\x7d(".toList = ['\x7d', '('] := rfl
    simp only [text, remainder, lead, Kind.spelling, String.toList_append, List.append_assoc, hlet,
      hin, hclose, List.cons_append, List.nil_append]
  | function name params body n =>
    have hfunction : "function ".toList = Keyword.function.spelling.toList ++ [' '] := rfl
    have hparen : "(".toList = ['('] := rfl
    have harrow : ") => ".toList = [')', ' ', '=', '>', ' '] := rfl
    simp only [text, remainder, lead, Kind.spelling, String.toList_append, List.append_assoc,
      hfunction, hparen, harrow, List.cons_append, List.nil_append]
  | call name args n =>
    have hcall : "(call ".toList = Symbol.leftParen.spelling.toList ++
        ['c', 'a', 'l', 'l', ' '] := rfl
    cases args with
    | nil =>
      simp only [text, texts, callText, remainder, argumentsText, lead, Kind.spelling,
        String.toList_append, List.append_assoc, hcall, hclose]
    | cons e es =>
      have hbracket : " [".toList = [' ', '['] := rfl
      have hend : "])".toList = [']', ')'] := rfl
      simp only [text, texts, callText, remainder, argumentsText, lead, Kind.spelling,
        String.toList_append, List.append_assoc, hcall, hbracket, hend, List.cons_append,
        List.nil_append]

/-- The root of a tree has an allowed literal or a name of the language, if it is a leaf. -/
def PrintableRoot : Expr → Prop
  | literal v _ => v.Printable
  | var name _ => Token.IsName name
  | _ => True

theorem WellFormedTree.printableRoot {e : Expr} (h : e.WellFormedTree Literal.Printable) :
    e.PrintableRoot := by
  cases e with
  | literal v n => exact wellFormedTree_literal.mp h
  | var name n => exact wellFormedTree_var.mp h
  | _ => exact trivial

/-- The characters that stand after a token or a tree in printed forms, but for the blank. -/
def punctuation : List Char := ['-', '(', ')', ',', ']', '\x7d']

/-- Punctuation prolongs no token. -/
theorem stops_punctuation {c : Char} (h : c ∈ punctuation) (rest : List Char) :
    Stops (c :: rest) := by
  simp only [punctuation, List.mem_cons, List.not_mem_nil, or_false] at h
  obtain rfl | rfl | rfl | rfl | rfl | rfl := h <;>
    exact Token.stops_cons (by unfold Token.IsLetter; decide) (by unfold Token.IsDigit; decide)
      (by decide) rest

/-- What follows a text among texts with commas is a comma, or what comes after all of them. -/
theorem stops_commaLed (ts : List String) {rest : List Char} (h : Stops rest) :
    Stops (commaLed ts ++ rest) := by
  cases ts with
  | nil => exact h
  | cons t ts => exact stops_punctuation (by decide) _

/-- The reader finds the lead of a printed tree, and leaves its remainder. -/
theorem readLead_text {e : Expr} (h : e.PrintableRoot) {r : List Char} (hr : Stops r) :
    Token.readLead (e.text.toList ++ r) = some (e.lead, e.remainder ++ r) := by
  have hquoted : ∀ s n, e = literal (.quoted s) n → '"' ∉ s.toList := by
    rintro s n rfl
    exact h
  rw [toList_text hquoted, List.append_assoc]
  cases e with
  | literal v n =>
    cases v with
    | number x =>
      have hbare : (Kind.number x).IsBare := h
      exact hbare.readLead_append hr
    | quoted s =>
      show Token.readLead ((Kind.quoted s).spelling.toList ++ r) = _
      rw [Kind.spelling, escape_eq_self (hquoted s n rfl), String.toList_ofList, List.cons_append,
        List.append_assoc]
      have hread := Token.readLead_quoted (hquoted s n rfl) r
      rw [String.ofList_toList] at hread
      exact hread
    | bool b => cases b <;> exact (Token.isBare_keyword _).readLead_append hr
  | unary op operand n =>
    have hbare : (Kind.symbol op.symbol).IsBare := by cases op <;> exact Symbol.noConfusion
    exact hbare.readLead_append (Token.stops_blank _)
  | binary op left right n =>
    have hbare : (Kind.symbol op.symbol).IsBare := by cases op <;> exact Symbol.noConfusion
    exact hbare.readLead_append (Token.stops_blank _)
  | conditional c t e n =>
    exact (Token.isBare_keyword .if_).readLead_append (stops_punctuation (by decide) _)
  | var name n => exact (Token.IsName.isBare h).readLead_append hr
  | letIn bs body n =>
    exact (Token.isBare_keyword .let_).readLead_append (stops_punctuation (by decide) _)
  | function name params body n =>
    exact (Token.isBare_keyword .function).readLead_append (Token.stops_blank _)
  | call name args n =>
    have hspelling : Symbol.leftParen.spelling.toList = ['('] := rfl
    rw [lead, Kind.spelling, hspelling, List.singleton_append, Token.readLead, if_neg (by decide),
      if_pos rfl]

/-- Names that are printed alike are the same, if nothing prolongs them. -/
theorem eq_of_name_append {x x' : String} (h : Token.IsName x) (h' : Token.IsName x')
    {r r' : List Char} (hr : Stops r) (hr' : Stops r') (htext : x.toList ++ r = x'.toList ++ r') :
    x = x' ∧ r = r' := by
  have hread := h.isBare.readLead_append hr
  have hread' := h'.isBare.readLead_append hr'
  have hsame : (Kind.identifier x).spelling.toList ++ r =
      (Kind.identifier x').spelling.toList ++ r' := htext
  rw [hsame, hread'] at hread
  obtain ⟨hkind, hrest⟩ := Prod.mk.inj (Option.some.inj hread)
  exact ⟨(Kind.identifier.inj hkind).symm, hrest.symm⟩

/-! ### Taking printed trees apart -/

/-- What the root of a tree is. The sign of an operator does not tell the number of its operands. -/
inductive Root where
  | literal
  | operator
  | conditional
  | var
  | letIn
  | function
  | call

/-- What the root of a tree is. -/
def root : Expr → Root
  | literal .. => .literal
  | unary .. | binary .. => .operator
  | conditional .. => .conditional
  | var .. => .var
  | letIn .. => .letIn
  | function .. => .function
  | call .. => .call

/-- What the root of a tree with the given lead is. -/
def rootOfLead : Kind → Root
  | .keyword .if_ => .conditional
  | .keyword .let_ => .letIn
  | .keyword .function => .function
  | .identifier _ => .var
  | .symbol .leftParen => .call
  | .symbol _ => .operator
  | _ => .literal

theorem rootOfLead_lead (e : Expr) : rootOfLead e.lead = e.root := by
  cases e with
  | literal v n =>
    cases v with
    | bool b => cases b <;> rfl
    | _ => rfl
  | unary op operand n => cases op <;> rfl
  | binary op left right n => cases op <;> rfl
  | _ => rfl

theorem root_eq_of_lead_eq {e e' : Expr} (h : e.lead = e'.lead) : e.root = e'.root := by
  rw [← rootOfLead_lead, ← rootOfLead_lead, h]

theorem kind_injective {v v' : Literal} (h : v.kind = v'.kind) : v = v' := by
  cases v with
  | number x =>
    cases v' with
    | number y => exact congrArg Literal.number (Kind.number.inj h)
    | quoted t => cases h
    | bool b => cases b <;> cases h
  | quoted s =>
    cases v' with
    | number y => cases h
    | quoted t => exact congrArg Literal.quoted (Kind.quoted.inj h)
    | bool b => cases b <;> cases h
  | bool a =>
    cases v' with
    | number y => cases a <;> cases h
    | quoted t => cases a <;> cases h
    | bool b => cases a <;> cases b <;> first | rfl | cases h

/-- The printed forms of two trees come apart: if they are equal, together with what follows them,
then the trees are the same up to line numbers, and what follows them is the same. -/
def Separable (e e' : Expr) : Prop :=
  ∀ r r', Stops r → Stops r' → e.text.toList ++ r = e'.text.toList ++ r' →
    e.SameUpToLines e' ∧ r = r'

theorem Separable.symm {e e' : Expr} (h : Separable e e') : Separable e' e := by
  intro r r' hr hr' htext
  obtain ⟨hsame, hrest⟩ := h r' r hr' hr htext.symm
  exact ⟨hsame.symm, hrest.symm⟩

/-- Before punctuation, trees come apart, and the punctuation is the same. -/
theorem Separable.of_punctuation {e e' : Expr} (h : Separable e e') {c c' : Char}
    {r r' : List Char} (hc : c ∈ punctuation) (hc' : c' ∈ punctuation)
    (htext : e.text.toList ++ c :: r = e'.text.toList ++ c' :: r') :
    e.SameUpToLines e' ∧ c = c' ∧ r = r' := by
  obtain ⟨hsame, hrest⟩ := h _ _ (stops_punctuation hc r) (stops_punctuation hc' r') htext
  exact ⟨hsame, List.cons.inj hrest⟩

/-- Trees come apart if they do so after their leads, should these be the same. -/
theorem separable_of_remainder {e e' : Expr} (h : e.PrintableRoot) (h' : e'.PrintableRoot)
    (hremainder : e.lead = e'.lead → ∀ r r', Stops r → Stops r' →
      e.remainder ++ r = e'.remainder ++ r' → e.SameUpToLines e' ∧ r = r') : Separable e e' := by
  intro r r' hr hr' htext
  -- the reader finds both leads at the front of one text
  have hread := readLead_text h hr
  rw [htext, readLead_text h' hr'] at hread
  obtain ⟨hlead, hrest⟩ := Prod.mk.inj (Option.some.inj hread)
  exact hremainder hlead.symm r r' hr hr' hrest.symm

theorem separable_of_root_ne {e e' : Expr} (h : e.PrintableRoot) (h' : e'.PrintableRoot)
    (hne : e.root ≠ e'.root) : Separable e e' := by
  apply separable_of_remainder h h'
  intro hlead
  exact absurd (root_eq_of_lead_eq hlead) hne

/-! ### One constructor at a time -/

section

variable {n n' : Nat}

theorem separable_literal {v v' : Literal} (h : v.Printable) (h' : v'.Printable) :
    Separable (literal v n) (literal v' n') := by
  refine separable_of_remainder h h' fun hlead r r' _ _ hrest => ?_
  exact ⟨congrArg (literal · 0) (kind_injective hlead), hrest⟩

theorem separable_var {x x' : String} (h : Token.IsName x) (h' : Token.IsName x') :
    Separable (var x n) (var x' n') := by
  refine separable_of_remainder h h' fun hlead r r' _ _ hrest => ?_
  exact ⟨congrArg (var · 0) (Kind.identifier.inj hlead), hrest⟩

theorem separable_unary {op op' : UnaryOp} {a a' : Expr} (ha : Separable a a') :
    Separable (unary op a n) (unary op' a' n') := by
  refine separable_of_remainder trivial trivial fun hlead r r' _ _ hrest => ?_
  simp only [remainder, List.cons_append, List.append_assoc, List.nil_append, List.cons.injEq,
    true_and] at hrest
  obtain ⟨hsame, -, hrest⟩ := ha.of_punctuation (by decide) (by decide) hrest
  have hop : op = op' := UnaryOp.symbol_injective (Kind.symbol.inj hlead)
  exact ⟨congrArg₂ (unary · · 0) hop hsame, hrest⟩

/-- The same sign can be that of an operator with one operand and of one with two, but after the
first operand stands a parenthesis here and a comma there. -/
theorem separable_unary_binary {op : UnaryOp} {op' : BinaryOp} {a left right : Expr}
    (ha : Separable a left) : Separable (unary op a n) (binary op' left right n') := by
  refine separable_of_remainder trivial trivial fun hlead r r' _ _ hrest => ?_
  simp only [remainder, List.cons_append, List.append_assoc, List.nil_append, List.cons.injEq,
    true_and] at hrest
  obtain ⟨-, hmark, -⟩ := ha.of_punctuation (by decide) (by decide) hrest
  exact absurd hmark (by decide)

theorem separable_binary {op op' : BinaryOp} {left left' right right' : Expr}
    (hleft : Separable left left') (hright : Separable right right') :
    Separable (binary op left right n) (binary op' left' right' n') := by
  refine separable_of_remainder trivial trivial fun hlead r r' _ _ hrest => ?_
  simp only [remainder, List.cons_append, List.append_assoc, List.nil_append, List.cons.injEq,
    true_and] at hrest
  obtain ⟨hsameLeft, -, hrest⟩ := hleft.of_punctuation (by decide) (by decide) hrest
  obtain ⟨hsameRight, -, hrest⟩ :=
    hright.of_punctuation (by decide) (by decide) (List.cons.inj hrest).2
  have hop : op = op' := BinaryOp.symbol_injective (Kind.symbol.inj hlead)
  refine ⟨?_, hrest⟩
  show binary op (left.mapLines fun _ => 0) (right.mapLines fun _ => 0) 0 = _
  rw [hop, hsameLeft, hsameRight]
  rfl

theorem separable_conditional {c c' t t' e e' : Expr} (hc : Separable c c') (ht : Separable t t')
    (he : Separable e e') : Separable (conditional c t e n) (conditional c' t' e' n') := by
  refine separable_of_remainder trivial trivial fun hlead r r' _ _ hrest => ?_
  simp only [remainder, List.cons_append, List.append_assoc, List.nil_append, List.cons.injEq,
    true_and] at hrest
  obtain ⟨hsamec, -, hrest⟩ := hc.of_punctuation (by decide) (by decide) hrest
  obtain ⟨hsamet, -, hrest⟩ := ht.of_punctuation (by decide) (by decide) (List.cons.inj hrest).2
  obtain ⟨hsamee, -, hrest⟩ := he.of_punctuation (by decide) (by decide) (List.cons.inj hrest).2
  refine ⟨?_, hrest⟩
  show conditional (c.mapLines fun _ => 0) (t.mapLines fun _ => 0) (e.mapLines fun _ => 0) 0 = _
  rw [hsamec, hsamet, hsamee]
  rfl

/-- Bindings that are printed alike are the same, and so is what follows them, if the trees in them
come apart. -/
theorem eq_of_bindingText_append {x x' : String} {value value' : Expr} {r r' : List Char}
    (hx : Token.IsName x) (hx' : Token.IsName x') (hvalue : Separable value value')
    (h : bindingText x value ++ r = bindingText x' value' ++ r') :
    x = x' ∧ value.SameUpToLines value' ∧ r = r' := by
  simp only [bindingText, List.cons_append, List.append_assoc, List.nil_append, List.cons.injEq,
    true_and] at h
  obtain ⟨hname, h⟩ := eq_of_name_append hx hx' (Token.stops_blank _) (Token.stops_blank _) h
  obtain ⟨hsame, -, h⟩ := hvalue.of_punctuation (by decide) (by decide) (List.cons.inj h).2
  exact ⟨hname, hsame, h⟩

theorem toList_bindingTexts_cons (x : String) (value : Expr) (n : Nat) (bs : List (Binding Expr)) :
    commaLed (bindingTexts (⟨x, value, n⟩ :: bs)) =
      ',' :: ' ' :: (bindingText x value ++ commaLed (bindingTexts bs)) := by
  have hopen : "= (".toList = ['=', ' ', '('] := rfl
  have hblank : " ".toList = [' '] := rfl
  have hclose : ")".toList = [')'] := rfl
  simp only [bindingTexts, commaLed_cons, bindingText, String.toList_append, hopen, hblank, hclose,
    List.append_assoc, List.cons_append, List.nil_append]

theorem bindingTexts_ne_nil {bs : List (Binding Expr)} (h : bs ≠ []) : bindingTexts bs ≠ [] := by
  cases bs with
  | nil => exact absurd rfl h
  | cons b bs => exact List.cons_ne_nil _ _

/-- Trees that bind names come apart, if their bodies do and their bindings with commas before each
of them. -/
theorem separable_letIn {bs bs' : List (Binding Expr)} {body body' : Expr} (hne : bs ≠ [])
    (hne' : bs' ≠ [])
    (hbs : ∀ r r',
      commaLed (bindingTexts bs) ++ '\x7d' :: r = commaLed (bindingTexts bs') ++ '\x7d' :: r' →
      mapLinesBindings (fun _ => 0) bs = mapLinesBindings (fun _ => 0) bs' ∧ r = r')
    (hbody : Separable body body') : Separable (letIn bs body n) (letIn bs' body' n') := by
  refine separable_of_remainder trivial trivial fun hlead r r' _ _ hrest => ?_
  simp only [remainder, List.cons_append, List.append_assoc, List.nil_append, List.cons.injEq,
    true_and] at hrest
  rw [commaLed_eq (bindingTexts_ne_nil hne), commaLed_eq (bindingTexts_ne_nil hne')] at hbs
  obtain ⟨hsamebs, hrest⟩ := hbs _ _ (congrArg (',' :: ' ' :: ·) hrest)
  obtain ⟨hsame, -, hrest⟩ :=
    hbody.of_punctuation (by decide) (by decide) (List.cons.inj hrest).2
  exact ⟨congrArg₂ (letIn · · 0) hsamebs hsame, hrest⟩

theorem stops_argumentsText (args : List Expr) (r : List Char) :
    Stops (argumentsText args ++ r) := by
  cases args with
  | nil => exact stops_punctuation (by decide) _
  | cons e es => exact Token.stops_blank _

theorem texts_ne_nil {es : List Expr} (h : es ≠ []) : texts es ≠ [] := by
  cases es with
  | nil => exact absurd rfl h
  | cons e es => exact List.cons_ne_nil _ _

/-- Arguments that are printed alike are the same, and so is what follows them, if this is known of
trees with commas before each of them. -/
theorem eq_of_argumentsText_append {args args' : List Expr} {r r' : List Char}
    (h : argumentsText args ++ r = argumentsText args' ++ r')
    (htexts : ∀ s s', commaLed (texts args) ++ ']' :: s = commaLed (texts args') ++ ']' :: s' →
      mapLinesList (fun _ => 0) args = mapLinesList (fun _ => 0) args' ∧ s = s') :
    mapLinesList (fun _ => 0) args = mapLinesList (fun _ => 0) args' ∧ r = r' := by
  cases args with
  | nil =>
    cases args' with
    | nil => exact ⟨rfl, (List.cons.inj h).2⟩
    | cons e' es' => exact absurd (List.cons.inj h).1 (by decide)
  | cons e es =>
    cases args' with
    | nil => exact absurd (List.cons.inj h).1 (by decide)
    | cons e' es' =>
      simp only [argumentsText, List.cons_append, List.append_assoc, List.nil_append,
        List.cons.injEq, true_and] at h
      -- with a comma before the first argument, too, there are as many commas as arguments
      rw [commaLed_eq (texts_ne_nil (List.cons_ne_nil e es)),
        commaLed_eq (texts_ne_nil (List.cons_ne_nil e' es'))] at htexts
      obtain ⟨hsame, hrest⟩ := htexts (')' :: r) (')' :: r') (congrArg (',' :: ' ' :: ·) h)
      exact ⟨hsame, (List.cons.inj hrest).2⟩

theorem separable_call {x x' : String} {args args' : List Expr} (hx : Token.IsName x)
    (hx' : Token.IsName x')
    (hargs : ∀ r r', commaLed (texts args) ++ ']' :: r = commaLed (texts args') ++ ']' :: r' →
      mapLinesList (fun _ => 0) args = mapLinesList (fun _ => 0) args' ∧ r = r') :
    Separable (call x args n) (call x' args' n') := by
  refine separable_of_remainder trivial trivial fun hlead r r' _ _ hrest => ?_
  simp only [remainder, List.cons_append, List.append_assoc, List.nil_append, List.cons.injEq,
    true_and] at hrest
  obtain ⟨hname, hrest⟩ := eq_of_name_append hx hx' (stops_argumentsText args r)
    (stops_argumentsText args' r') hrest
  obtain ⟨hsame, hrest⟩ := eq_of_argumentsText_append hrest hargs
  exact ⟨congrArg₂ (call · · 0) hname hsame, hrest⟩

end

/-! ### Trees -/

mutual

/-- A printed tree is not the beginning of another one: well-formed trees come apart. -/
theorem separable_of_wellFormedTree : ∀ e e' : Expr,
    e.WellFormedTree Literal.Printable → e'.WellFormedTree Literal.Printable → Separable e e'
  | literal v n, e', h, h' => by
    cases e' with
    | literal v' n' =>
      exact separable_literal (wellFormedTree_literal.mp h) (wellFormedTree_literal.mp h')
    | _ => exact separable_of_root_ne h.printableRoot h'.printableRoot Root.noConfusion
  | unary op a n, e', h, h' => by
    have ha := wellFormedTree_unary.mp h
    cases e' with
    | unary op' a' n' =>
      exact separable_unary (separable_of_wellFormedTree a a' ha (wellFormedTree_unary.mp h'))
    | binary op' left' right' n' =>
      have hleft' := (wellFormedTree_binary.mp h').1
      exact separable_unary_binary (separable_of_wellFormedTree a left' ha hleft')
    | _ => exact separable_of_root_ne h.printableRoot h'.printableRoot Root.noConfusion
  | binary op left right n, e', h, h' => by
    obtain ⟨hleft, hright⟩ := wellFormedTree_binary.mp h
    cases e' with
    | unary op' a' n' =>
      have ha' := wellFormedTree_unary.mp h'
      exact (separable_unary_binary (separable_of_wellFormedTree left a' hleft ha').symm).symm
    | binary op' left' right' n' =>
      obtain ⟨hleft', hright'⟩ := wellFormedTree_binary.mp h'
      exact separable_binary (separable_of_wellFormedTree left left' hleft hleft')
        (separable_of_wellFormedTree right right' hright hright')
    | _ => exact separable_of_root_ne h.printableRoot h'.printableRoot Root.noConfusion
  | conditional c t e n, e', h, h' => by
    obtain ⟨hc, ht, he⟩ := wellFormedTree_conditional.mp h
    cases e' with
    | conditional c' t' e' n' =>
      obtain ⟨hc', ht', he'⟩ := wellFormedTree_conditional.mp h'
      exact separable_conditional (separable_of_wellFormedTree c c' hc hc')
        (separable_of_wellFormedTree t t' ht ht') (separable_of_wellFormedTree e e' he he')
    | _ => exact separable_of_root_ne h.printableRoot h'.printableRoot Root.noConfusion
  | var x n, e', h, h' => by
    cases e' with
    | var x' n' => exact separable_var (wellFormedTree_var.mp h) (wellFormedTree_var.mp h')
    | _ => exact separable_of_root_ne h.printableRoot h'.printableRoot Root.noConfusion
  | letIn bs body n, e', h, h' => by
    obtain ⟨⟨hne, hnames⟩, hvalues, hbody⟩ := wellFormedTree_letIn.mp h
    cases e' with
    | letIn bs' body' n' =>
      obtain ⟨⟨hne', hnames'⟩, hvalues', hbody'⟩ := wellFormedTree_letIn.mp h'
      exact separable_letIn hne hne'
        (fun r r' => eq_of_bindingTexts_append bs bs' r r' hnames hnames' hvalues hvalues')
        (separable_of_wellFormedTree body body' hbody hbody')
    | _ => exact separable_of_root_ne h.printableRoot h'.printableRoot Root.noConfusion
  | function x params body n, _, h, _ => absurd h wellFormedTree_function
  | call x args n, e', h, h' => by
    obtain ⟨hx, hargs⟩ := wellFormedTree_call.mp h
    cases e' with
    | call x' args' n' =>
      obtain ⟨hx', hargs'⟩ := wellFormedTree_call.mp h'
      exact separable_call hx hx' fun r r' => eq_of_texts_append args args' r r' hargs hargs'
    | _ => exact separable_of_root_ne h.printableRoot h'.printableRoot Root.noConfusion

theorem eq_of_texts_append : ∀ (es es' : List Expr) (r r' : List Char),
    WellFormedTrees Literal.Printable es → WellFormedTrees Literal.Printable es' →
    commaLed (texts es) ++ ']' :: r = commaLed (texts es') ++ ']' :: r' →
    mapLinesList (fun _ => 0) es = mapLinesList (fun _ => 0) es' ∧ r = r'
  | [], [], r, r', _, _, h => ⟨rfl, (List.cons.inj h).2⟩
  | [], e' :: es', r, r', _, _, h => absurd (List.cons.inj h).1 (by decide)
  | e :: es, [], r, r', _, _, h => absurd (List.cons.inj h).1 (by decide)
  | e :: es, e' :: es', r, r', hes, hes', h => by
    obtain ⟨he, hes⟩ := wellFormedTrees_cons.mp hes
    obtain ⟨he', hes'⟩ := wellFormedTrees_cons.mp hes'
    simp only [texts, commaLed_cons, List.cons_append, List.append_assoc, List.cons.injEq,
      true_and] at h
    have hstops : ∀ (ts : List String) (s : List Char), Stops (commaLed ts ++ ']' :: s) :=
      fun ts s => stops_commaLed ts (stops_punctuation (by decide) s)
    obtain ⟨hsame, h⟩ :=
      separable_of_wellFormedTree e e' he he' _ _ (hstops _ _) (hstops _ _) h
    obtain ⟨hsames, h⟩ := eq_of_texts_append es es' _ _ hes hes' h
    exact ⟨congrArg₂ List.cons hsame hsames, h⟩

theorem eq_of_bindingTexts_append : ∀ (bs bs' : List (Binding Expr)) (r r' : List Char),
    (∀ b ∈ bs, Token.IsName b.name) → (∀ b ∈ bs', Token.IsName b.name) →
    WellFormedValues Literal.Printable bs → WellFormedValues Literal.Printable bs' →
    commaLed (bindingTexts bs) ++ '\x7d' :: r = commaLed (bindingTexts bs') ++ '\x7d' :: r' →
    mapLinesBindings (fun _ => 0) bs = mapLinesBindings (fun _ => 0) bs' ∧ r = r'
  | [], [], r, r', _, _, _, _, h => ⟨rfl, (List.cons.inj h).2⟩
  | [], ⟨_, _, _⟩ :: bs', r, r', _, _, _, _, h => absurd (List.cons.inj h).1 (by decide)
  | ⟨_, _, _⟩ :: bs, [], r, r', _, _, _, _, h => absurd (List.cons.inj h).1 (by decide)
  | ⟨x, value, n⟩ :: bs, ⟨x', value', n'⟩ :: bs', r, r', hnames, hnames', hbs, hbs', h => by
    obtain ⟨hx, hmore⟩ := List.forall_mem_cons.mp hnames
    obtain ⟨hx', hmore'⟩ := List.forall_mem_cons.mp hnames'
    obtain ⟨hvalue, hbs⟩ := wellFormedValues_cons.mp hbs
    obtain ⟨hvalue', hbs'⟩ := wellFormedValues_cons.mp hbs'
    simp only [toList_bindingTexts_cons, List.cons_append, List.append_assoc, List.cons.injEq,
      true_and] at h
    have hseparable := separable_of_wellFormedTree value value' hvalue hvalue'
    obtain ⟨hname, hsame, h⟩ : x = x' ∧ _ := eq_of_bindingText_append hx hx' hseparable h
    obtain ⟨hsames, h⟩ := eq_of_bindingTexts_append bs bs' _ _ hmore hmore' hbs hbs' h
    refine ⟨?_, h⟩
    show Binding.mk x (value.mapLines fun _ => 0) 0 :: mapLinesBindings (fun _ => 0) bs = _
    rw [hname, hsame, hsames]
    rfl

end

/-! ### Statements -/

theorem eq_of_names_append {ps ps' : List String} {r r' : List Char}
    (hps : ∀ p ∈ ps, Token.IsName p) (hps' : ∀ p ∈ ps', Token.IsName p)
    (h : commaLed ps ++ ')' :: r = commaLed ps' ++ ')' :: r') : ps = ps' ∧ r = r' := by
  induction ps generalizing ps' with
  | nil =>
    cases ps' with
    | nil => exact ⟨rfl, (List.cons.inj h).2⟩
    | cons p' ps' => exact absurd (List.cons.inj h).1 (by decide)
  | cons p ps ih =>
    cases ps' with
    | nil => exact absurd (List.cons.inj h).1 (by decide)
    | cons p' ps' =>
      obtain ⟨hp, hps⟩ := List.forall_mem_cons.mp hps
      obtain ⟨hp', hps'⟩ := List.forall_mem_cons.mp hps'
      simp only [commaLed_cons, List.cons_append, List.append_assoc, List.cons.injEq,
        true_and] at h
      have hstops : ∀ (ts : List String) (s : List Char), Stops (commaLed ts ++ ')' :: s) :=
        fun ts s => stops_commaLed ts (stops_punctuation (by decide) s)
      obtain ⟨hname, hrest⟩ := eq_of_name_append hp hp' (hstops _ _) (hstops _ _) h
      obtain ⟨hnames, hrest⟩ := ih hps hps' hrest
      exact ⟨congrArg₂ List.cons hname hnames, hrest⟩

/-- A list of parameters does not begin with a parenthesis. -/
theorem params_ne_close {p : String} (ps : List String) (hp : Token.IsName p) (r r' : List Char) :
    (commaSeparated (p :: ps)).toList ++ r ≠ ')' :: r' := by
  obtain ⟨⟨w, hw⟩, -⟩ := hp
  intro h
  have hled := commaLed_eq (List.cons_ne_nil p ps)
  rw [commaLed_cons, hw] at hled
  rw [← (List.cons.inj (List.cons.inj hled).2).2] at h
  have hfirst : w.first = ')' := (List.cons.inj h).1
  have hletter := w.first_letter
  rw [hfirst] at hletter
  exact absurd hletter (by unfold Token.IsLetter; decide)

/-- Parameters that are printed alike are the same, and so is what follows them. -/
theorem eq_of_params_append {ps ps' : List String} {r r' : List Char}
    (hps : ∀ p ∈ ps, Token.IsName p) (hps' : ∀ p ∈ ps', Token.IsName p)
    (h : (commaSeparated ps).toList ++ ')' :: r = (commaSeparated ps').toList ++ ')' :: r') :
    ps = ps' ∧ r = r' := by
  cases ps with
  | nil =>
    cases ps' with
    | nil => exact ⟨rfl, (List.cons.inj h).2⟩
    | cons p' ps' =>
      exact absurd h.symm (params_ne_close ps' (hps' p' List.mem_cons_self) _ _)
  | cons p ps =>
    cases ps' with
    | nil => exact absurd h (params_ne_close ps (hps p List.mem_cons_self) _ _)
    | cons p' ps' =>
      apply eq_of_names_append hps hps'
      rw [commaLed_eq (List.cons_ne_nil p ps), commaLed_eq (List.cons_ne_nil p' ps')]
      exact congrArg (',' :: ' ' :: ·) h

theorem WellFormed.printableRoot {t : Expr} (h : t.WellFormed Literal.Printable) :
    t.PrintableRoot := by
  cases t with
  | function x params body n => exact trivial
  | _ => exact WellFormedTree.printableRoot h

theorem separable_function {x x' : String} {params params' : List String} {body body' : Expr}
    {n n' : Nat} (h : (function x params body n).WellFormed Literal.Printable)
    (h' : (function x' params' body' n').WellFormed Literal.Printable) :
    Separable (function x params body n) (function x' params' body' n') := by
  obtain ⟨hx, hparams, -, hbody⟩ := h
  obtain ⟨hx', hparams', -, hbody'⟩ := h'
  refine separable_of_remainder trivial trivial fun hlead r r' hr hr' hrest => ?_
  simp only [remainder, List.cons_append, List.append_assoc, List.nil_append, List.cons.injEq,
    true_and] at hrest
  obtain ⟨hname, hrest⟩ := eq_of_name_append hx hx' (stops_punctuation (by decide) _)
    (stops_punctuation (by decide) _) hrest
  obtain ⟨hsame, hrest⟩ := eq_of_params_append hparams hparams' (List.cons.inj hrest).2
  simp only [List.cons.injEq, true_and] at hrest
  -- the body is the last part of a declaration
  obtain ⟨hsameBody, hrest⟩ :=
    separable_of_wellFormedTree body body' hbody hbody' r r' hr hr' hrest
  refine ⟨?_, hrest⟩
  show function x params (body.mapLines fun _ => 0) 0 = _
  rw [hname, hsame, hsameBody]
  rfl

theorem separable_of_wellFormed {t t' : Expr} (h : t.WellFormed Literal.Printable)
    (h' : t'.WellFormed Literal.Printable) : Separable t t' := by
  cases t with
  | function x params body n =>
    cases t' with
    | function x' params' body' n' => exact separable_function h h'
    | _ => exact separable_of_root_ne h.printableRoot h'.printableRoot Root.noConfusion
  | _ =>
    cases t' with
    | function => exact separable_of_root_ne h.printableRoot h'.printableRoot Root.noConfusion
    | _ => exact separable_of_wellFormedTree _ _ h h'

/-- Statements that are printed alike are the same up to line numbers. -/
theorem sameUpToLines_of_text_eq {t t' : Expr} (h : t.WellFormed Literal.Printable)
    (h' : t'.WellFormed Literal.Printable) (htext : t.text = t'.text) : t.SameUpToLines t' := by
  have hchars : t.text.toList ++ [] = t'.text.toList ++ [] := by rw [htext]
  exact (separable_of_wellFormed h h' [] [] Token.stops_nil Token.stops_nil hchars).1

end Expr

end LetLang
