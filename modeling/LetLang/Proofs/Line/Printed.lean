import LetLang.Proofs.Double.Bits
import LetLang.Proofs.Expr.Printed
import LetLang.Proofs.Line.Written

/-!
# Printed lines determine their trees

The tree of a line is well formed: its names are words that are no keywords, its numbers are not
negative, and each `let` binds something (`Line.wellFormed_of_parse`). So two lines whose trees are
printed alike have the same tree up to line numbers (`Line.sameUpToLines_of_text_eq_text`), unless a
string in them has a quote or a number is infinite.
-/

namespace LetLang

/-! ### Tokens of a line -/

/-- A literal that a token can denote: its number is not negative. -/
def Literal.Denotable : Literal → Prop
  | number x => Double.isNegative x = false
  | quoted _ | bool _ => True

/-- A literal with a printed form of its own: a finite number, or a text without quotes. -/
def Literal.Unambiguous : Literal → Prop
  | number x => Double.code x < Double.infinityCode
  | quoted s => '"' ∉ s.toList
  | bool _ => True

namespace Token

theorem Numeral.isNegative_value (n : Numeral) : Double.isNegative n.value = false :=
  Double.isNegative_ofCode (Nat.min_le_right _ _)

theorem Rule.isName {name : String} {w rest : List Char}
    (h : Rule (.token (.identifier name)) w rest) : IsName name := by
  cases h with
  | identifier v _ hkeyword =>
    refine ⟨⟨v, String.toList_ofList⟩, fun k hk => hkeyword k ?_⟩
    rw [← hk, String.toList_ofList]

theorem Rule.isNegative_eq {x : Float} {w rest : List Char}
    (h : Rule (.token (.number x)) w rest) : Double.isNegative x = false := by
  cases h with
  | number n => exact n.isNegative_value

/-- A token of a source text that is a name has a name of the language, and one that denotes a
number denotes one that is not negative. -/
theorem tokenMeets_of_mem_tokens {source : String} {line : Nat} {t : Token}
    (h : t ∈ (scan source line).tokens) : Grammar.TokenMeets Literal.Denotable t := by
  have hrule := exists_rule_of_mem_tokens h
  unfold Grammar.TokenMeets
  generalize t.kind = kind at hrule ⊢
  constructor
  · rintro name rfl
    obtain hend | ⟨rest, hrule⟩ := hrule
    · cases hend
    · exact hrule.isName
  · intro v hv
    cases hv with
    | number x =>
      obtain hend | ⟨rest, hrule⟩ := hrule
      · cases hend
      · exact hrule.isNegative_eq
    | quoted s => exact trivial
    | true_ => exact trivial
    | false_ => exact trivial
    | pi =>
      show Double.isNegative 3.141592653589793 = false
      decide +kernel
    | euler =>
      show Double.isNegative 2.718281828459045 = false
      decide +kernel

end Token

namespace Line

/-- The tree of a line is well formed. -/
theorem wellFormed_of_parse {source : String} {n : Nat} {t : Expr}
    (h : parse source n = .ok t) : t.WellFormed Literal.Denotable := by
  obtain ⟨w, semicolon, rest, htokens, -, s, rfl, rfl, hdistinct⟩ :=
    Grammar.exists_derives_of_ofTokens (ofTokens_of_parse h)
  apply Grammar.Statement.wellFormed hdistinct
  intro u hu
  have hmem : u ∈ (Token.scan source n).tokens := by
    rw [htokens]
    exact List.mem_append_left _ hu
  exact Token.tokenMeets_of_mem_tokens hmem

theorem printable_of_parse {source : String} {n : Nat} {t : Expr} (h : parse source n = .ok t)
    (hliterals : ∀ v k, .literal v k ∈ t.subtrees → v.Unambiguous) :
    t.WellFormed Literal.Printable := by
  apply (wellFormed_of_parse h).imp
  intro v k hv hdenotable
  have hunambiguous := hliterals v k hv
  cases v with
  | number x => exact ⟨hdenotable, hunambiguous⟩
  | quoted s => exact hunambiguous
  | bool b => exact trivial

/-- **Printed trees determine trees.** Lines whose trees are printed alike have the same tree up to
line numbers, if no string in the trees has a quote and all their numbers are finite. -/
theorem sameUpToLines_of_text_eq_text {source source' : String} {n n' : Nat} {t t' : Expr}
    (h : parse source n = .ok t) (h' : parse source' n' = .ok t')
    (hliterals : ∀ v k, .literal v k ∈ t.subtrees → v.Unambiguous)
    (hliterals' : ∀ v k, .literal v k ∈ t'.subtrees → v.Unambiguous)
    (htext : t.text = t'.text) : t.SameUpToLines t' :=
  Expr.sameUpToLines_of_text_eq (printable_of_parse h hliterals) (printable_of_parse h' hliterals')
    htext

/-- Two lines with the same statement, on different lines and with another blank in it, have trees
that are printed alike. -/
theorem sameUpToLines_of_concat :
    ∃ t t', parse "( \"x\" ) @ ( 0.5 );" 1 = .ok t ∧ parse "( \"x\" ) @ ( 0.5 ) ;" 7 = .ok t' ∧
      t.text = t'.text ∧ t.SameUpToLines t' := by
  let e : Expr := .binary .concat (.literal (.quoted "x") 0) (.literal (.number 0.5) 0) 0
  have hstring : (Literal.quoted "x").Writable := ⟨by decide, by decide, by decide⟩
  have hnumber : (Literal.number 0.5).Writable := ⟨by decide +kernel, by decide +kernel⟩
  have he : e.WellFormed Literal.Writable := Expr.wellFormedTree_binary.mpr
    ⟨Expr.wellFormedTree_literal.mpr hstring, Expr.wellFormedTree_literal.mpr hnumber⟩
  have hquoted : ∀ s k, .literal (.quoted s) k ∈ e.subtrees → '\n' ∉ s.toList := by
    simp [e, Expr.subtrees]
  have hparse : parse "( \"x\" ) @ ( 0.5 );" 1 = .ok (e.mapLines fun _ => 1) := by
    have hsource : e.source 0 = "( \"x\" ) @ ( 0.5 );" := by decide +kernel
    rw [← hsource]
    exact parse_source_of_oneLine he hquoted 0 1
  have hparse' : parse "( \"x\" ) @ ( 0.5 ) ;" 7 = .ok (e.mapLines fun _ => 7) := by
    have hsource : e.source 1 = "( \"x\" ) @ ( 0.5 ) ;" := by decide +kernel
    rw [← hsource]
    exact parse_source_of_oneLine he hquoted 1 7
  have hliterals : ∀ n v k, .literal v k ∈ (e.mapLines fun _ => n).subtrees → v.Unambiguous := by
    intro n v k hv
    simp only [e, Expr.mapLines, Expr.subtrees, List.mem_append, List.mem_cons,
      List.not_mem_nil, or_false, reduceCtorEq, false_or, Expr.literal.injEq] at hv
    obtain ⟨rfl, -⟩ | ⟨rfl, -⟩ := hv
    · show '"' ∉ "x".toList
      decide
    · exact hnumber.2
  have htext : (e.mapLines fun _ => 1).text = (e.mapLines fun _ => 7).text := by
    rw [Expr.text_mapLines, Expr.text_mapLines]
  exact ⟨_, _, hparse, hparse', htext,
    sameUpToLines_of_text_eq_text hparse hparse' (hliterals 1) (hliterals 7) htext⟩

end Line

end LetLang
