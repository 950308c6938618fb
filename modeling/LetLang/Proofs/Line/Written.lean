import LetLang.Proofs.Expr.Statement
import LetLang.Proofs.Expr.Written
import LetLang.Proofs.Line.MapLines

/-!
# Written statements are parsed

Every well-formed statement can be written down and read back: written with single blanks between
its tokens and a semicolon after it, it is parsed as itself, up to line numbers
(`Line.parse_written`). So the syntax reaches every well-formed tree. Only a newline in a string
moves tokens to another line.
-/

namespace LetLang

open LetLang.Grammar

/-- The statement, written down with blanks and a semicolon after it. -/
def Expr.source (t : Expr) (blanks : Nat) : String :=
  t.written ++ String.ofList (List.replicate blanks ' ') ++ ";"

/-- The source text has a newline only if a string of the statement has one. -/
theorem Expr.newline_not_mem_source {t : Expr} (h : t.WellFormed Literal.Writable)
    (hquoted : ∀ s n, .literal (.quoted s) n ∈ t.subtrees → '\n' ∉ s.toList) (blanks : Nat) :
    '\n' ∉ (t.source blanks).toList := by
  let oneLine : Literal → Prop := fun v => ∀ s, v = .quoted s → '\n' ∉ s.toList
  have hcovers : Covers oneLine fun k => ∀ s, k = .quoted s → '\n' ∉ s.toList := by
    refine ⟨fun k s hs => ?_, fun k s hs => ?_, fun x hx s hs => ?_, fun v hv s hs => hv s ?_⟩
    · cases hs
    · cases hs
    · cases hs
    cases v with
    | number x => cases hs
    | quoted s' => exact congrArg Literal.quoted (Token.Kind.quoted.inj hs)
    | bool b => cases b <;> cases hs
  have hkinds := hcovers.statement (h.imp fun v n hv _ s hs => hquoted s n (hs ▸ hv))
  have hwritten : '\n' ∉ t.written.toList :=
    Token.newline_not_mem_spaced (writable_kinds h) fun s hs => hkinds _ hs s rfl
  unfold source
  rw [String.toList_append, String.toList_append, String.toList_ofList, List.mem_append,
    List.mem_append]
  rintro ((hmem | hmem) | hmem)
  · exact hwritten hmem
  · exact absurd (List.eq_of_mem_replicate hmem) (by decide)
  · exact absurd hmem (by decide)

namespace Line

/-- A source text without lexical errors is parsed as what its tokens before the semicolon derive.
-/
theorem parse_of_derives {source : String} {n m : Nat} {f : Nat → Nat} {ks : List Token.Kind}
    {t : Expr}
    (htokens : (Token.scan source n).tokens.map Token.kind =
      ks ++ [.symbol .semicolon, .endOfInput])
    (herrors : (Token.scan source n).errors = [])
    (hlines : ∀ u ∈ (Token.scan source n).tokens, f u.line = m)
    (hderives : ∀ ts, Have f m ks ts →
      ∃ t', Derives ts t' ∧ t'.mapLines f = t.mapLines fun _ => m) :
    ∃ t', parse source n = .ok t' ∧ t'.mapLines f = t.mapLines fun _ => m := by
  have hhave : Have f m (ks ++ [.symbol .semicolon, .endOfInput]) (Token.scan source n).tokens :=
    ⟨htokens, hlines⟩
  obtain ⟨w, rest, hsplit, hw, hrest⟩ := hhave.exists_append
  obtain ⟨semicolon, last, rfl, -, hlast⟩ := hrest.exists_cons
  obtain ⟨endToken, none, rfl, -, -⟩ := hlast.exists_cons
  obtain ⟨t', hderives, hsame⟩ := hderives w hw
  have hend : AtEnd (endToken.token :: none) := by
    intro u hu
    obtain rfl := Option.some.inj hu
    exact endToken.kind_eq
  have hread := ofTokens_of_derives hderives semicolon hend
  rw [← hsplit] at hread
  refine ⟨t', ?_, hsame⟩
  unfold parse
  dsimp only
  rw [if_pos (List.isEmpty_iff.mpr herrors), hread]

/-- A written statement is parsed as itself, if its tokens are on lines that `f` takes to `m`. -/
theorem parse_source {t : Expr} (h : t.WellFormed Literal.Writable) (f : Nat → Nat) {m : Nat}
    (blanks n : Nat)
    (hlines : ∀ u ∈ (Token.scan (t.source blanks) n).tokens, f u.line = m) :
    ∃ t', parse (t.source blanks) n = .ok t' ∧ t'.mapLines f = t.mapLines fun _ => m := by
  obtain ⟨htokens, herrors⟩ := Token.scan_spaced (Expr.writable_kinds h) blanks n
  exact parse_of_derives htokens herrors hlines fun ts hts => exists_derives h hts

/-- Without a newline in its strings, a written statement is parsed as itself on the line of the
source text. -/
theorem parse_source_of_oneLine {t : Expr} (h : t.WellFormed Literal.Writable)
    (hquoted : ∀ s k, .literal (.quoted s) k ∈ t.subtrees → '\n' ∉ s.toList) (blanks n : Nat) :
    parse (t.source blanks) n = .ok (t.mapLines fun _ => n) := by
  have hnewline := Expr.newline_not_mem_source h hquoted blanks
  have hlines : ∀ u ∈ (Token.scan (t.source blanks) n).tokens, id u.line = n :=
    fun u hu => Token.line_of_mem_tokens hnewline hu
  obtain ⟨t', hparse, hsame⟩ := parse_source h id blanks n hlines
  rw [Expr.mapLines_id] at hsame
  rw [hparse, hsame]

/-- **Every well-formed statement can be written down and read back.** Written with single blanks
between its tokens, its operands in parentheses, and a semicolon after it, a well-formed statement
is parsed as itself up to line numbers. If no string in it has a newline, all lines are that of the
source text. -/
theorem parse_written {t : Expr} (h : t.WellFormed Literal.Writable) (blanks n : Nat) :
    ∃ t', parse (t.source blanks) n = .ok t' ∧ t'.SameUpToLines t ∧
      ((∀ s k, .literal (.quoted s) k ∈ t.subtrees → '\n' ∉ s.toList) →
        t' = t.mapLines fun _ => n) := by
  obtain ⟨t', hparse, hsame⟩ := parse_source h (fun _ => 0) blanks n fun _ _ => rfl
  refine ⟨t', hparse, hsame, fun hquoted => ?_⟩
  rw [parse_source_of_oneLine h hquoted] at hparse
  exact (Except.ok.inj hparse).symm

/-- A string with a backslash before a quote, a minus after a minus and a call as an operand are
read back. -/
theorem parse_written_declaration :
    parse "function f ( x ) => let s = \"a\\\\\"b\" in - ( - ( g ( s , 0.5 ) ) ) ;" 3 =
      .ok (.function "f" ["x"] (.letIn [⟨"s", .literal (.quoted "a\\\"b") 3, 3⟩]
        (.unary .negate (.unary .negate
          (.call "g" [.var "s" 3, .literal (.number 0.5) 3] 3) 3) 3) 3) 3) := by
  let body : Expr := .letIn [⟨"s", .literal (.quoted "a\\\"b") 3, 3⟩]
    (.unary .negate (.unary .negate (.call "g" [.var "s" 3, .literal (.number 0.5) 3] 3) 3) 3) 3
  have hstring : (Literal.quoted "a\\\"b").Writable := ⟨by decide, by decide, by decide⟩
  have hnumber : (Literal.number 0.5).Writable := ⟨by decide +kernel, by decide +kernel⟩
  have hs : Token.IsName "s" := Token.isName_of_all rfl rfl rfl
  have hg : Token.IsName "g" := Token.isName_of_all rfl rfl rfl
  have hbody : body.WellFormedTree Literal.Writable := by simp [body, hstring, hnumber, hs, hg]
  have hparams : ∀ p ∈ ["x"], Token.IsName p :=
    List.forall_mem_singleton.mpr (Token.isName_of_all rfl rfl rfl)
  have h : (Expr.function "f" ["x"] body 3).WellFormed Literal.Writable :=
    ⟨Token.isName_of_all rfl rfl rfl, hparams, by simp, hbody⟩
  have hquoted : ∀ s k, .literal (.quoted s) k ∈ (Expr.function "f" ["x"] body 3).subtrees →
      '\n' ∉ s.toList := by
    simp [body, Expr.subtrees, Expr.listSubtrees, Expr.bindingSubtrees]
  have hsource : (Expr.function "f" ["x"] body 3).source 1 =
      "function f ( x ) => let s = \"a\\\\\"b\" in - ( - ( g ( s , 0.5 ) ) ) ;" := by
    decide +kernel
  obtain ⟨t', hparse, -, hlines⟩ := parse_written h 1 3
  rw [hlines hquoted, hsource] at hparse
  exact hparse

end Line

end LetLang
