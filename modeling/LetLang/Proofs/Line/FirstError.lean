import LetLang.Proofs.Expr.FirstError
import LetLang.Proofs.Line
import LetLang.Proofs.Token.Munch

/-!
# Where a line of source fails to parse

A syntax error of a line is at the first of its tokens that no statement could have there
(`Line.parse_error_at_first_impossible`). The tokens of a line end with one for the end of the
input, which is the only one of its kind and the only one without a lexeme. It is part of no
statement, so the reader never gets past it, and the error is at a token of the line.
-/

namespace LetLang

/-! ### The end of the input -/

namespace Grammar

/-- The tokens of a line do not begin a statement as a whole, since they end the input. -/
theorem Viable.rest_ne_nil {source : String} {line : Nat} {before rest : List Token}
    (h : Viable before) (hsplit : (Token.scan source line).tokens = before ++ rest) :
    rest ≠ [] := by
  rintro rfl
  obtain ⟨init, last, htokens, hlast, -⟩ := Token.exists_tokens_scan source line
  rw [List.append_nil] at hsplit
  have hmem : last ∈ before := by
    rw [← hsplit, htokens]
    exact List.mem_append_right init List.mem_cons_self
  exact h.kind_ne last hmem hlast

end Grammar

namespace Line

open Grammar

/-- Where the reader of statements stops on a line: in front of a token of the line, or after the
parameters of a declaration that repeat one. -/
theorem ofTokens_scan_eq_error {source : String} {line : Nat} {e : SyntaxError}
    (he : Expr.ofTokens (Token.scan source line).tokens = .error e) :
    (∃ before t after, (Token.scan source line).tokens = before ++ t :: after ∧
      Expr.statement.run (before ++ t :: after) = (.error e, t :: after) ∧
      e.StopsAt (t :: after) ∧ Viable before) ∨
    ∃ (head : Head) (p : Name) (after : List Token), head.Repeats p ∧
      (Token.scan source line).tokens = head.yield ++ after ∧ e = head.repeatedError p := by
  have hrun : Expr.statement.run (Token.scan source line).tokens =
      (.error e, (Expr.statement.run (Token.scan source line).tokens).2) := Prod.ext he rfl
  generalize (Expr.statement.run (Token.scan source line).tokens).2 = rest at hrun
  rcases run_statement_eq_error hrun with
    ⟨hstops, before, hsplit, hviable⟩ | ⟨head, p, hp, hsplit, he⟩
  · obtain ⟨t, after, rfl⟩ := List.exists_cons_of_ne_nil (hviable.rest_ne_nil hsplit)
    exact .inl ⟨before, t, after, hsplit, hsplit ▸ hrun, hstops, hviable⟩
  · exact .inr ⟨head, p, rest, hp, hsplit, he⟩

/-- **The first impossible token.** Let a line without lexical errors fail to parse. Unless a
parameter is repeated, the error is that of a token of the line: what comes before it begins a
statement, and together with it, if it is not the end of the input, it begins none. The error is at
the end exactly if the token is the end of the input, and only then does it say that the input has
ended. A repeated parameter is the first one of its list that repeats an earlier one, and the list,
up to the parenthesis that closes it, begins a statement. -/
theorem parse_error_at_first_impossible {source : String} {line : Nat} {e : SyntaxError}
    (h : parse source line = .error (.syntactic e)) :
    ((∀ name function, e.fault ≠ .duplicateParameter name function) ∧
      ∃ before t after, (Token.scan source line).tokens = before ++ t :: after ∧
        e.found = t.lexeme ∧ e.position = t.position ∧
        Viable before ∧ (t.kind ≠ .endOfInput → ¬ Viable (before ++ [t])) ∧
        (e.isAtEnd = true ↔ t.kind = .endOfInput) ∧
        ∀ expected, e.fault = .unexpectedEnd expected → t.kind = .endOfInput) ∨
    ∃ (head : Head) (p : Name) (after : List Token),
      (Token.scan source line).tokens = head.yield ++ after ∧
      e.fault = .duplicateParameter p.name head.name.name ∧
      e.found = p.token.lexeme ∧ e.position = p.token.position ∧
      head.Repeats p ∧ Viable head.yield := by
  obtain ⟨-, ⟨⟩⟩ | ⟨-, _, he, ⟨⟩⟩ := parse_error_cases h
  rcases ofTokens_scan_eq_error he with
    ⟨before, t, after, hsplit, hrun, hstops, hviable⟩ | ⟨head, p, after, hp, hsplit, rfl⟩
  · have hmem : t ∈ (Token.scan source line).tokens := by
      rw [hsplit]
      exact List.mem_append_right before List.mem_cons_self
    have hfinal := not_viable_of_run_statement hrun hstops
    have hfound : e.found = t.lexeme := hstops.found
    refine .inl ⟨fun _ _ hfault => hstops.notDuplicate ⟨_, _, hfault⟩, before, t, after, hsplit,
      hfound, hstops.position, hviable, fun _ => hfinal, ?_, ?_⟩
    · rw [← Token.lexeme_eq_empty_iff hmem, SyntaxError.isAtEnd, hfound]
      exact String.isEmpty_iff
    · exact fun expected hexpected => hstops.unexpectedEnd expected hexpected t rfl
  · exact .inr ⟨head, p, after, hsplit, rfl, rfl, rfl, hp, head.viable⟩

/-- The semicolon in `(a;` is where a closing parenthesis has to be. -/
theorem parse_error_in_group :
    parse "(a;" 1 =
      .error (.syntactic ⟨.unexpectedToken "Expected ')' after expression.", ";", ⟨1, 3⟩⟩) ∧
    ∃ before t after, (Token.scan "(a;" 1).tokens = before ++ t :: after ∧ t.lexeme = ";" ∧
      Viable before ∧ ¬ Viable (before ++ [t]) := by
  have h : parse "(a;" 1 =
      .error (.syntactic ⟨.unexpectedToken "Expected ')' after expression.", ";", ⟨1, 3⟩⟩) := by
    dsimp only [parse]
    rw [Token.scan_eq_place]
    with_unfolding_all rfl
  refine ⟨h, ?_⟩
  rcases parse_error_at_first_impossible h with
    ⟨-, before, t, after, hsplit, hfound, -, hviable, hfinal, hatEnd, -⟩ | ⟨_, _, _, -, hfault, -⟩
  · have hkind : t.kind ≠ .endOfInput := fun hkind => absurd (hatEnd.mpr hkind) (by decide)
    exact ⟨before, t, after, hsplit, hfound.symm, hviable, hfinal hkind⟩
  · cases hfault

end Line

end LetLang
