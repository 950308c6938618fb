import LetLang.Proofs.Expr.Completeness

/-!
# The grammar is unambiguous

No list of tokens is the yield of two derivations of one nonterminal
(`Derivation.eq_of_yield_eq`). Two derivations at the front of the same list end at the same place,
because the readers find both (`Derivation.yield_eq_of_append_eq`). So the parts of a production
have the same yields in both derivations, and one token of lookahead tells the productions apart.
-/

namespace LetLang.Grammar

open Reader LetLang.Expr

/-- A reader leaves only one list. -/
theorem Parses.rest_unique {n : Nonterminal} {ts rest rest' : List Token} {a a' : Meaning n}
    (h : Parses n ts a rest) (h' : Parses n ts a' rest') : rest = rest' := by
  cases n with
  | tail k =>
    -- a tail is read after some operand, and any will do
    have heq := (h (.var "" 0)).symm.trans (h' (.var "" 0))
    exact (Prod.mk.inj heq).2
  | _ => exact (Prod.mk.inj (h.symm.trans h')).2

/-- Of two derivations at the front of a list, neither is longer if nothing after them goes on. -/
theorem Derivation.yield_eq_of_append_eq {n : Nonterminal} {d d' : Derivation n}
    {rest rest' : List Token} (heq : d.yield ++ rest = d'.yield ++ rest') (h : Stops n rest)
    (h' : Stops n rest') : d.yield = d'.yield ∧ rest = rest' := by
  have hd := d.parses rest h
  rw [heq] at hd
  obtain rfl := hd.rest_unique (d'.parses rest' h')
  exact ⟨List.append_cancel_right heq, rfl⟩

/-- A derivation does not begin with a token of a height that it does not allow. -/
theorem Begins.ne_cons {h : Nat} {w : List Token} (hw : Begins h w) {t : Token}
    {kind : Token.Kind} (ht : t.kind = kind) (hkind : ∀ i, firstHeight kind = some i → h < i)
    (rest : List Token) : w ≠ t :: rest := by
  rintro rfl
  exact hw.kind_ne hkind t rfl ht

/-- No token is a constant and a name. -/
theorem Constant.token_ne (c : Constant) (name : Name) : c.token ≠ name.token := by
  intro heq
  have hvalue := c.denotes
  rw [heq, name.kind_eq] at hvalue
  cases hvalue

theorem Derivation.exists_literal_yield (d : Derivation .literal) : ∃ t, d.yield = [t] := by
  cases d with
  | constant c => exact ⟨c.token, rfl⟩
  | var name => exact ⟨name.token, rfl⟩

/-- Two parts of a list, each followed by a token that stops it, are the same parts. -/
theorem Derivation.yield_eq_of_cons_eq {n : Nonterminal} {d d' : Derivation n}
    {kind : Token.Kind} {t t' : Terminal kind} {rest rest' : List Token}
    (heq : d.yield ++ t.token :: rest = d'.yield ++ t'.token :: rest')
    (hstops : ∀ (t : Terminal kind) rest, Stops n (t.token :: rest)) :
    d.yield = d'.yield ∧ t = t' ∧ rest = rest' := by
  obtain ⟨hyield, hrest⟩ := yield_eq_of_append_eq heq (hstops t rest) (hstops t' rest')
  obtain ⟨ht, hrest⟩ := List.cons.inj hrest
  exact ⟨hyield, Terminal.eq_of_token ht, hrest⟩

/-- An operand and the tail after it are determined by their tokens. -/
theorem Derivation.yield_eq_of_operand_eq {k : Nat} {first first' : Derivation (.level k)}
    {tail tail' : Derivation (.tail k)}
    (heq : first.yield ++ tail.yield = first'.yield ++ tail'.yield) :
    first.yield = first'.yield ∧ tail.yield = tail'.yield := by
  have hstops : ∀ d : Derivation (.tail k), Stops (.level k) d.yield := by
    intro d
    have h := stops_operand d (stops_nil (.tail k))
    rwa [List.append_nil] at h
  exact yield_eq_of_append_eq heq (hstops tail) (hstops tail')

/-- A derivation is no longer than another one of the same nonterminal. -/
theorem Derivation.ne_append_cons {n : Nonterminal} (d d' : Derivation n) {t : Token}
    {rest : List Token} (h : Stops n (t :: rest)) : d.yield ≠ d'.yield ++ t :: rest := by
  intro heq
  have hnil := (yield_eq_of_append_eq ((List.append_nil _).trans heq) (stops_nil n) h).2
  cases hnil

/-- A derivation is determined by its yield. -/
theorem Derivation.eq_of_yield_eq {n : Nonterminal} {d d' : Derivation n}
    (h : d.yield = d'.yield) : d = d' := by
  -- two different productions of one nonterminal differ in a token, the first one or a comma
  induction d with
  | letIn keyword bs separator body ihbs ihbody =>
    cases d' with
    | letIn keyword' bs' separator' body' =>
      obtain ⟨hkeyword, hrest⟩ := List.cons.inj h
      obtain ⟨hbs, rfl, hbody⟩ := yield_eq_of_cons_eq hrest fun t => t.stops_keyword .bindings
      rw [Terminal.eq_of_token hkeyword, ihbs hbs, ihbody hbody]
    | noLet d' =>
      exact absurd h.symm ((d'.begins rfl).ne_cons keyword.kind_eq (by simp [firstHeight]) _)
  | noLet d ih =>
    cases d' with
    | letIn keyword' =>
      exact absurd h ((d.begins rfl).ne_cons keyword'.kind_eq (by simp [firstHeight]) _)
    | noLet d' => rw [ih h]
  | lastBinding b ih =>
    cases d' with
    | lastBinding b' => rw [ih h]
    | moreBindings b' comma' => exact absurd h (ne_append_cons b b' (comma'.stops_comma rfl _))
  | moreBindings b comma bs ihb ihbs =>
    cases d' with
    | lastBinding b' => exact absurd h.symm (ne_append_cons b' b (comma.stops_comma rfl _))
    | moreBindings b' comma' bs' =>
      obtain ⟨hb, rfl, hbs⟩ := yield_eq_of_cons_eq h fun t => t.stops_comma rfl
      rw [ihb hb, ihbs hbs]
  | binding name sign value ih =>
    cases d' with
    | binding name' sign' value' =>
      obtain ⟨hname, hrest⟩ := List.cons.inj h
      obtain ⟨hsign, hvalue⟩ := List.cons.inj hrest
      rw [Name.eq_of_token hname, Terminal.eq_of_token hsign, ih hvalue]
  | ifElse keyword left condition right onTrue separator onFalse ihc iht ihf =>
    cases d' with
    | ifElse keyword' left' condition' right' onTrue' separator' onFalse' =>
      obtain ⟨hkeyword, hrest⟩ := List.cons.inj h
      obtain ⟨hleft, hparts⟩ := List.cons.inj hrest
      obtain ⟨hc, rfl, hbranches⟩ :=
        yield_eq_of_cons_eq hparts fun t => t.stops_rightParen .expression
      obtain ⟨ht, rfl, hf⟩ := yield_eq_of_cons_eq hbranches fun t => t.stops_keyword .expression
      rw [Terminal.eq_of_token hkeyword, Terminal.eq_of_token hleft, ihc hc, iht ht, ihf hf]
    | noIf d' =>
      exact absurd h.symm ((d'.begins rfl).ne_cons keyword.kind_eq (by simp [firstHeight]) _)
  | noIf d ih =>
    cases d' with
    | ifElse keyword' =>
      exact absurd h ((d.begins rfl).ne_cons keyword'.kind_eq (by simp [firstHeight]) _)
    | noIf d' => rw [ih h]
  | chain first tail ihfirst ihtail =>
    cases d' with
    | chain first' tail' =>
      obtain ⟨hfirst, htail⟩ := yield_eq_of_operand_eq h
      rw [ihfirst hfirst, ihtail htail]
  | endTail =>
    cases d' with
    | endTail => rfl
    | moreTail => cases h
  | moreTail sign operand tail ihoperand ihtail =>
    cases d' with
    | endTail => cases h
    | moreTail sign' operand' tail' =>
      obtain ⟨hsign, hrest⟩ := List.cons.inj h
      obtain ⟨hoperand, htail⟩ := yield_eq_of_operand_eq hrest
      rw [BinarySign.eq_of_token hsign, ihoperand hoperand, ihtail htail]
  | unary sign operand ih =>
    cases d' with
    | unary sign' operand' =>
      obtain ⟨hsign, hoperand⟩ := List.cons.inj h
      rw [UnarySign.eq_of_token hsign, ih hoperand]
    | noUnary d' =>
      exact absurd h.symm ((d'.begins rfl).ne_cons rfl (by simp [sign.firstHeight_eq]) _)
  | noUnary d ih =>
    cases d' with
    | unary sign' =>
      exact absurd h ((d.begins rfl).ne_cons rfl (by simp [sign'.firstHeight_eq]) _)
    | noUnary d' => rw [ih h]
  | group left inner right ih =>
    cases d' with
    | group left' inner' right' =>
      obtain ⟨hleft, hrest⟩ := List.cons.inj h
      obtain ⟨hinner, rfl, -⟩ := yield_eq_of_cons_eq hrest fun t => t.stops_rightParen .expression
      rw [Terminal.eq_of_token hleft, ih hinner]
    | noGroup d' =>
      exact absurd h.symm ((d'.begins rfl).ne_cons left.kind_eq (by simp [firstHeight]) _)
  | noGroup d ih =>
    cases d' with
    | group left' =>
      exact absurd h ((d.begins rfl).ne_cons left'.kind_eq (by simp [firstHeight]) _)
    | noGroup d' => rw [ih h]
  | emptyCall name left right =>
    cases d' with
    | emptyCall name' left' right' =>
      obtain ⟨hname, hrest⟩ := List.cons.inj h
      obtain ⟨hleft, hright⟩ := List.cons.inj hrest
      rw [Name.eq_of_token hname, Terminal.eq_of_token hleft,
        Terminal.eq_of_token (List.cons.inj hright).1]
    | call name' left' args' right' =>
      have hright := (List.cons.inj (List.cons.inj h).2).2.symm
      exact absurd hright (((args'.begins rfl).append _).ne_cons right.kind_eq
        (by simp [firstHeight]) _)
    | noCall d' =>
      obtain ⟨t, ht⟩ := d'.exists_literal_yield
      cases h.trans ht
  | call name left args right ih =>
    cases d' with
    | emptyCall name' left' right' =>
      have hright := (List.cons.inj (List.cons.inj h).2).2
      exact absurd hright (((args.begins rfl).append _).ne_cons right'.kind_eq
        (by simp [firstHeight]) _)
    | call name' left' args' right' =>
      obtain ⟨hname, hrest⟩ := List.cons.inj h
      obtain ⟨hleft, hparts⟩ := List.cons.inj hrest
      obtain ⟨hargs, rfl, -⟩ := yield_eq_of_cons_eq hparts fun t => t.stops_rightParen .arguments
      rw [Name.eq_of_token hname, Terminal.eq_of_token hleft, ih hargs]
    | noCall d' =>
      obtain ⟨t, ht⟩ := d'.exists_literal_yield
      cases h.trans ht
  | noCall d ih =>
    cases d' with
    | emptyCall name' left' right' =>
      obtain ⟨t, ht⟩ := d.exists_literal_yield
      cases h.symm.trans ht
    | call name' left' args' right' =>
      obtain ⟨t, ht⟩ := d.exists_literal_yield
      cases h.symm.trans ht
    | noCall d' => rw [ih h]
  | lastArgument arg ih =>
    cases d' with
    | lastArgument arg' => rw [ih h]
    | moreArguments arg' comma' =>
      exact absurd h (ne_append_cons arg arg' (comma'.stops_comma rfl _))
  | moreArguments arg comma args iharg ihargs =>
    cases d' with
    | lastArgument arg' => exact absurd h.symm (ne_append_cons arg' arg (comma.stops_comma rfl _))
    | moreArguments arg' comma' args' =>
      obtain ⟨harg, rfl, hargs⟩ := yield_eq_of_cons_eq h fun t => t.stops_comma rfl
      rw [iharg harg, ihargs hargs]
  | constant c =>
    cases d' with
    | constant c' => rw [Constant.eq_of_token (List.cons.inj h).1]
    | var name' => exact absurd (List.cons.inj h).1 (c.token_ne name')
  | var name =>
    cases d' with
    | constant c' => exact absurd (List.cons.inj h).1.symm (c'.token_ne name)
    | var name' => rw [Name.eq_of_token (List.cons.inj h).1]

end LetLang.Grammar
