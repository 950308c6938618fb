import LetLang.Proofs.Expr.Declaration
import LetLang.Proofs.Expr.Unambiguous

/-!
# Statements

A list of tokens is read as a statement exactly when it is a statement of the grammar, a semicolon,
and then nothing or the end of the input. A declaration is told apart from an expression by its
first token, and its parameters are checked to be distinct, which the grammar asks of them too.
Since the grammar is unambiguous, the tree of a statement is unique.
-/

namespace LetLang.Grammar

open Reader LetLang.Expr

/-! ### Parameters -/

namespace Parameters

/-- Parameters begin with a name. -/
theorem exists_yield_eq_cons (ps : Parameters) :
    ∃ (name : Name) (w : List Token), ps.yield = name.token :: w := by
  cases ps with
  | last name => exact ⟨name, [], rfl⟩
  | more name comma ps => exact ⟨name, _, rfl⟩

/-- Parameters are read back, if no comma goes on with them. -/
theorem run_items : ∀ (ps : Parameters) {rest : List Token},
    NoneFirst (Token.Kind.symbol? .comma) rest →
      (items parameter).run (ps.yield ++ rest) = (.ok (found (some ps)), rest)
  | last name, rest, hrest => by
    have hname := Token.Kind.identifier?_eq_some.mpr name.kind_eq
    exact run_items_last parameters_eq (run_take_cons hname _ rest) hrest
  | more name comma ps, rest, hrest => by
    have hname := Token.Kind.identifier?_eq_some.mpr name.kind_eq
    exact run_items_more parameters_eq (run_take_cons hname _ _) comma.kind_eq (run_items ps hrest)

/-- Parameters that may be missing are read back up to the parenthesis that closes them. -/
theorem run_toParen (params : Option Parameters) (right : Terminal (.symbol .rightParen))
    (expected : String) (rest : List Token) :
    (toParen (items parameter) expected).run (params.elim [] yield ++ right.token :: rest) =
      (.ok (found params), rest) := by
  cases params with
  | none => exact run_toParen_nil right.kind_eq expected rest
  | some ps =>
    have hcomma : NoneFirst (Token.Kind.symbol? .comma) (right.token :: rest) :=
      (right.stops_rightParen .arguments rest).noneFirst_comma rfl
    refine Reader.run_toParen right.kind_eq expected (fun t ht => ?_) (run_items ps hcomma)
    obtain ⟨name, w, hyield⟩ := ps.exists_yield_eq_cons
    rw [Option.elim_some, hyield] at ht
    obtain rfl : name.token = t := Option.some.inj ht
    rw [name.kind_eq]
    rfl

end Parameters

/-! ### Distinct parameters -/

/-- No name is repeated if they are distinct and none of them has been seen before. -/
theorem firstRepeated?_eq_none {ps : List (String × Token)} {seen : List String} :
    firstRepeated? seen ps = none ↔
      (ps.map Prod.fst).Nodup ∧ ∀ name ∈ ps.map Prod.fst, name ∉ seen := by
  induction ps generalizing seen with
  | nil => simp [firstRepeated?]
  | cons p ps ih =>
    obtain ⟨name, t⟩ := p
    by_cases hseen : name ∈ seen
    · simp [firstRepeated?, hseen]
    · rw [firstRepeated?, if_neg hseen, ih, List.map_cons, List.nodup_cons]
      constructor
      · rintro ⟨hnodup, hnew⟩
        -- `name` is among those that the rest must avoid
        refine ⟨⟨fun hmem => hnew name hmem (List.mem_cons_self ..), hnodup⟩, fun x hx => ?_⟩
        obtain rfl | hx := List.mem_cons.mp hx
        · exact hseen
        · exact fun hxs => hnew x hx (List.mem_cons_of_mem _ hxs)
      · rintro ⟨⟨hname, hnodup⟩, hnew⟩
        refine ⟨hnodup, fun x hx hxs => ?_⟩
        obtain rfl | hxs := List.mem_cons.mp hxs
        · exact hname hx
        · exact hnew x (List.mem_cons_of_mem _ hx) hxs

/-- The check of the parameters passes exactly if their names are distinct, and consumes nothing. -/
theorem run_checkDistinct_eq_ok {function : String} {ps : List (String × Token)}
    {ts rest : List Token} :
    (checkDistinct function ps).run ts = (.ok (), rest) ↔ (ps.map Prod.fst).Nodup ∧ ts = rest := by
  have hnone : firstRepeated? [] ps = none ↔ _ := firstRepeated?_eq_none
  unfold checkDistinct
  cases hrepeated : firstRepeated? [] ps with
  | none =>
    have hnodup := (hnone.mp hrepeated).1
    constructor
    · intro h
      exact ⟨hnodup, (Prod.mk.inj h).2⟩
    · rintro ⟨-, rfl⟩
      rfl
  | some p =>
    constructor
    · intro h
      cases h
    · rintro ⟨hnodup, -⟩
      rw [hnone.mpr ⟨hnodup, by simp⟩] at hrepeated
      cases hrepeated

/-! ### Reading a statement -/

/-- The beginning of a declaration is read back, whatever follows. -/
theorem Head.run_readHead (h : Head) (rest : List Token) :
    (readHead (items parameter)).run (h.yield ++ rest) = (.ok h.value, rest) := by
  have hname := Token.Kind.identifier?_eq_some.mpr h.name.kind_eq
  simp only [Head.yield, List.cons_append, List.append_assoc, List.nil_append]
  rw [readHead, run_bind_of_ok _ (run_keyword_cons h.keyword.kind_eq _ _),
    run_bind_of_ok _ (run_take_cons hname _ _)]
  refine (run_bind_of_ok _ (run_symbol_cons h.left.kind_eq _ _)).trans ?_
  exact run_bind_of_ok _ (Parameters.run_toParen h.params h.right _ rest)

/-- A declaration with distinct parameters is read back. -/
theorem Head.run_declaration (h : Head) (arrow : Terminal (.symbol .arrow))
    (body : Derivation .expression) (hdistinct : (Statement.names h.params).Nodup)
    {rest : List Token} (hrest : Stops .expression rest) :
    declaration.run ((h.statement arrow body).yield ++ rest) =
      (.ok (h.statement arrow body).tree, rest) := by
  rw [← Parameters.map_fst_found] at hdistinct
  rw [h.yield_statement, List.append_assoc, List.cons_append, declaration, readDeclaration,
    run_bind_of_ok _ (h.run_readHead _)]
  refine (run_bind_of_ok _ (run_checkDistinct_eq_ok.mpr ⟨hdistinct, rfl⟩)).trans ?_
  refine (run_bind_of_ok _ (run_symbol_cons arrow.kind_eq _ _)).trans ?_
  rw [run_bind_of_ok _ (body.parses rest hrest), Parameters.map_fst_found]
  rfl

/-- What is read as a declaration is one, with distinct parameters. -/
theorem exists_statement_of_run_declaration {ts rest : List Token} {t : Expr}
    (hrun : declaration.run ts = (.ok t, rest)) :
    ∃ s : Statement, s.yield ++ rest = ts ∧ s.tree = t ∧ s.Distinct := by
  obtain ⟨x, mid, hhead, hmid⟩ := run_bind_eq_ok.mp hrun
  obtain ⟨_, rfl, h, rfl, rfl⟩ := gives_readHead.ok hhead
  obtain ⟨⟨⟩, mid', hdistinct, hbody⟩ := run_bind_eq_ok.mp hmid
  obtain ⟨hnodup, rfl⟩ := run_checkDistinct_eq_ok.mp hdistinct
  obtain ⟨_, rfl, arrow, body, rfl, rfl⟩ := (gives_readBody h).ok hbody
  rw [Parameters.map_fst_found] at hnodup
  refine ⟨h.statement arrow body, ?_, rfl, hnodup⟩
  rw [h.yield_statement, List.append_assoc]

/-- A statement that begins with the keyword of a declaration is one. -/
theorem run_statement_of_function {t : Token} (h : t.kind = .keyword .function)
    (ts : List Token) : statement.run (t :: ts) = (declaration >>= endStatement).run (t :: ts) := by
  have hkeyword := Token.Kind.keyword?_eq_some.mpr h
  have hstarts : startsDeclaration.run (t :: ts) = (.ok true, t :: ts) := by
    show (Except.ok ((some t).bind fun t => t.kind.keyword? .function).isSome, t :: ts) = _
    rw [Option.bind_some, hkeyword]
    rfl
  exact run_bind_of_ok _ hstarts

/-- A statement that does not begin with the keyword of a declaration is an expression. -/
theorem run_statement_of_noneFirst {ts : List Token}
    (h : NoneFirst (Token.Kind.keyword? .function) ts) :
    statement.run ts = (expression >>= endStatement).run ts := by
  have hstarts : startsDeclaration.run ts = (.ok false, ts) := by
    cases ts with
    | nil => rfl
    | cons t ts =>
      have hkeyword : t.kind.keyword? .function = none := h t rfl
      show (Except.ok ((some t).bind fun t => t.kind.keyword? .function).isSome, t :: ts) = _
      rw [Option.bind_some, hkeyword]
      rfl
  exact run_bind_of_ok _ hstarts

theorem run_readSemicolon_eq_ok {ts rest : List Token} :
    readSemicolon.run ts = (.ok (), rest) ↔
      ∃ semicolon : Terminal (.symbol .semicolon), ts = semicolon.token :: rest := by
  constructor
  · intro h
    obtain ⟨_, rfl, semicolon, rfl⟩ := (reads_readSemicolon (f := id) (n := 0) rfl).ok h
    exact ⟨semicolon, rfl⟩
  · rintro ⟨semicolon, rfl⟩
    exact run_bind_of_ok _ (run_hasSymbol_cons semicolon.kind_eq rest)

/-- Nothing is left before the end of the input. -/
def AtEnd (rest : List Token) : Prop := ∀ t ∈ rest.head?, t.kind = .endOfInput

/-- The check for the end passes exactly at the end, and consumes nothing. -/
theorem run_checkEnd_eq_ok {ts rest : List Token} :
    checkEnd.run ts = (.ok (), rest) ↔ AtEnd ts ∧ ts = rest := by
  cases ts with
  | nil =>
    show ((pure () : Reader Unit).run [] = _) ↔ _
    simp [AtEnd]
  | cons t ts =>
    show ((if t.kind.isEnd then pure () else failWith .trailingTokens : Reader Unit).run (t :: ts)
      = _) ↔ _
    by_cases hend : t.kind = .endOfInput
    · rw [hend]
      simp [AtEnd, hend, Token.Kind.isEnd]
    · have hisEnd : t.kind.isEnd = false := by
        cases hkind : t.kind with
        | endOfInput => exact absurd hkind hend
        | _ => rfl
      rw [hisEnd]
      simp [AtEnd, hend, failWith, run]

/-- A statement ends exactly with a semicolon before the end of the input. -/
theorem run_endStatement_eq_ok {e t : Expr} {ts rest : List Token} :
    (endStatement e).run ts = (.ok t, rest) ↔
      e = t ∧ AtEnd rest ∧
        ∃ semicolon : Terminal (.symbol .semicolon), ts = semicolon.token :: rest := by
  constructor
  · intro h
    obtain ⟨⟨⟩, mid, hsemicolon, hmid⟩ := run_bind_eq_ok.mp h
    obtain ⟨⟨⟩, mid', hend, hpure⟩ := run_bind_eq_ok.mp hmid
    obtain ⟨hatEnd, rfl⟩ := run_checkEnd_eq_ok.mp hend
    obtain ⟨⟨rfl⟩, rfl⟩ := Prod.mk.inj hpure
    exact ⟨rfl, hatEnd, run_readSemicolon_eq_ok.mp hsemicolon⟩
  · rintro ⟨rfl, hatEnd, hsemicolon⟩
    rw [endStatement, run_bind_of_ok _ (run_readSemicolon_eq_ok.mpr hsemicolon),
      run_bind_of_ok _ (run_checkEnd_eq_ok.mpr ⟨hatEnd, rfl⟩)]
    rfl

/-- A statement of the grammar is read back, if a semicolon and the end of the input follow. -/
theorem ofTokens_of_derives {w rest : List Token} {t : Expr} (h : Derives w t)
    (semicolon : Terminal (.symbol .semicolon)) (hrest : AtEnd rest) :
    ofTokens (w ++ semicolon.token :: rest) = .ok t := by
  have hstops := semicolon.stops_semicolon .expression rest
  have hend : (endStatement t).run (semicolon.token :: rest) = (.ok t, rest) :=
    run_endStatement_eq_ok.mpr ⟨rfl, hrest, semicolon, rfl⟩
  obtain ⟨s, rfl, rfl, hdistinct⟩ := h
  suffices hrun : statement.run (s.yield ++ semicolon.token :: rest) = (.ok s.tree, rest) by
    rw [ofTokens, hrun]
  cases s with
  | function keyword name left params right arrow body =>
    refine (run_statement_of_function keyword.kind_eq _).trans ?_
    let h : Head := ⟨keyword, name, left, params, right⟩
    exact (run_bind_of_ok _ (h.run_declaration arrow body hdistinct hstops)).trans hend
  | expression d =>
    have hfirst := ((d.begins rfl).append (semicolon.token :: rest)).noneFirst_keyword .function
      (by simp [firstHeight])
    refine (run_statement_of_noneFirst hfirst).trans ?_
    exact (run_bind_of_ok _ (d.parses _ hstops)).trans hend

/-- What is read as a statement is one of the grammar, before a semicolon and the end of the
input. -/
theorem exists_derives_of_run_statement {ts rest : List Token} {t : Expr}
    (hrun : statement.run ts = (.ok t, rest)) :
    ∃ (w : List Token) (semicolon : Terminal (.symbol .semicolon)),
      ts = w ++ semicolon.token :: rest ∧ AtEnd rest ∧ Derives w t := by
  obtain ⟨u, k, ts, rfl, hk, -⟩ | ⟨hnone, -⟩ :=
    run_take?_cases (Token.Kind.keyword? .function) ts
  · rw [run_statement_of_function (Token.Kind.keyword?_eq_some.mp hk)] at hrun
    obtain ⟨e, mid, hdeclaration, hmid⟩ := run_bind_eq_ok.mp hrun
    obtain ⟨rfl, hatEnd, semicolon, rfl⟩ := run_endStatement_eq_ok.mp hmid
    obtain ⟨s, hyield, htree, hdistinct⟩ := exists_statement_of_run_declaration hdeclaration
    exact ⟨s.yield, semicolon, hyield.symm, hatEnd, s, rfl, htree, hdistinct⟩
  · -- without the keyword it must be an expression
    rw [run_statement_of_noneFirst hnone] at hrun
    obtain ⟨e, mid, hexpression, hmid⟩ := run_bind_eq_ok.mp hrun
    obtain ⟨_, rfl, d, rfl, rfl⟩ := gives_expression.ok hexpression
    obtain ⟨rfl, hatEnd, semicolon, rfl⟩ := run_endStatement_eq_ok.mp hmid
    exact ⟨d.yield, semicolon, rfl, hatEnd, .expression d, rfl, rfl, trivial⟩

theorem exists_derives_of_ofTokens {ts : List Token} {t : Expr} (h : ofTokens ts = .ok t) :
    ∃ (w : List Token) (semicolon : Terminal (.symbol .semicolon)) (rest : List Token),
      ts = w ++ semicolon.token :: rest ∧ AtEnd rest ∧ Derives w t := by
  have hrun : statement.run ts = (.ok t, (statement.run ts).2) := Prod.ext h rfl
  obtain ⟨w, semicolon, hts, hend, hw⟩ := exists_derives_of_run_statement hrun
  exact ⟨w, semicolon, _, hts, hend, hw⟩

/-! ### Uniqueness -/

/-- Parameters before a closing parenthesis are determined by their tokens. -/
theorem Parameters.eq_of_append_eq {right right' : Terminal (.symbol .rightParen)}
    {rest rest' : List Token} :
    ∀ {ps ps' : Parameters},
      ps.yield ++ right.token :: rest = ps'.yield ++ right'.token :: rest' →
        ps = ps' ∧ right = right' ∧ rest = rest'
  | last name, last name', h => by
    obtain ⟨hname, hrest⟩ := List.cons.inj h
    obtain ⟨hright, hrest⟩ := List.cons.inj hrest
    exact ⟨congrArg last (Name.eq_of_token hname), Terminal.eq_of_token hright, hrest⟩
  | last name, more name' comma' ps', h => by
    have hcomma := (List.cons.inj (List.cons.inj h).2).1
    exact absurd (right.kind_eq.symm.trans (hcomma ▸ comma'.kind_eq)) (by decide)
  | more name comma ps, last name', h => by
    have hcomma := (List.cons.inj (List.cons.inj h).2).1
    exact absurd (comma.kind_eq.symm.trans (hcomma ▸ right'.kind_eq)) (by decide)
  | more name comma ps, more name' comma' ps', h => by
    obtain ⟨hname, hrest⟩ := List.cons.inj h
    obtain ⟨hcomma, hrest⟩ := List.cons.inj hrest
    obtain ⟨rfl, rfl, rfl⟩ := eq_of_append_eq hrest
    rw [Name.eq_of_token hname, Terminal.eq_of_token hcomma]
    exact ⟨rfl, rfl, rfl⟩

/-- Parameters do not begin with a closing parenthesis. -/
theorem Parameters.append_ne_cons (ps : Parameters) (right : Terminal (.symbol .rightParen))
    (w rest : List Token) : ps.yield ++ w ≠ right.token :: rest := by
  intro h
  obtain ⟨name, u, hyield⟩ := ps.exists_yield_eq_cons
  rw [hyield] at h
  have hkind := name.kind_eq
  rw [(List.cons.inj h).1, right.kind_eq] at hkind
  cases hkind

/-- Whether there are parameters is determined by the tokens as well. -/
theorem Parameters.option_eq_of_append_eq {right right' : Terminal (.symbol .rightParen)}
    {rest rest' : List Token} {params params' : Option Parameters}
    (h : params.elim [] yield ++ right.token :: rest =
      params'.elim [] yield ++ right'.token :: rest') :
    params = params' ∧ right = right' ∧ rest = rest' := by
  cases params with
  | none =>
    cases params' with
    | none =>
      obtain ⟨hright, hrest⟩ := List.cons.inj h
      exact ⟨rfl, Terminal.eq_of_token hright, hrest⟩
    | some ps' => exact absurd h.symm (ps'.append_ne_cons right _ _)
  | some ps =>
    cases params' with
    | none => exact absurd h (ps.append_ne_cons right' _ _)
    | some ps' =>
      obtain ⟨rfl, hright, hrest⟩ := eq_of_append_eq h
      exact ⟨rfl, hright, hrest⟩

/-- A statement is determined by its yield. -/
theorem Statement.eq_of_yield_eq {s s' : Statement} (h : s.yield = s'.yield) : s = s' := by
  cases s with
  | function keyword name left params right arrow body =>
    cases s' with
    | function keyword' name' left' params' right' arrow' body' =>
      obtain ⟨hkeyword, h₁⟩ := List.cons.inj h
      obtain ⟨hname, h₂⟩ := List.cons.inj h₁
      obtain ⟨hleft, h₃⟩ := List.cons.inj h₂
      obtain ⟨rfl, rfl, h₄⟩ := Parameters.option_eq_of_append_eq h₃
      obtain ⟨harrow, hbody⟩ := List.cons.inj h₄
      rw [Terminal.eq_of_token hkeyword, Name.eq_of_token hname, Terminal.eq_of_token hleft,
        Terminal.eq_of_token harrow, Derivation.eq_of_yield_eq hbody]
    | expression d' =>
      exact absurd h.symm ((d'.begins rfl).ne_cons keyword.kind_eq (by simp [firstHeight]) _)
  | expression d =>
    cases s' with
    | function keyword' =>
      exact absurd h ((d.begins rfl).ne_cons keyword'.kind_eq (by simp [firstHeight]) _)
    | expression d' => rw [Derivation.eq_of_yield_eq h]

/-- Reading accepts exactly the statements of the grammar: a list of tokens is read as the tree `t`
if and only if it is a statement that derives `t`, a semicolon, and then nothing or the end of the
input. And every list of tokens is a statement in at most one way, so its tree is unique. -/
theorem ofTokens_iff_derives :
    (∀ (ts : List Token) (t : Expr), ofTokens ts = .ok t ↔
      ∃ (w : List Token) (semicolon : Token) (rest : List Token),
        ts = w ++ semicolon :: rest ∧ semicolon.kind = .symbol .semicolon ∧
          (∀ next ∈ rest.head?, next.kind = .endOfInput) ∧ Derives w t) ∧
    (∀ w : List Token, Subsingleton { s : Statement // s.yield = w }) ∧
    (∀ w : List Token, Subsingleton { t : Expr // Derives w t }) := by
  refine ⟨fun ts t => ⟨fun h => ?_, ?_⟩, fun w => ⟨?_⟩, fun w => ⟨?_⟩⟩
  · obtain ⟨w, semicolon, rest, hts, hend, hw⟩ := exists_derives_of_ofTokens h
    exact ⟨w, semicolon.token, rest, hts, semicolon.kind_eq, hend, hw⟩
  · rintro ⟨w, semicolon, rest, rfl, hsemicolon, hend, hw⟩
    exact ofTokens_of_derives hw ⟨semicolon, hsemicolon⟩ hend
  · rintro ⟨s, rfl⟩ ⟨s', h⟩
    exact Subtype.ext (Statement.eq_of_yield_eq h.symm)
  · rintro ⟨t, s, rfl, rfl, -⟩ ⟨t', s', h, rfl, -⟩
    obtain rfl := Statement.eq_of_yield_eq h
    rfl

end LetLang.Grammar
