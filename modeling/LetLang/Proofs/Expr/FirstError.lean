import LetLang.Proofs.Expr.Follows
import LetLang.Proofs.Expr.Statement

/-!
# The first impossible token

The reader of statements stops at the first token that cannot continue what it has read. What it has
read begins a statement (`run_statement_eq_error`): that is what `Gives` says of its parts. And
with the token that stopped it, it begins none (`not_viable_of_run_statement`): a statement that
started so would be read to its end, but what stops the reader does not depend on later tokens.

The exception is a parameter that repeats an earlier one. It is reported when the parameters have
been closed, and the names of parameters are not a matter of the grammar.
-/

namespace LetLang.Grammar

open Reader LetLang.Expr

/-! ### Statements -/

/-- The tokens are a statement of the grammar with its semicolon. The names of parameters may be
repeated. -/
def IsStatement (w : List Token) : Prop :=
  ∃ (s : Statement) (semicolon : Terminal (.symbol .semicolon)), w = s.yield ++ [semicolon.token]

/-- The tokens begin a statement. -/
def Viable (w : List Token) : Prop := ∃ u, IsStatement (w ++ u)

/-! ### Declarations -/

/-- The parameter `p` repeats an earlier one, and none before it does. -/
def Head.Repeats (h : Head) (p : Name) : Prop :=
  ∃ before after, h.parameters = before ++ p :: after ∧ (before.map Name.name).Nodup ∧
    p.name ∈ before.map Name.name

/-- The body of a declaration and the semicolon after it complete the declaration to a statement. -/
theorem gives_readBody_endStatement (h : Head) :
    Gives (fun (_ : Expr) w => IsStatement (h.yield ++ w))
      (readBody expression h.keyword.token.line h.name.name (Parameters.found h.params) >>=
        endStatement) := by
  refine (gives_readBody h).bind ?_
  rintro _ _ ⟨arrow, body, rfl, rfl⟩
  refine (gives_endStatement _).weaken ?_
  rintro _ _ ⟨-, semicolon, rfl⟩
  exact ⟨h.statement arrow body, semicolon, by simp [Head.yield_statement]⟩

/-- The beginning of a declaration begins a statement. -/
theorem Head.viable (h : Head) : Viable h.yield := by
  obtain ⟨-, u, hu⟩ := (gives_readBody_endStatement h).nonempty
  exact ⟨u, hu⟩

/-- An expression and the semicolon after it are a statement. -/
theorem gives_expression_endStatement :
    Gives (fun (_ : Expr) w => IsStatement w) (expression >>= endStatement) := by
  refine gives_expression.bind ?_
  rintro _ _ ⟨d, rfl, rfl⟩
  refine (gives_endStatement _).weaken ?_
  rintro _ _ ⟨-, semicolon, rfl⟩
  exact ⟨.expression d, semicolon, rfl⟩

/-! ### Repeated parameters -/

theorem exists_of_firstRepeated? {ps : List (String × Token)} {seen : List String}
    {p : String × Token} (h : firstRepeated? seen ps = some p) :
    ∃ before after, ps = before ++ p :: after ∧ (before.map Prod.fst).Nodup ∧
      (∀ name ∈ before.map Prod.fst, name ∉ seen) ∧ p.1 ∈ before.map Prod.fst ++ seen := by
  induction ps generalizing seen with
  | nil => cases h
  | cons q ps ih =>
    rw [firstRepeated?] at h
    by_cases hseen : q.1 ∈ seen
    · rw [if_pos hseen] at h
      obtain rfl := Option.some.inj h
      exact ⟨[], ps, rfl, List.nodup_nil, List.forall_mem_nil _, hseen⟩
    · rw [if_neg hseen] at h
      obtain ⟨before, after, rfl, hnodup, hnew, hmem⟩ := ih h
      refine ⟨q :: before, after, rfl, ?_, ?_, ?_⟩
      · rw [List.map_cons, List.nodup_cons]
        exact ⟨fun hq => hnew q.1 hq List.mem_cons_self, hnodup⟩
      · intro name hname
        rw [List.map_cons, List.mem_cons] at hname
        rcases hname with rfl | hname
        · exact hseen
        · exact fun hmem => hnew name hname (List.mem_cons_of_mem _ hmem)
      · simp only [List.map_cons, List.mem_append, List.mem_cons] at hmem ⊢
        rcases hmem with hmem | hmem | hmem
        · exact .inl (.inr hmem)
        · exact .inl (.inl hmem)
        · exact .inr hmem

/-- The error for a repeated parameter of a declaration. -/
def Head.repeatedError (h : Head) (p : Name) : SyntaxError :=
  ⟨.duplicateParameter p.name h.name.name, p.token.lexeme, p.token.position⟩

/-- The check of the parameters passes, or it stops because of the first repeated one. -/
theorem run_checkDistinct_cases (h : Head) (ts : List Token) :
    (checkDistinct h.name.name (Parameters.found h.params)).run ts = (.ok (), ts) ∨
    ∃ p, h.Repeats p ∧ (checkDistinct h.name.name (Parameters.found h.params)).run ts =
      (.error (h.repeatedError p), ts) := by
  unfold checkDistinct
  cases hrepeated : firstRepeated? [] (Parameters.found h.params) with
  | none => exact .inl rfl
  | some p =>
    obtain ⟨before, after, hsplit, hnodup, -, hmem⟩ := exists_of_firstRepeated? hrepeated
    -- what was found are the names of the list
    obtain ⟨before', rest', hlist, rfl, hrest⟩ := List.map_eq_append_iff.mp hsplit
    obtain ⟨p', after', rfl, rfl, rfl⟩ := List.map_eq_cons_iff.mp hrest
    rw [List.map_map] at hnodup
    rw [List.append_nil, List.map_map] at hmem
    exact .inr ⟨p', ⟨before', after', hlist, hnodup, hmem⟩, rfl⟩

/-! ### Where the reader stops -/

/-- The reader of statements stops in front of a token, and what comes before it begins a statement;
or else it stops after parameters one of which is repeated. -/
theorem run_statement_eq_error {ts rest : List Token} {e : SyntaxError}
    (hrun : statement.run ts = (.error e, rest)) :
    (e.StopsAt rest ∧ ∃ before, ts = before ++ rest ∧ Viable before) ∨
    ∃ (h : Head) (p : Name), h.Repeats p ∧ ts = h.yield ++ rest ∧ e = h.repeatedError p := by
  obtain ⟨u, t, ts, rfl, ht, -⟩ | ⟨hnone, -⟩ := run_take?_cases (Token.Kind.keyword? .function) ts
  · rw [run_statement_of_function (Token.Kind.keyword?_eq_some.mp ht), declaration,
      readDeclaration, bind_assoc] at hrun
    rcases hhead : (readHead (items parameter)).run (t :: ts) with ⟨e' | x, mid⟩
    · -- stopped before the parameters are closed
      rw [run_bind_of_error _ hhead] at hrun
      obtain ⟨⟨rfl⟩, rfl⟩ := Prod.mk.inj hrun
      obtain ⟨hstops, before, w, -, hsplit, h, -, hw⟩ := gives_readHead.error hhead
      obtain ⟨u, hu⟩ := h.viable
      refine .inl ⟨hstops, before, hsplit.symm, w ++ u, ?_⟩
      rwa [← List.append_assoc, ← hw]
    · obtain ⟨_, hyield, h, rfl, rfl⟩ := gives_readHead.ok hhead
      rw [run_bind_of_ok _ hhead] at hrun
      replace hrun : (checkDistinct h.name.name (Parameters.found h.params) >>= fun _ =>
          readBody expression h.keyword.token.line h.name.name (Parameters.found h.params) >>=
            endStatement).run mid = (.error e, rest) := by
        rw [← hrun]
        simp only [Head.value, bind_assoc]
      rcases run_checkDistinct_cases h mid with hdistinct | ⟨p, hp, hdistinct⟩
      · rw [run_bind_of_ok _ hdistinct] at hrun
        obtain ⟨hstops, before, w, -, rfl, hw⟩ := (gives_readBody_endStatement h).error hrun
        refine .inl ⟨hstops, h.yield ++ before, ?_, w, ?_⟩
        · rw [← hyield, List.append_assoc]
        · rwa [List.append_assoc]
      · rw [run_bind_of_error _ hdistinct] at hrun
        obtain ⟨⟨rfl⟩, rfl⟩ := Prod.mk.inj hrun
        exact .inr ⟨h, p, hp, hyield.symm, rfl⟩
  · rw [run_statement_of_noneFirst hnone] at hrun
    obtain ⟨hstops, before, w, -, hsplit, hw⟩ := gives_expression_endStatement.error hrun
    exact .inl ⟨hstops, before, hsplit.symm, w, hw⟩

/-- A statement is read, unless it repeats a parameter. -/
theorem run_statement_of_isStatement {w : List Token} (h : IsStatement w) :
    (∃ t, ofTokens w = .ok t) ∨
    ∃ (h : Head) (p : Name), ofTokens w = .error (h.repeatedError p) := by
  obtain ⟨s, semicolon, rfl⟩ := h
  have hend : AtEnd [] := fun _ ht => by cases ht
  cases s with
  | expression d =>
    exact .inl ⟨d.meaning, ofTokens_of_derives ⟨.expression d, rfl, rfl, trivial⟩ semicolon hend⟩
  | function keyword name left params right arrow body =>
    let h : Head := ⟨keyword, name, left, params, right⟩
    rcases run_checkDistinct_cases h (arrow.token :: (body.yield ++ [semicolon.token]))
      with hdistinct | ⟨p, -, hdistinct⟩
    · have hnodup := (run_checkDistinct_eq_ok.mp hdistinct).1
      rw [Parameters.map_fst_found] at hnodup
      exact .inl ⟨_, ofTokens_of_derives ⟨h.statement arrow body, rfl, rfl, hnodup⟩ semicolon hend⟩
    · refine .inr ⟨h, p, ?_⟩
      have hyield : (h.statement arrow body).yield ++ [semicolon.token] =
          h.yield ++ arrow.token :: (body.yield ++ [semicolon.token]) := by
        rw [h.yield_statement, List.append_assoc, List.cons_append]
      have hdeclaration : declaration.run ((h.statement arrow body).yield ++ [semicolon.token]) =
          (.error (h.repeatedError p), arrow.token :: (body.yield ++ [semicolon.token])) := by
        rw [hyield, declaration, readDeclaration, run_bind_of_ok _ (h.run_readHead _)]
        exact run_bind_of_error _ hdistinct
      have hstatement := (run_statement_of_function keyword.kind_eq _).trans
        (run_bind_of_error endStatement hdeclaration)
      exact congrArg Prod.fst hstatement

/-- No statement begins with what was read and the token that stopped the reader. -/
theorem not_viable_of_run_statement {before after : List Token} {t : Token} {e : SyntaxError}
    (hrun : statement.run (before ++ t :: after) = (.error e, t :: after))
    (hstops : e.StopsAt (t :: after)) : ¬ Viable (before ++ [t]) := by
  rintro ⟨u, hstatement⟩
  rw [List.append_assoc, List.singleton_append] at hstatement
  have hrun' : ofTokens (before ++ t :: u) = .error e :=
    congrArg Prod.fst (run_statement_append hrun (t :: u) rfl)
  rcases run_statement_of_isStatement hstatement with ⟨tree, hok⟩ | ⟨h, p, herror⟩
  · rw [hok] at hrun'
    cases hrun'
  · rw [herror] at hrun'
    exact hstops.notDuplicate ⟨_, _, (congrArg SyntaxError.fault (Except.error.inj hrun')).symm⟩

/-! ### The end of the input -/

theorem Constant.kind_ne (c : Constant) : c.token.kind ≠ .endOfInput := by
  intro hkind
  have hdenotes := c.denotes
  rw [hkind] at hdenotes
  cases hdenotes

/-- The end of the input is part of no derivation. -/
theorem Derivation.kind_ne {n : Nonterminal} (d : Derivation n) :
    ∀ t ∈ d.yield, t.kind ≠ .endOfInput := by
  induction d with
  | constant c =>
    intro t ht
    rw [List.mem_singleton.mp ht]
    exact c.kind_ne
  | _ =>
    simp_all [yield, Terminal.kind_eq, Name.kind_eq, UnarySign.kind_eq, BinarySign.kind_eq, or_imp]

theorem Parameters.kind_ne (ps : Parameters) : ∀ t ∈ ps.yield, t.kind ≠ .endOfInput := by
  induction ps <;> simp_all [yield, Terminal.kind_eq, Name.kind_eq]

theorem Statement.kind_ne (s : Statement) : ∀ t ∈ s.yield, t.kind ≠ .endOfInput := by
  cases s with
  | expression d => exact d.kind_ne
  | function keyword name left params right arrow body =>
    have hparams : ∀ t ∈ params.elim [] Parameters.yield, t.kind ≠ .endOfInput := by
      cases params with
      | none => exact fun _ ht => by cases ht
      | some ps => exact ps.kind_ne
    have hbody := body.kind_ne
    simp_all [yield, Terminal.kind_eq, Name.kind_eq, or_imp]

/-- The end of the input is part of no statement. -/
theorem Viable.kind_ne {w : List Token} (h : Viable w) : ∀ t ∈ w, t.kind ≠ .endOfInput := by
  obtain ⟨u, s, semicolon, hw⟩ := h
  intro t ht
  have hmem : t ∈ s.yield ++ [semicolon.token] := hw ▸ List.mem_append_left u ht
  rcases List.mem_append.mp hmem with hmem | hmem
  · exact s.kind_ne t hmem
  · rw [List.mem_singleton.mp hmem, semicolon.kind_eq]
    nofun

end LetLang.Grammar
