import LetLang.Proofs.Expr.Read

/-!
# Derivations are read back

The readers find every derivation of the grammar (`Derivation.parses`): run on the tokens of a
derivation with others after them that do not go on with it, the reader of its nonterminal gives its
meaning and leaves those others.

For each production there is a rule about the readers that says the same thing as the production,
with a condition on the first token where there is a choice. One token of lookahead always decides,
so the rules can be put together along a derivation.
-/

namespace LetLang.Grammar

open Reader LetLang.Expr

/-! ### What the readers accept -/

/-- What stops a derivation is no sign that the reader of its operators takes. -/
theorem Stops.noneFirst_binary {n : Nonterminal} {rest : List Token} (h : Stops n rest) {k : Nat}
    (hk : k < n.looseness) : NoneFirst (binaryOfRank? k) rest := by
  intro t ht
  rw [Option.eq_none_iff_forall_not_mem]
  intro op hop
  obtain ⟨hkind, hmem⟩ := binaryOfRank?_eq_some.mp hop
  have hrank : op.rank = k := mem_operators_iff.mp hmem
  exact h t ht (.inr (.inr ⟨op, Token.Kind.binaryOp?_eq_some.mpr hkind, hrank ▸ hk⟩))

/-- What stops a derivation is no parenthesis that would make a call of its last name. -/
theorem Stops.noneFirst_leftParen {n : Nonterminal} {rest : List Token} (h : Stops n rest) :
    NoneFirst (Token.Kind.symbol? .leftParen) rest :=
  fun t ht => Token.Kind.symbol?_eq_none.mpr fun hparen => h t ht (.inl hparen)

/-- What stops a list is no comma. -/
theorem Stops.noneFirst_comma {n : Nonterminal} {rest : List Token} (h : Stops n rest)
    (hn : n.isList = true) : NoneFirst (Token.Kind.symbol? .comma) rest :=
  fun t ht => Token.Kind.symbol?_eq_none.mpr fun hcomma => h t ht (.inr (.inl ⟨hn, hcomma⟩))

/-- A keyword that is not among the first tokens of a derivation is not its first one. -/
theorem Begins.noneFirst_keyword {h : Nat} {w : List Token} (hw : Begins h w) (k : Keyword)
    (hk : ∀ i, firstHeight (.keyword k) = some i → h < i) :
    NoneFirst (Token.Kind.keyword? k) w :=
  fun t ht => Token.Kind.keyword?_eq_none.mpr (hw.kind_ne hk t ht)

theorem Begins.noneFirst_symbol {h : Nat} {w : List Token} (hw : Begins h w) (s : Symbol)
    (hs : ∀ i, firstHeight (.symbol s) = some i → h < i) :
    NoneFirst (Token.Kind.symbol? s) w :=
  fun t ht => Token.Kind.symbol?_eq_none.mpr (hw.kind_ne hs t ht)

/-- A grouping does not begin with a unary sign. -/
theorem Begins.noneFirst_unary {w : List Token} (hw : Begins 1 w) :
    NoneFirst Token.Kind.unaryOp? w := by
  intro t ht
  rw [Option.eq_none_iff_forall_not_mem]
  intro op hop
  refine hw.kind_ne (fun i hi => ?_) t ht (Token.Kind.unaryOp?_eq_some.mp hop)
  cases op <;> cases hi <;> decide

/-! ### Rules of the readers -/

section

variable {ts mid mid' rest : List Token} {e : Expr}

/-- `let` bindings `in` an expression is an expression. -/
theorem run_expression_let (keyword : Terminal (.keyword .let_))
    (separator : Terminal (.keyword .in_)) {bs : List (Binding Expr)}
    (hbs : (items (readBinding expression)).run ts = (.ok bs, separator.token :: mid))
    (hbody : expression.run mid = (.ok e, rest)) :
    expression.run (keyword.token :: ts) = (.ok (.letIn bs e keyword.token.line), rest) := by
  rw [expression_eq, readAround, readExpression,
    run_bind_of_ok _ (run_keywordLine?_cons keyword.kind_eq ts)]
  refine (run_bind_of_ok _ hbs).trans ?_
  rw [run_bind_of_ok _ (run_keyword_cons separator.kind_eq _ mid), run_bind_of_ok _ hbody]
  rfl

/-- A conditional is an expression. It does not begin with `let`. -/
theorem run_expression_of_conditionalLevel (hts : NoneFirst (Token.Kind.keyword? .let_) ts)
    (h : conditionalLevel.run ts = (.ok e, rest)) : expression.run ts = (.ok e, rest) := by
  rw [expression_eq, readAround, readExpression,
    run_bind_of_ok _ (run_keywordLine?_of_noneFirst hts)]
  exact h

/-- A name, an equals sign and an expression are a binding. -/
theorem run_readBinding (name : Name) (sign : Terminal (.symbol .equal))
    (h : expression.run ts = (.ok e, rest)) :
    (readBinding expression).run (name.token :: sign.token :: ts) =
      (.ok ⟨name.name, e, name.token.line⟩, rest) := by
  have hname := Token.Kind.identifier?_eq_some.mpr name.kind_eq
  rw [readBinding, run_bind_of_ok _ (run_take_cons hname _ _)]
  refine (run_bind_of_ok _ (run_symbol_cons sign.kind_eq _ ts)).trans ?_
  rw [run_bind_of_ok _ h]
  rfl

/-- `if` `(` expression `)` expression `else` expression is a conditional. -/
theorem run_conditionalLevel_if (keyword : Terminal (.keyword .if_))
    (left : Terminal (.symbol .leftParen)) (right : Terminal (.symbol .rightParen))
    (separator : Terminal (.keyword .else_)) {condition onTrue onFalse : Expr}
    (hcondition : expression.run ts = (.ok condition, right.token :: mid))
    (htrue : expression.run mid = (.ok onTrue, separator.token :: mid'))
    (hfalse : expression.run mid' = (.ok onFalse, rest)) :
    conditionalLevel.run (keyword.token :: left.token :: ts) =
      (.ok (.conditional condition onTrue onFalse keyword.token.line), rest) := by
  rw [conditionalLevel, readConditional,
    run_bind_of_ok _ (run_keywordLine?_cons keyword.kind_eq _)]
  refine (run_bind_of_ok _ (run_symbol_cons left.kind_eq _ ts)).trans ?_
  rw [run_bind_of_ok _ hcondition, run_bind_of_ok _ (run_symbol_cons right.kind_eq _ mid),
    run_bind_of_ok _ htrue, run_bind_of_ok _ (run_keyword_cons separator.kind_eq _ mid'),
    run_bind_of_ok _ hfalse]
  rfl

/-- The loosest level of operands is a conditional. It does not begin with `if`. -/
theorem run_conditionalLevel_of_binaryLevel (hts : NoneFirst (Token.Kind.keyword? .if_) ts)
    (h : (binaryLevel 7).run ts = (.ok e, rest)) : conditionalLevel.run ts = (.ok e, rest) := by
  rw [conditionalLevel, readConditional, run_bind_of_ok _ (run_keywordLine?_of_noneFirst hts)]
  exact h

/-- An operand of a level and a tail are an operand of the next level. -/
theorem run_binaryLevel_succ {k : Nat} {e' : Expr} (hfirst : (binaryLevel k).run ts = (.ok e, mid))
    (htail : (readTail (binaryLevel k) k e).run mid = (.ok e', rest)) :
    (binaryLevel (k + 1)).run ts = (.ok e', rest) := by
  exact (run_bind_of_ok _ hfirst).trans htail

/-- A tail ends where no sign of its rank comes. -/
theorem run_readTail_end {k : Nat} (hts : NoneFirst (binaryOfRank? k) ts) (left : Expr) :
    (readTail (binaryLevel k) k left).run ts = (.ok left, ts) := by
  rw [readTail_eq, readJoined, run_bind_of_ok _ (run_take?_of_noneFirst hts)]
  rfl

/-- A sign of the rank and an operand are joined to the operand before them, and the tail goes on.
-/
theorem run_readTail_more {k : Nat} (sign : BinarySign k) {left e' : Expr}
    (hoperand : (binaryLevel k).run ts = (.ok e, mid))
    (htail : (readTail (binaryLevel k) k (.binary sign.op left e sign.token.line)).run mid =
      (.ok e', rest)) :
    (readTail (binaryLevel k) k left).run (sign.token :: ts) = (.ok e', rest) := by
  have hsign := binaryOfRank?_eq_some.mpr ⟨sign.kind_eq, sign.mem_operators⟩
  rw [readTail_eq, readJoined, run_bind_of_ok _ (run_take?_cons hsign ts)]
  exact (run_bind_of_ok _ hoperand).trans htail

/-- A unary sign before an operand of level zero is one. -/
theorem run_binaryLevel_unary (sign : UnarySign) (h : (binaryLevel 0).run ts = (.ok e, rest)) :
    (binaryLevel 0).run (sign.token :: ts) = (.ok (.unary sign.op e sign.token.line), rest) := by
  have hsign := Token.Kind.unaryOp?_eq_some.mpr sign.kind_eq
  rw [binaryLevel_zero_eq, readSigned, run_bind_of_ok _ (run_take?_cons hsign ts)]
  exact run_bind_of_ok _ h

theorem run_binaryLevel_of_primaryLevel (hts : NoneFirst Token.Kind.unaryOp? ts)
    (h : primaryLevel.run ts = (.ok e, rest)) :
    (binaryLevel 0).run ts = (.ok e, rest) := by
  rw [binaryLevel_zero_eq, readSigned, run_bind_of_ok _ (run_take?_of_noneFirst hts)]
  exact h

theorem run_primaryLevel_group (left : Terminal (.symbol .leftParen))
    (right : Terminal (.symbol .rightParen))
    (h : expression.run ts = (.ok e, right.token :: rest)) :
    primaryLevel.run (left.token :: ts) = (.ok e, rest) := by
  rw [primaryLevel, readPrimary, run_bind_of_ok _ (run_hasSymbol_cons left.kind_eq ts)]
  refine (run_bind_of_ok _ h).trans ?_
  rw [run_bind_of_ok _ (run_symbol_cons right.kind_eq _ rest)]
  rfl

/-- A name begins a call or is a variable, which the next token decides. -/
theorem run_primaryLevel_name (name : Name)
    (h : (readNamed (items expression) name.name name.token.line).run ts = (.ok e, rest)) :
    primaryLevel.run (name.token :: ts) = (.ok e, rest) := by
  have hname := Token.Kind.identifier?_eq_some.mpr name.kind_eq
  have hparen : NoneFirst (Token.Kind.symbol? .leftParen) (name.token :: ts) :=
    (begins_cons name.kind_eq rfl (Nat.le_refl 0) ts).noneFirst_symbol .leftParen
      (by simp [firstHeight])
  rw [primaryLevel, readPrimary, run_bind_of_ok _ (run_hasSymbol_of_noneFirst hparen)]
  exact (run_bind_of_ok _ (run_take?_cons hname ts)).trans h

theorem run_readNamed_call (left : Terminal (.symbol .leftParen)) (name : String) (line : Nat)
    {args : List Expr}
    (h : ∀ expected, (toParen (items expression) expected).run ts = (.ok args, rest)) :
    (readNamed (items expression) name line).run (left.token :: ts) =
      (.ok (.call name args line), rest) := by
  rw [readNamed, run_bind_of_ok _ (run_hasSymbol_cons left.kind_eq ts)]
  exact run_bind_of_ok _ (h _)

theorem run_readNamed_var (hts : NoneFirst (Token.Kind.symbol? .leftParen) ts) (name : String)
    (line : Nat) :
    (readNamed (items expression) name line).run ts = (.ok (.var name line), ts) := by
  rw [readNamed, run_bind_of_ok _ (run_hasSymbol_of_noneFirst hts)]
  rfl

/-- A token that denotes a value is an operand. -/
theorem run_primaryLevel_constant (c : Constant) (ts : List Token) :
    primaryLevel.run (c.token :: ts) =
      (.ok (.literal c.value c.token.line), ts) := by
  have hvalue := literalOf?_eq_some.mpr c.denotes
  have hparen : NoneFirst (Token.Kind.symbol? .leftParen) (c.token :: ts) :=
    (begins_cons rfl c.firstHeight_eq (Nat.le_refl 0) ts).noneFirst_symbol .leftParen
      (by simp [firstHeight])
  have hname : NoneFirst Token.Kind.identifier? (c.token :: ts) := by
    intro t ht
    obtain rfl : c.token = t := Option.some.inj ht
    rw [Option.eq_none_iff_forall_not_mem]
    intro name hname
    rw [Token.Kind.identifier?_eq_some.mp hname] at hvalue
    cases hvalue
  rw [primaryLevel, readPrimary, run_bind_of_ok _ (run_hasSymbol_of_noneFirst hparen)]
  refine (run_bind_of_ok _ (run_take?_of_noneFirst hname)).trans ?_
  exact run_bind_of_ok _ (run_take_cons hvalue _ ts)

end

/-! ### Derivations -/

/-- The reader of a nonterminal, run on `ts`, gives `a` and leaves `rest`. The reader of a tail is
given the operand before it. -/
def Parses : (n : Nonterminal) → List Token → Meaning n → List Token → Prop
  | .expression, ts, e, rest => expression.run ts = (.ok e, rest)
  | .bindings, ts, bs, rest => (items (readBinding expression)).run ts = (.ok bs, rest)
  | .binding, ts, b, rest => (readBinding expression).run ts = (.ok b, rest)
  | .conditional, ts, e, rest => conditionalLevel.run ts = (.ok e, rest)
  | .level k, ts, e, rest => (binaryLevel k).run ts = (.ok e, rest)
  | .tail k, ts, f, rest => ∀ left, (readTail (binaryLevel k) k left).run ts = (.ok (f left), rest)
  | .arguments, ts, es, rest => (items expression).run ts = (.ok es, rest)
  | .grouping, ts, e, rest | .call, ts, e, rest | .literal, ts, e, rest =>
    primaryLevel.run ts = (.ok e, rest)

/-- The reader of a nonterminal gives back the meaning of a derivation, and leaves the tokens after
it, if these do not go on with the derivation. -/
theorem Derivation.parses {n : Nonterminal} (d : Derivation n) (rest : List Token)
    (h : Stops n rest) : Parses n (d.yield ++ rest) d.meaning rest := by
  induction d generalizing rest with
  | letIn keyword bs separator body ihbs ihbody =>
    simp only [yield, List.cons_append, List.append_assoc]
    exact run_expression_let keyword separator (ihbs _ (separator.stops_keyword _ _))
      (ihbody rest h)
  | noLet d ih =>
    -- a conditional does not begin with `let`
    have hfirst := ((d.begins rfl).append rest).noneFirst_keyword .let_ (by simp [firstHeight])
    exact run_expression_of_conditionalLevel hfirst (ih rest h)
  | lastBinding b ih =>
    have hb := ih rest (h.mono (by simp [Nonterminal.isList]) (Nat.le_refl 7))
    exact run_items_last bindings_eq hb (h.noneFirst_comma rfl)
  | moreBindings b comma bs ihb ihbs =>
    simp only [yield, List.cons_append, List.append_assoc]
    exact run_items_more bindings_eq (ihb _ (comma.stops_comma rfl _))
      comma.kind_eq (ihbs rest h)
  | binding name sign value ih => exact run_readBinding name sign (ih rest h)
  | ifElse keyword left condition right onTrue separator onFalse ihc iht ihf =>
    simp only [yield, List.cons_append, List.append_assoc]
    exact run_conditionalLevel_if keyword left right separator
      (ihc _ (right.stops_rightParen _ _)) (iht _ (separator.stops_keyword _ _)) (ihf rest h)
  | noIf d ih =>
    have hfirst := ((d.begins rfl).append rest).noneFirst_keyword .if_ (by simp [firstHeight])
    exact run_conditionalLevel_of_binaryLevel hfirst (ih rest h)
  | chain first tail ihfirst ihtail =>
    -- the first operand ends at a sign of this rank, or at what stops the whole level
    simp only [yield, List.append_assoc]
    exact run_binaryLevel_succ (ihfirst _ (stops_operand tail h)) (ihtail rest h _)
  | endTail => exact run_readTail_end (h.noneFirst_binary (Nat.lt_succ_self _))
  | moreTail sign operand tail ihoperand ihtail =>
    intro left
    simp only [yield, List.cons_append, List.append_assoc]
    exact run_readTail_more sign (ihoperand _ (stops_operand tail h)) (ihtail rest h _)
  | unary sign operand ih => exact run_binaryLevel_unary sign (ih rest h)
  | noUnary d ih =>
    exact run_binaryLevel_of_primaryLevel ((d.begins rfl).append rest).noneFirst_unary (ih rest h)
  | group left inner right ih =>
    simp only [yield, List.cons_append, List.append_assoc]
    exact run_primaryLevel_group left right (ih _ (right.stops_rightParen _ _))
  | noGroup d ih => exact ih rest h
  | emptyCall name left right =>
    refine run_primaryLevel_name name (run_readNamed_call left _ _ fun expected => ?_)
    exact run_toParen_nil right.kind_eq expected rest
  | call name left args right ih =>
    simp only [yield, List.cons_append, List.append_assoc]
    refine run_primaryLevel_name name (run_readNamed_call left _ _ fun expected => ?_)
    -- arguments do not begin with `)`, so the list is not taken to be empty
    have hfirst := ((args.begins rfl).append (right.token :: rest)).noneFirst_symbol .rightParen
      (by simp [firstHeight])
    have hargs := ih _ (right.stops_rightParen _ rest)
    exact run_toParen right.kind_eq expected hfirst hargs
  | noCall d ih => exact ih rest h
  | lastArgument arg ih =>
    have harg := ih rest (h.mono (by simp [Nonterminal.isList]) (Nat.le_refl 7))
    exact run_items_last arguments_eq harg (h.noneFirst_comma rfl)
  | moreArguments arg comma args iharg ihargs =>
    simp only [yield, List.cons_append, List.append_assoc]
    exact run_items_more arguments_eq (iharg _ (comma.stops_comma rfl _)) comma.kind_eq
      (ihargs rest h)
  | constant c => exact run_primaryLevel_constant c rest
  | var name =>
    -- a name is a variable because `(` would go on with it as a call
    exact run_primaryLevel_name name (run_readNamed_var h.noneFirst_leftParen _ _)

end LetLang.Grammar
