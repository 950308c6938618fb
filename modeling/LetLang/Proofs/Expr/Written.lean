import LetLang.Proofs.Expr.Lookahead
import LetLang.Proofs.Expr.MapLines
import LetLang.Proofs.Expr.WellFormed

/-!
# Trees as they are written

A tree is written with the tokens of its `kinds`: each operand of an operator in parentheses, and
all else as the grammar has it. A well-formed tree is written with tokens that can be read back
(`writable_kinds`), and tokens of these kinds derive the tree again, up to its line numbers
(`exists_derives`).
-/

namespace LetLang

open Token (Kind)

/-! ### Concrete syntax -/

/-- The kind of the token that denotes a value. -/
def Literal.kind : Literal → Kind
  | number x => .number x
  | quoted s => .quoted s
  | bool true => .keyword .true_
  | bool false => .keyword .false_

/-- A literal that can be written down: a number that is finite and not negative, or a text that the
escapes leave as it is. -/
def Literal.Writable : Literal → Prop
  | number x => Double.isNegative x = false ∧ Double.code x < Double.infinityCode
  | quoted s => Token.Escapable s.toList
  | bool _ => True

namespace Expr

/-- Tokens in parentheses. -/
def grouped (ks : List Kind) : List Kind := .symbol .leftParen :: (ks ++ [.symbol .rightParen])

/-- Lists of tokens with a comma between any two. -/
def commaJoined : List (List Kind) → List Kind
  | [] => []
  | [ks] => ks
  | ks :: more => ks ++ .symbol .comma :: commaJoined more

mutual

/-- The kinds of the tokens that a tree is written with. -/
def kinds : Expr → List Kind
  | literal v _ => [v.kind]
  | unary op operand _ => .symbol op.symbol :: grouped (kinds operand)
  | binary op left right _ => grouped (kinds left) ++ .symbol op.symbol :: grouped (kinds right)
  | conditional c t e _ =>
    .keyword .if_ :: (grouped (kinds c) ++ (kinds t ++ .keyword .else_ :: kinds e))
  | var name _ => [.identifier name]
  | letIn bindings body _ =>
    .keyword .let_ :: (commaJoined (bindingKinds bindings) ++ .keyword .in_ :: kinds body)
  | function name params body _ =>
    .keyword .function :: .identifier name ::
      (grouped (commaJoined (params.map fun p => [.identifier p])) ++ .symbol .arrow :: kinds body)
  | call name args _ => .identifier name :: grouped (commaJoined (listKinds args))

/-- The kinds of the tokens of each tree of a list. -/
def listKinds : List Expr → List (List Kind)
  | [] => []
  | e :: es => kinds e :: listKinds es

/-- The kinds of the tokens of each binding of a `let`. -/
def bindingKinds : List (Binding Expr) → List (List Kind)
  | [] => []
  | ⟨name, value, _⟩ :: bs => (.identifier name :: .symbol .equal :: kinds value) :: bindingKinds bs

end

/-- The tree, written down with a blank between any two tokens. -/
def written (e : Expr) : String := Token.spaced e.kinds

/-! ### Tokens that can be read back -/

theorem forall_mem_grouped {p : Kind → Prop} (hsymbol : ∀ s, p (.symbol s)) {ks : List Kind}
    (h : ∀ k ∈ ks, p k) : ∀ k ∈ grouped ks, p k := by
  unfold grouped
  rw [List.forall_mem_cons, List.forall_mem_append, List.forall_mem_singleton]
  exact ⟨hsymbol _, h, hsymbol _⟩

theorem forall_mem_commaJoined {p : Kind → Prop} (hsymbol : ∀ s, p (.symbol s))
    {more : List (List Kind)} (h : ∀ ks ∈ more, ∀ k ∈ ks, p k) : ∀ k ∈ commaJoined more, p k := by
  fun_induction commaJoined more with
  | case1 => exact fun k hk => absurd hk List.not_mem_nil
  | case2 ks => exact h ks List.mem_cons_self
  | case3 ks more hne ih =>
    obtain ⟨hks, hmore⟩ := List.forall_mem_cons.mp h
    rw [List.forall_mem_append, List.forall_mem_cons]
    exact ⟨hks, hsymbol _, ih hmore⟩

/-- What holds of all keywords and symbols, of all names, and of the tokens of allowed literals. -/
structure Covers (allowed : Literal → Prop) (p : Kind → Prop) : Prop where
  keyword : ∀ k, p (.keyword k)
  symbol : ∀ s, p (.symbol s)
  name : ∀ x, Token.IsName x → p (.identifier x)
  literal : ∀ v : Literal, allowed v → p v.kind

namespace Covers

variable {allowed : Literal → Prop} {p : Kind → Prop}

mutual

/-- A tree inside a statement is written with keywords, symbols, names and allowed literals. -/
theorem kinds (hp : Covers allowed p) :
    ∀ e : Expr, e.WellFormedTree allowed → ∀ k ∈ e.kinds, p k
  | .literal v n, h => by
    rw [Expr.kinds, List.forall_mem_singleton]
    exact hp.literal v (wellFormedTree_literal.mp h)
  | .unary op operand n, h => by
    have hoperand := hp.kinds operand (wellFormedTree_unary.mp h)
    rw [Expr.kinds, List.forall_mem_cons]
    exact ⟨hp.symbol _, forall_mem_grouped hp.symbol hoperand⟩
  | .binary op left right n, h => by
    obtain ⟨hleft, hright⟩ := wellFormedTree_binary.mp h
    rw [Expr.kinds, List.forall_mem_append, List.forall_mem_cons]
    exact ⟨forall_mem_grouped hp.symbol (hp.kinds left hleft), hp.symbol _,
      forall_mem_grouped hp.symbol (hp.kinds right hright)⟩
  | .conditional c t e n, h => by
    obtain ⟨hc, ht, he⟩ := wellFormedTree_conditional.mp h
    rw [Expr.kinds, List.forall_mem_cons, List.forall_mem_append, List.forall_mem_append,
      List.forall_mem_cons]
    exact ⟨hp.keyword _, forall_mem_grouped hp.symbol (hp.kinds c hc), hp.kinds t ht,
      hp.keyword _, hp.kinds e he⟩
  | .var x n, h => by
    rw [Expr.kinds, List.forall_mem_singleton]
    exact hp.name x (wellFormedTree_var.mp h)
  | .letIn bs body n, h => by
    obtain ⟨⟨-, hnames⟩, hvalues, hbody⟩ := wellFormedTree_letIn.mp h
    rw [Expr.kinds, List.forall_mem_cons, List.forall_mem_append, List.forall_mem_cons]
    exact ⟨hp.keyword _, forall_mem_commaJoined hp.symbol (hp.bindingKinds bs hnames hvalues),
      hp.keyword _, hp.kinds body hbody⟩
  | .function _ _ _ _, h => absurd h wellFormedTree_function
  | .call x args n, h => by
    obtain ⟨hname, hargs⟩ := wellFormedTree_call.mp h
    rw [Expr.kinds, List.forall_mem_cons]
    exact ⟨hp.name x hname,
      forall_mem_grouped hp.symbol (forall_mem_commaJoined hp.symbol (hp.listKinds args hargs))⟩

theorem listKinds (hp : Covers allowed p) :
    ∀ es : List Expr, WellFormedTrees allowed es → ∀ ks ∈ Expr.listKinds es, ∀ k ∈ ks, p k
  | [], _ => by simp [Expr.listKinds]
  | e :: es, h => by
    obtain ⟨he, hes⟩ := wellFormedTrees_cons.mp h
    rw [Expr.listKinds, List.forall_mem_cons]
    exact ⟨hp.kinds e he, hp.listKinds es hes⟩

theorem bindingKinds (hp : Covers allowed p) :
    ∀ bs : List (Binding Expr), (∀ b ∈ bs, Token.IsName b.name) → WellFormedValues allowed bs →
      ∀ ks ∈ Expr.bindingKinds bs, ∀ k ∈ ks, p k
  | [], _, _ => by simp [Expr.bindingKinds]
  | ⟨x, value, n⟩ :: bs, hnames, h => by
    obtain ⟨hvalue, hvalues⟩ := wellFormedValues_cons.mp h
    obtain ⟨hname, hnames⟩ := List.forall_mem_cons.mp hnames
    rw [Expr.bindingKinds, List.forall_mem_cons, List.forall_mem_cons, List.forall_mem_cons]
    exact ⟨⟨hp.name x hname, hp.symbol _, hp.kinds value hvalue⟩,
      hp.bindingKinds bs hnames hvalues⟩

end

/-- A statement is written with keywords, symbols, names and allowed literals. -/
theorem statement (hp : Covers allowed p) {t : Expr} (h : t.WellFormed allowed) :
    ∀ k ∈ t.kinds, p k := by
  cases t with
  | function x params body n =>
    obtain ⟨hname, hparams, -, hbody⟩ := h
    rw [Expr.kinds, List.forall_mem_cons, List.forall_mem_cons, List.forall_mem_append,
      List.forall_mem_cons]
    refine ⟨hp.keyword _, hp.name x hname, forall_mem_grouped hp.symbol ?_, hp.symbol _,
      hp.kinds body hbody⟩
    apply forall_mem_commaJoined hp.symbol
    simpa using fun q hq => hp.name q (hparams q hq)
  | _ => exact hp.kinds _ h

end Covers

/-- The tokens of a well-formed statement can be read back. -/
theorem writable_kinds {t : Expr} (h : t.WellFormed Literal.Writable) :
    ∀ k ∈ t.kinds, k.Writable := by
  have hcovers : Covers Literal.Writable Kind.Writable := by
    refine ⟨fun _ => trivial, fun _ => trivial, fun _ hname => hname, fun v hv => ?_⟩
    cases v with
    | number x => exact hv
    | quoted s => exact hv
    | bool b => cases b <;> exact trivial
  exact hcovers.statement h

end Expr

/-! ### Derivations of what is written -/

namespace Grammar

open LetLang.Expr

variable {f : Nat → Nat} {m : Nat}

/-- The tokens have the given kinds, and their lines are all taken to `m` by `f`. -/
def Have (f : Nat → Nat) (m : Nat) (ks : List Kind) (ts : List Token) : Prop :=
  ts.map Token.kind = ks ∧ ∀ t ∈ ts, f t.line = m

theorem Have.exists_cons {k : Kind} {ks : List Kind} {ts : List Token} (h : Have f m (k :: ks) ts) :
    ∃ (t : Terminal k) (more : List Token), ts = t.token :: more ∧ f t.token.line = m ∧
      Have f m ks more := by
  obtain ⟨hkinds, hlines⟩ := h
  obtain ⟨t, more, rfl, hk, hks⟩ := List.map_eq_cons_iff.mp hkinds
  obtain ⟨ht, hmore⟩ := List.forall_mem_cons.mp hlines
  exact ⟨⟨t, hk⟩, more, rfl, ht, hks, hmore⟩

theorem Have.exists_append {ks ks' : List Kind} {ts : List Token} (h : Have f m (ks ++ ks') ts) :
    ∃ first second, ts = first ++ second ∧ Have f m ks first ∧ Have f m ks' second := by
  obtain ⟨hkinds, hlines⟩ := h
  obtain ⟨first, second, rfl, hks, hks'⟩ := List.map_eq_append_iff.mp hkinds
  obtain ⟨hfirst, hsecond⟩ := List.forall_mem_append.mp hlines
  exact ⟨first, second, rfl, ⟨hks, hfirst⟩, ⟨hks', hsecond⟩⟩

theorem Have.eq_nil {ts : List Token} (h : Have f m [] ts) : ts = [] := List.map_eq_nil_iff.mp h.1

theorem Have.exists_grouped {ks : List Kind} {ts : List Token} (h : Have f m (grouped ks) ts) :
    ∃ (left : Terminal (.symbol .leftParen)) (inner : List Token)
      (right : Terminal (.symbol .rightParen)),
      ts = left.token :: (inner ++ [right.token]) ∧ Have f m ks inner := by
  obtain ⟨left, more, rfl, -, hmore⟩ := h.exists_cons
  obtain ⟨inner, last, rfl, hinner, hlast⟩ := hmore.exists_append
  obtain ⟨right, none, rfl, -, hnone⟩ := hlast.exists_cons
  obtain rfl := hnone.eq_nil
  exact ⟨left, inner, right, rfl, hinner⟩

/-- The name that a token of the kind of a name is. -/
def Terminal.name {x : String} (t : Terminal (.identifier x)) : Name := ⟨t.token, x, t.kind_eq⟩

/-- The tokens derive, as an expression, the tree `e` up to its line numbers. -/
def DerivesTree (f : Nat → Nat) (m : Nat) (ts : List Token) (e : Expr) : Prop :=
  ∃ d : Derivation .expression, d.yield = ts ∧ d.meaning.mapLines f = e.mapLines fun _ => m

/-- What is derived at a level of operators is derived as an expression. -/
theorem DerivesTree.of_level {k : Nat} {e : Expr} (d : Derivation (.level k)) (h : k ≤ 7)
    (hmeaning : d.meaning.mapLines f = e.mapLines fun _ => m) : DerivesTree f m d.yield e := by
  obtain ⟨d', hyield, hsame⟩ := d.exists_level h
  exact ⟨.noLet (.noIf d'), hyield, by rw [← hmeaning, ← hsame]; rfl⟩

/-- A tree in parentheses is an operand of every level. -/
theorem exists_operand {ks : List Kind} {ts : List Token} {e : Expr}
    (hts : Have f m (grouped ks) ts) (h : ∀ ts, Have f m ks ts → DerivesTree f m ts e) (k : Nat) :
    ∃ d : Derivation (.level k), d.yield = ts ∧ d.meaning.mapLines f = e.mapLines fun _ => m := by
  obtain ⟨left, inner, right, rfl, hinner⟩ := hts.exists_grouped
  obtain ⟨d, rfl, hmeaning⟩ := h inner hinner
  obtain ⟨d', hyield, hsame⟩ :=
    (Derivation.noUnary (.group left d right)).exists_level (Nat.zero_le k)
  exact ⟨d', hyield, by rw [hsame]; exact hmeaning⟩

/-- An operator between two trees in parentheses is derived. -/
theorem derivesTree_binary {op : BinaryOp} {left right : Expr} {ks ks' : List Kind}
    {ts : List Token} (hts : Have f m (grouped ks ++ .symbol op.symbol :: grouped ks') ts)
    (hleft : ∀ ts, Have f m ks ts → DerivesTree f m ts left)
    (hright : ∀ ts, Have f m ks' ts → DerivesTree f m ts right) (n : Nat) :
    DerivesTree f m ts (.binary op left right n) := by
  obtain ⟨first, second, rfl, hfirst, hsecond⟩ := hts.exists_append
  obtain ⟨sign, more, rfl, hline, hmore⟩ := hsecond.exists_cons
  obtain ⟨dl, rfl, hmeaningl⟩ := exists_operand hfirst hleft op.rank
  obtain ⟨dr, rfl, hmeaningr⟩ := exists_operand hmore hright op.rank
  -- operands in parentheses belong to every level, so the operator stands alone at its own
  let s : BinarySign op.rank := ⟨sign.token, op, sign.kind_eq, mem_operators_iff.mpr rfl⟩
  have hyield : (Derivation.chain dl (.moreTail s dr .endTail)).yield =
      dl.yield ++ sign.token :: dr.yield := by
    simp only [Derivation.yield, List.append_nil]
    rfl
  rw [← hyield]
  refine .of_level _ op.rank_lt_rankCount ?_
  show Expr.binary op (dl.meaning.mapLines f) (dr.meaning.mapLines f) (f sign.token.line) = _
  rw [hmeaningl, hmeaningr, hline]
  rfl

/-- A name, a sign of equality and a tree are a binding. -/
theorem exists_binding {x : String} {value : Expr} {ts : List Token}
    (hts : Have f m (.identifier x :: .symbol .equal :: value.kinds) ts)
    (h : ∀ ts, Have f m value.kinds ts → DerivesTree f m ts value) :
    ∃ d : Derivation .binding, d.yield = ts ∧
      Binding.mk d.meaning.name (d.meaning.value.mapLines f) (f d.meaning.line) =
        ⟨x, value.mapLines fun _ => m, m⟩ := by
  obtain ⟨t, more, rfl, hline, hmore⟩ := hts.exists_cons
  obtain ⟨sign, rest, rfl, -, hrest⟩ := hmore.exists_cons
  obtain ⟨d, rfl, hmeaning⟩ := h rest hrest
  refine ⟨.binding t.name sign d, rfl, ?_⟩
  show Binding.mk x (d.meaning.mapLines f) (f t.token.line) = _
  rw [hmeaning, hline]

theorem denotes_kind (v : Literal) : Denotes v.kind v := by
  cases v with
  | number x => exact .number x
  | quoted s => exact .quoted s
  | bool b =>
    cases b with
    | true => exact .true_
    | false => exact .false_

/-- The token of a literal is an operand. -/
theorem exists_literal {v : Literal} {ts : List Token} (hts : Have f m [v.kind] ts) (n : Nat) :
    ∃ d : Derivation (.level 0), d.yield = ts ∧
      d.meaning.mapLines f = (Expr.literal v n).mapLines fun _ => m := by
  obtain ⟨t, more, rfl, hline, hmore⟩ := hts.exists_cons
  obtain rfl := hmore.eq_nil
  let c : Constant := ⟨t.token, v, by rw [t.kind_eq]; exact denotes_kind v⟩
  exact ⟨.noUnary (.noGroup (.noCall (.constant c))), rfl, congrArg (Expr.literal v) hline⟩

variable {allowed : Literal → Prop}

mutual

/-- Tokens that a tree is written with derive the tree. -/
theorem derivesTree : ∀ (e : Expr) (ts : List Token), e.WellFormedTree allowed →
    Have f m e.kinds ts → DerivesTree f m ts e
  | .literal v n, ts, _, hts => by
    obtain ⟨d, rfl, hmeaning⟩ := exists_literal hts n
    exact .of_level d (by decide) hmeaning
  | .unary op operand n, ts, h, hts => by
    obtain ⟨sign, more, rfl, hline, hmore⟩ := hts.exists_cons
    have hoperand := wellFormedTree_unary.mp h
    obtain ⟨d, rfl, hmeaning⟩ :=
      exists_operand hmore (fun ts hts => derivesTree operand ts hoperand hts) 0
    refine .of_level (.unary ⟨sign.token, op, sign.kind_eq⟩ d) (by decide) ?_
    show Expr.unary op (d.meaning.mapLines f) (f sign.token.line) = _
    rw [hmeaning, hline]
    rfl
  | .binary op left right n, ts, h, hts => by
    obtain ⟨hleft, hright⟩ := wellFormedTree_binary.mp h
    exact derivesTree_binary hts (fun ts hts => derivesTree left ts hleft hts)
      (fun ts hts => derivesTree right ts hright hts) n
  | .conditional c t e n, ts, h, hts => by
    obtain ⟨hc, ht, he⟩ := wellFormedTree_conditional.mp h
    obtain ⟨keyword, more, rfl, hline, hmore⟩ := hts.exists_cons
    obtain ⟨condition, branches, rfl, hcondition, hbranches⟩ := hmore.exists_append
    obtain ⟨left, inner, right, rfl, hinner⟩ := hcondition.exists_grouped
    obtain ⟨onTrue, rest, rfl, honTrue, hrest⟩ := hbranches.exists_append
    obtain ⟨separator, onFalse, rfl, -, honFalse⟩ := hrest.exists_cons
    obtain ⟨dc, rfl, hmeaningc⟩ := derivesTree c inner hc hinner
    obtain ⟨dt, rfl, hmeaningt⟩ := derivesTree t onTrue ht honTrue
    obtain ⟨de, rfl, hmeaninge⟩ := derivesTree e onFalse he honFalse
    refine ⟨.noLet (.ifElse keyword left dc right dt separator de), ?_, ?_⟩
    · simp [Derivation.yield]
    · show Expr.conditional (dc.meaning.mapLines f) (dt.meaning.mapLines f)
        (de.meaning.mapLines f) (f keyword.token.line) = _
      rw [hmeaningc, hmeaningt, hmeaninge, hline]
      rfl
  | .var name n, ts, _, hts => by
    obtain ⟨t, more, rfl, hline, hmore⟩ := hts.exists_cons
    obtain rfl := hmore.eq_nil
    exact .of_level (.noUnary (.noGroup (.noCall (.var t.name)))) (by decide)
      (congrArg (Expr.var name) hline)
  | .letIn bs body n, ts, h, hts => by
    obtain ⟨⟨hne, -⟩, hvalues, hbody⟩ := wellFormedTree_letIn.mp h
    obtain ⟨keyword, more, rfl, hline, hmore⟩ := hts.exists_cons
    obtain ⟨bound, rest, rfl, hbound, hrest⟩ := hmore.exists_append
    obtain ⟨separator, last, rfl, -, hlast⟩ := hrest.exists_cons
    obtain ⟨dbs, rfl, hmeaningbs⟩ := derivesBindings bs bound hne hvalues hbound
    obtain ⟨d, rfl, hmeaning⟩ := derivesTree body last hbody hlast
    refine ⟨.letIn keyword dbs separator d, rfl, ?_⟩
    show Expr.letIn (mapLinesBindings f dbs.meaning) (d.meaning.mapLines f)
      (f keyword.token.line) = _
    rw [hmeaningbs, hmeaning, hline]
    rfl
  | .function name params body n, _, h, _ => absurd h wellFormedTree_function
  | .call name args n, ts, h, hts => by
    obtain ⟨-, hargs⟩ := wellFormedTree_call.mp h
    obtain ⟨t, more, rfl, hline, hmore⟩ := hts.exists_cons
    obtain ⟨left, inner, right, rfl, hinner⟩ := hmore.exists_grouped
    by_cases hne : args = []
    · subst hne
      obtain rfl := hinner.eq_nil
      exact .of_level (.noUnary (.noGroup (.emptyCall t.name left right))) (by decide)
        (congrArg (Expr.call name []) hline)
    · obtain ⟨d, rfl, hmeaning⟩ := derivesArguments args inner hne hargs hinner
      refine .of_level (.noUnary (.noGroup (.call t.name left d right))) (by decide) ?_
      show Expr.call name (mapLinesList f d.meaning) (f t.token.line) = _
      rw [hmeaning, hline]
      rfl

/-- Tokens that arguments are written with derive the arguments. -/
theorem derivesArguments : ∀ (es : List Expr) (ts : List Token), es ≠ [] →
    WellFormedTrees allowed es → Have f m (commaJoined (listKinds es)) ts →
    ∃ d : Derivation .arguments, d.yield = ts ∧
      mapLinesList f d.meaning = mapLinesList (fun _ => m) es
  | [], _, hne, _, _ => absurd rfl hne
  | [e], ts, _, h, hts => by
    obtain ⟨he, -⟩ := wellFormedTrees_cons.mp h
    obtain ⟨d, hyield, hmeaning⟩ := derivesTree e ts he hts
    exact ⟨.lastArgument d, hyield, congrArg (· :: []) hmeaning⟩
  | e :: e' :: es, ts, _, h, hts => by
    obtain ⟨he, hes⟩ := wellFormedTrees_cons.mp h
    obtain ⟨first, second, rfl, hfirst, hsecond⟩ := hts.exists_append
    obtain ⟨comma, rest, rfl, -, hrest⟩ := hsecond.exists_cons
    obtain ⟨d, rfl, hmeaning⟩ := derivesTree e first he hfirst
    obtain ⟨ds, rfl, hmeanings⟩ :=
      derivesArguments (e' :: es) rest (List.cons_ne_nil e' es) hes hrest
    refine ⟨.moreArguments d comma ds, rfl, ?_⟩
    show d.meaning.mapLines f :: mapLinesList f ds.meaning = _
    rw [hmeaning, hmeanings]
    rfl

/-- Tokens that bindings are written with derive the bindings. -/
theorem derivesBindings : ∀ (bs : List (Binding Expr)) (ts : List Token), bs ≠ [] →
    WellFormedValues allowed bs → Have f m (commaJoined (bindingKinds bs)) ts →
    ∃ d : Derivation .bindings, d.yield = ts ∧
      mapLinesBindings f d.meaning = mapLinesBindings (fun _ => m) bs
  | [], _, hne, _, _ => absurd rfl hne
  | [⟨x, value, n⟩], ts, _, h, hts => by
    obtain ⟨hvalue, -⟩ := wellFormedValues_cons.mp h
    obtain ⟨d, rfl, hmeaning⟩ :=
      exists_binding hts fun ts hts => derivesTree value ts hvalue hts
    exact ⟨.lastBinding d, rfl, congrArg (· :: []) hmeaning⟩
  | ⟨x, value, n⟩ :: b :: bs, ts, _, h, hts => by
    obtain ⟨hvalue, hvalues⟩ := wellFormedValues_cons.mp h
    obtain ⟨first, second, rfl, hfirst, hsecond⟩ := hts.exists_append
    obtain ⟨comma, rest, rfl, -, hrest⟩ := hsecond.exists_cons
    obtain ⟨d, rfl, hmeaning⟩ :=
      exists_binding hfirst fun ts hts => derivesTree value ts hvalue hts
    obtain ⟨ds, rfl, hmeanings⟩ :=
      derivesBindings (b :: bs) rest (List.cons_ne_nil b bs) hvalues hrest
    exact ⟨.moreBindings d comma ds, rfl, congrArg₂ List.cons hmeaning hmeanings⟩

end

/-- Tokens that parameters are written with are these parameters. -/
theorem exists_parameters {params : List String} {ts : List Token} (hne : params ≠ [])
    (hts : Have f m (commaJoined (params.map fun x => [.identifier x])) ts) :
    ∃ ps : Parameters, ps.yield = ts ∧ ps.list.map Name.name = params := by
  induction params generalizing ts with
  | nil => exact absurd rfl hne
  | cons x params ih =>
    cases params with
    | nil =>
      obtain ⟨t, more, rfl, -, hmore⟩ := hts.exists_cons
      obtain rfl := hmore.eq_nil
      exact ⟨.last t.name, rfl, rfl⟩
    | cons y params =>
      obtain ⟨first, second, rfl, hfirst, hsecond⟩ := hts.exists_append
      obtain ⟨t, more, rfl, -, hmore⟩ := hfirst.exists_cons
      obtain rfl := hmore.eq_nil
      obtain ⟨comma, rest, rfl, -, hrest⟩ := hsecond.exists_cons
      obtain ⟨ps, rfl, hnames⟩ := ih (List.cons_ne_nil y params) hrest
      exact ⟨.more t.name comma ps, rfl, congrArg (x :: ·) hnames⟩

/-- Tokens that a well-formed statement is written with derive the statement. -/
theorem exists_derives {t : Expr} {ts : List Token} (h : t.WellFormed allowed)
    (hts : Have f m t.kinds ts) :
    ∃ t', Derives ts t' ∧ t'.mapLines f = t.mapLines fun _ => m := by
  cases t with
  | function x params body n =>
    obtain ⟨-, -, hdistinct, hbody⟩ := h
    obtain ⟨keyword, more, rfl, hline, hmore⟩ := hts.exists_cons
    obtain ⟨name, more, rfl, -, hmore⟩ := hmore.exists_cons
    obtain ⟨first, second, rfl, hfirst, hsecond⟩ := hmore.exists_append
    obtain ⟨left, inner, right, rfl, hinner⟩ := hfirst.exists_grouped
    obtain ⟨arrow, rest, rfl, -, hrest⟩ := hsecond.exists_cons
    obtain ⟨d, rfl, hmeaning⟩ := derivesTree body rest hbody hrest
    -- a declaration may have no parameters
    obtain ⟨ps, hyield, hnames⟩ : ∃ ps : Option Parameters,
        ps.elim [] Parameters.yield = inner ∧ Statement.names ps = params := by
      by_cases hne : params = []
      · subst hne
        exact ⟨none, hinner.eq_nil.symm, rfl⟩
      · obtain ⟨ps, hyield, hnames⟩ := exists_parameters hne hinner
        exact ⟨some ps, hyield, hnames⟩
    refine ⟨_, ⟨.function keyword name.name left ps right arrow d, ?_, rfl, ?_⟩, ?_⟩
    · simp [Statement.yield, hyield, Terminal.name]
    · show (Statement.names ps).Nodup
      rwa [hnames]
    · show Expr.function x (Statement.names ps) (d.meaning.mapLines f) (f keyword.token.line) = _
      rw [hnames, hmeaning, hline]
      rfl
  | _ =>
    obtain ⟨d, hyield, hmeaning⟩ := derivesTree _ ts h hts
    exact ⟨d.meaning, ⟨.expression d, hyield, rfl, trivial⟩, hmeaning⟩

end Grammar

end LetLang
