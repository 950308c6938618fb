import LetLang.Reader

/-!
# Running readers

What the basic readers do with a list of tokens, in the form of a case distinction on its first
token: it is one that the reader takes, or the reader leaves the list as it is.
-/

namespace LetLang

/-! ### Kinds of tokens -/

namespace Token.Kind

/-- Only one kind of token stands at the end of the input. -/
theorem isEnd_iff {kind : Kind} : kind.isEnd = true ↔ kind = .endOfInput := by
  cases kind <;> simp [isEnd]

theorem identifier?_eq_some {kind : Kind} {name : String} :
    kind.identifier? = some name ↔ kind = .identifier name := by
  cases kind <;> simp [identifier?]

theorem keyword?_eq_some {kind : Kind} {k : Keyword} :
    kind.keyword? k = some () ↔ kind = .keyword k := by
  cases kind <;> simp [keyword?]

theorem symbol?_eq_some {kind : Kind} {s : Symbol} :
    kind.symbol? s = some () ↔ kind = .symbol s := by
  cases kind <;> simp [symbol?]

/-- All kinds but the keyword itself are rejected. -/
theorem keyword?_eq_none {kind : Kind} {k : Keyword} :
    kind.keyword? k = none ↔ kind ≠ .keyword k := by
  rw [Option.eq_none_iff_forall_not_mem]
  exact ⟨fun h hk => h () (keyword?_eq_some.mpr hk), fun h u hu => h (keyword?_eq_some.mp hu)⟩

theorem symbol?_eq_none {kind : Kind} {s : Symbol} :
    kind.symbol? s = none ↔ kind ≠ .symbol s := by
  rw [Option.eq_none_iff_forall_not_mem]
  exact ⟨fun h hk => h () (symbol?_eq_some.mpr hk), fun h u hu => h (symbol?_eq_some.mp hu)⟩

/-- A token stands for a unary operator exactly if it is its symbol. -/
theorem unaryOp?_eq_some {kind : Kind} {op : UnaryOp} :
    kind.unaryOp? = some op ↔ kind = .symbol op.symbol := by
  constructor
  · intro h
    cases kind with
    | symbol s => cases s <;> cases h <;> rfl
    | _ => cases h
  · rintro rfl
    exact UnaryOp.ofSymbol?_symbol op

/-- A token stands for a binary operator exactly if it is its symbol. -/
theorem binaryOp?_eq_some {kind : Kind} {op : BinaryOp} :
    kind.binaryOp? = some op ↔ kind = .symbol op.symbol := by
  constructor
  · intro h
    cases kind with
    | symbol s => cases s <;> cases h <;> rfl
    | _ => cases h
  · rintro rfl
    exact BinaryOp.ofSymbol?_symbol op

end Token.Kind

namespace Reader

/-! ### Sequences -/

/-- The second reader goes on with the result of the first one and the tokens that it has left. -/
theorem run_bind_of_ok {r : Reader α} {ts rest : List Token} {a : α} (f : α → Reader β)
    (h : r.run ts = (.ok a, rest)) : (r >>= f).run ts = (f a).run rest := by
  rw [run_bind, h]

/-- An error of the first reader is one of the sequence. -/
theorem run_bind_of_error {r : Reader α} {ts rest : List Token} {e : SyntaxError}
    (f : α → Reader β) (h : r.run ts = (.error e, rest)) :
    (r >>= f).run ts = (.error e, rest) := by
  rw [run_bind, h]

/-- A sequence of two readers succeeds when the first does and then the second does. -/
theorem run_bind_eq_ok {r : Reader α} {f : α → Reader β} {ts rest : List Token} {b : β} :
    (r >>= f).run ts = (.ok b, rest) ↔
      ∃ a mid, r.run ts = (.ok a, mid) ∧ (f a).run mid = (.ok b, rest) := by
  rw [run_bind]
  rcases r.run ts with ⟨_ | a, mid⟩
  · simp
  · constructor
    · intro h
      exact ⟨a, mid, rfl, h⟩
    · rintro ⟨a', mid', h, h'⟩
      obtain ⟨⟨rfl⟩, rfl⟩ := Prod.mk.inj h
      exact h'

/-! ### The first token -/

/-- No token of a list is first and has a kind that `accept` takes. -/
def NoneFirst (accept : Token.Kind → Option α) (ts : List Token) : Prop :=
  ∀ t ∈ ts.head?, accept t.kind = none

/-- A first token that is accepted is consumed. -/
theorem run_take?_cons {accept : Token.Kind → Option α} {t : Token} {a : α}
    (h : accept t.kind = some a) (ts : List Token) :
    (take? accept).run (t :: ts) = (.ok (some (a, t)), ts) := by
  simp only [run, take?, h]

/-- A first token that is not accepted stays where it is. -/
theorem run_take?_of_noneFirst {accept : Token.Kind → Option α} {ts : List Token}
    (h : NoneFirst accept ts) : (take? accept).run ts = (.ok none, ts) := by
  cases ts with
  | nil => rfl
  | cons t ts =>
    have ht : accept t.kind = none := h t rfl
    simp only [run, take?, ht]

/-- `take?` takes the first token or leaves the list alone. -/
theorem run_take?_cases (accept : Token.Kind → Option α) (ts : List Token) :
    (∃ a t rest, ts = t :: rest ∧ accept t.kind = some a ∧
      (take? accept).run ts = (.ok (some (a, t)), rest)) ∨
    (NoneFirst accept ts ∧ (take? accept).run ts = (.ok none, ts)) := by
  cases ts with
  | nil => exact .inr ⟨by simp [NoneFirst], rfl⟩
  | cons t ts =>
    cases ha : accept t.kind with
    | some a => exact .inl ⟨a, t, ts, rfl, ha, run_take?_cons ha ts⟩
    | none =>
      have hnone : NoneFirst accept (t :: ts) := by simpa [NoneFirst] using ha
      exact .inr ⟨hnone, run_take?_of_noneFirst hnone⟩

/-- A first token that is accepted is consumed where it must come. -/
theorem run_take_cons {accept : Token.Kind → Option α} {t : Token} {a : α}
    (h : accept t.kind = some a) (expected : String) (ts : List Token) :
    (take accept expected).run (t :: ts) = (.ok (a, t), ts) :=
  run_bind_of_ok _ (run_take?_cons h ts)

/-! ### Symbols and keywords -/

/-- A symbol that must come is consumed. -/
theorem run_symbol_cons {s : Symbol} {t : Token} (h : t.kind = .symbol s) (expected : String)
    (ts : List Token) : (symbol s expected).run (t :: ts) = (.ok (), ts) :=
  run_bind_of_ok _ (run_take_cons (Token.Kind.symbol?_eq_some.mpr h) expected ts)

/-- A keyword that must come is consumed, and its line is given. -/
theorem run_keyword_cons {k : Keyword} {t : Token} (h : t.kind = .keyword k) (expected : String)
    (ts : List Token) : (keyword k expected).run (t :: ts) = (.ok t.line, ts) :=
  run_bind_of_ok _ (run_take_cons (Token.Kind.keyword?_eq_some.mpr h) expected ts)

/-- A symbol that may come is consumed if it comes. -/
theorem run_hasSymbol_cons {s : Symbol} {t : Token} (h : t.kind = .symbol s) (ts : List Token) :
    (hasSymbol s).run (t :: ts) = (.ok true, ts) :=
  run_bind_of_ok _ (run_take?_cons (Token.Kind.symbol?_eq_some.mpr h) ts)

theorem run_hasSymbol_of_noneFirst {s : Symbol} {ts : List Token}
    (h : NoneFirst (Token.Kind.symbol? s) ts) : (hasSymbol s).run ts = (.ok false, ts) :=
  run_bind_of_ok _ (run_take?_of_noneFirst h)

/-- A keyword that may come is consumed if it comes. -/
theorem run_keywordLine?_cons {k : Keyword} {t : Token} (h : t.kind = .keyword k)
    (ts : List Token) : (keywordLine? k).run (t :: ts) = (.ok (some t.line), ts) :=
  run_bind_of_ok _ (run_take?_cons (Token.Kind.keyword?_eq_some.mpr h) ts)

theorem run_keywordLine?_of_noneFirst {k : Keyword} {ts : List Token}
    (h : NoneFirst (Token.Kind.keyword? k) ts) : (keywordLine? k).run ts = (.ok none, ts) :=
  run_bind_of_ok _ (run_take?_of_noneFirst h)

/-! ### Lists -/

section

variable {item : Reader α} (heq : items item = itemsWith item (items item))
include heq

/-- An item that no comma follows is a list. -/
theorem run_items_last {ts rest : List Token} {a : α} (hitem : item.run ts = (.ok a, rest))
    (hrest : NoneFirst (Token.Kind.symbol? .comma) rest) :
    (items item).run ts = (.ok [a], rest) := by
  rw [heq, itemsWith, run_bind_of_ok _ hitem, run_bind_of_ok _ (run_hasSymbol_of_noneFirst hrest)]
  rfl

/-- An item before a comma and a list is a list. -/
theorem run_items_more {ts mid rest : List Token} {a : α} {as : List α} {comma : Token}
    (hitem : item.run ts = (.ok a, comma :: mid)) (hcomma : comma.kind = .symbol .comma)
    (hitems : (items item).run mid = (.ok as, rest)) :
    (items item).run ts = (.ok (a :: as), rest) := by
  rw [heq, itemsWith, run_bind_of_ok _ hitem, run_bind_of_ok _ (run_hasSymbol_cons hcomma mid)]
  exact run_bind_of_ok _ hitems

end

/-- A parenthesis alone closes the empty list. -/
theorem run_toParen_nil {list : Reader (List α)} {right : Token}
    (hright : right.kind = .symbol .rightParen) (expected : String) (rest : List Token) :
    (toParen list expected).run (right :: rest) = (.ok [], rest) :=
  run_bind_of_ok _ (run_hasSymbol_cons hright rest)

/-- A parenthesis after a list closes it. -/
theorem run_toParen {list : Reader (List α)} {ts rest : List Token} {as : List α} {right : Token}
    (hright : right.kind = .symbol .rightParen) (expected : String)
    (hfirst : NoneFirst (Token.Kind.symbol? .rightParen) ts)
    (hlist : list.run ts = (.ok as, right :: rest)) :
    (toParen list expected).run ts = (.ok as, rest) := by
  rw [toParen, run_bind_of_ok _ (run_hasSymbol_of_noneFirst hfirst)]
  refine (run_bind_of_ok _ hlist).trans ?_
  exact run_bind_of_ok _ (run_symbol_cons hright expected rest)

end Reader

end LetLang
