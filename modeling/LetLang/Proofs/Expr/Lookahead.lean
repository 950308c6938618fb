import LetLang.Proofs.Expr.Grammar
import LetLang.Proofs.Reader

/-!
# One token of lookahead

Which tokens a derivation can begin with, and which tokens after a derivation would belong to a
longer one. Both are what lets one token decide between the productions of the grammar.
-/

namespace LetLang.Grammar

/-! ### Leaves are determined by their tokens -/

theorem Terminal.eq_of_token {kind : Token.Kind} {a b : Terminal kind} (h : a.token = b.token) :
    a = b := by
  cases a
  cases b
  cases h
  rfl

theorem Name.eq_of_token {a b : Name} (h : a.token = b.token) : a = b := by
  obtain ⟨t, x, hx⟩ := a
  obtain ⟨u, y, hy⟩ := b
  obtain rfl : t = u := h
  obtain rfl : x = y := by simpa [hx] using hy
  rfl

theorem UnarySign.eq_of_token {a b : UnarySign} (h : a.token = b.token) : a = b := by
  obtain ⟨t, x, hx⟩ := a
  obtain ⟨u, y, hy⟩ := b
  obtain rfl : t = u := h
  rw [hx] at hy
  obtain rfl := UnaryOp.symbol_injective (Token.Kind.symbol.inj hy)
  rfl

theorem BinarySign.eq_of_token {k : Nat} {a b : BinarySign k} (h : a.token = b.token) :
    a = b := by
  obtain ⟨t, x, hx, _⟩ := a
  obtain ⟨u, y, hy, _⟩ := b
  obtain rfl : t = u := h
  rw [hx] at hy
  obtain rfl := BinaryOp.symbol_injective (Token.Kind.symbol.inj hy)
  rfl

theorem Constant.eq_of_token {a b : Constant} (h : a.token = b.token) : a = b := by
  obtain ⟨t, x, hx⟩ := a
  obtain ⟨u, y, hy⟩ := b
  obtain rfl : t = u := h
  obtain rfl : x = y := by
    generalize t.kind = kind at hx hy
    cases hx <;> cases hy <;> rfl
  rfl

/-- The levels order the operators by their rank. -/
theorem mem_operators_iff {op : BinaryOp} {k : Nat} : op ∈ operators k ↔ op.rank = k := by
  rcases k with _ | _ | _ | _ | _ | _ | _ | k <;> cases op <;> simp [operators, BinaryOp.rank]

theorem BinarySign.binaryOp?_eq {k : Nat} (sign : BinarySign k) :
    sign.token.kind.binaryOp? = some sign.op :=
  Token.Kind.binaryOp?_eq_some.mpr sign.kind_eq

/-! ### Tokens after a derivation -/

namespace Nonterminal

/-- Operators of smaller rank go on a derivation that ends in an operand. -/
def looseness : Nonterminal → Nat
  | expression | bindings | binding | conditional | arguments => 7
  | level k => k
  | tail k => k + 1
  | grouping | call | literal => 0

/-- Whether a comma goes on a derivation. -/
def isList : Nonterminal → Bool
  | bindings | arguments => true
  | _ => false

/-- A token of a kind, right after a derivation, would belong to a longer one. -/
def Continues (n : Nonterminal) (kind : Token.Kind) : Prop :=
  kind = .symbol .leftParen ∨ (n.isList = true ∧ kind = .symbol .comma) ∨
    ∃ op, kind.binaryOp? = some op ∧ op.rank < n.looseness

end Nonterminal

/-- No token of a list is first and goes on a derivation of `n`. -/
def Stops (n : Nonterminal) (rest : List Token) : Prop :=
  ∀ t ∈ rest.head?, ¬ n.Continues t.kind

theorem stops_nil (n : Nonterminal) : Stops n [] := by simp [Stops]

theorem stops_cons {n : Nonterminal} {t : Token} {rest : List Token} :
    Stops n (t :: rest) ↔ ¬ n.Continues t.kind := by
  simp [Stops]

/-- What stops a looser derivation stops a tighter one. -/
theorem Stops.mono {m n : Nonterminal} {rest : List Token} (h : Stops n rest)
    (hlist : m.isList = true → n.isList = true) (hle : m.looseness ≤ n.looseness) :
    Stops m rest := by
  intro t ht hm
  apply h t ht
  rcases hm with hparen | ⟨hm, hcomma⟩ | ⟨op, hop, hrank⟩
  · exact .inl hparen
  · exact .inr (.inl ⟨hlist hm, hcomma⟩)
  · exact .inr (.inr ⟨op, hop, Nat.lt_of_lt_of_le hrank hle⟩)

/-- A keyword stops every derivation. -/
theorem Terminal.stops_keyword {k : Keyword} (t : Terminal (.keyword k)) (n : Nonterminal)
    (rest : List Token) : Stops n (t.token :: rest) := by
  rw [stops_cons, t.kind_eq]
  simp [Nonterminal.Continues, Token.Kind.binaryOp?]

/-- A closing parenthesis stops every derivation. -/
theorem Terminal.stops_rightParen (t : Terminal (.symbol .rightParen)) (n : Nonterminal)
    (rest : List Token) : Stops n (t.token :: rest) := by
  rw [stops_cons, t.kind_eq]
  simp [Nonterminal.Continues, Token.Kind.binaryOp?, BinaryOp.ofSymbol?]

/-- A semicolon stops every derivation. -/
theorem Terminal.stops_semicolon (t : Terminal (.symbol .semicolon)) (n : Nonterminal)
    (rest : List Token) : Stops n (t.token :: rest) := by
  rw [stops_cons, t.kind_eq]
  simp [Nonterminal.Continues, Token.Kind.binaryOp?, BinaryOp.ofSymbol?]

/-- A comma stops every derivation that is not itself a list. -/
theorem Terminal.stops_comma (t : Terminal (.symbol .comma)) {n : Nonterminal}
    (hn : n.isList = false) (rest : List Token) : Stops n (t.token :: rest) := by
  rw [stops_cons, t.kind_eq]
  simp [Nonterminal.Continues, hn, Token.Kind.binaryOp?, BinaryOp.ofSymbol?]

/-- A sign stops the operands of its own level. -/
theorem BinarySign.stops {k : Nat} (sign : BinarySign k) (rest : List Token) :
    Stops (.level k) (sign.token :: rest) := by
  rw [stops_cons]
  rintro (hparen | ⟨hlist, -⟩ | ⟨op, hop, hrank⟩)
  · have hop := sign.binaryOp?_eq
    rw [hparen] at hop
    cases hop
  · cases hlist
  · -- its own rank is `k`, which is not smaller than `k`
    rw [sign.binaryOp?_eq] at hop
    obtain rfl := Option.some.inj hop
    have hk : sign.op.rank = k := mem_operators_iff.mp sign.mem_operators
    have hlt : sign.op.rank < k := hrank
    omega

/-- Behind the first operand of a level, no sign of its rank comes after the tail. -/
theorem stops_operand {k : Nat} (tail : Derivation (.tail k)) {rest : List Token}
    (h : Stops (.tail k) rest) : Stops (.level k) (tail.yield ++ rest) := by
  cases tail with
  | endTail => exact h.mono (by simp [Nonterminal.isList]) (Nat.le_succ k)
  | moreTail sign operand tail => exact sign.stops _

/-! ### Tokens that a derivation begins with -/

/-- How far up the grammar a token of a kind can be the first one of a derivation: zero for the
first token of a literal, and one, two, three, four for a group, a unary operator, a conditional
and a `let`. -/
def firstHeight : Token.Kind → Option Nat
  | .keyword .let_ => some 4
  | .keyword .if_ => some 3
  | .symbol .minus | .symbol .bang => some 2
  | .symbol .leftParen => some 1
  | .number _ | .quoted _ | .identifier _ => some 0
  | .keyword .true_ | .keyword .false_ | .keyword .pi | .keyword .euler => some 0
  | _ => none

/-- The largest height of a first token; a tail may have no first token. -/
def Nonterminal.height : Nonterminal → Option Nat
  | expression | arguments => some 4
  | conditional => some 3
  | level _ => some 2
  | grouping => some 1
  | bindings | binding | call | literal => some 0
  | tail _ => none

/-- The list has a first token, and its height is at most `h`. -/
def Begins (h : Nat) (w : List Token) : Prop :=
  ∃ t rest k, w = t :: rest ∧ firstHeight t.kind = some k ∧ k ≤ h

theorem begins_cons {h k : Nat} {t : Token} {kind : Token.Kind} (hkind : t.kind = kind)
    (hk : firstHeight kind = some k) (hle : k ≤ h) (w : List Token) : Begins h (t :: w) :=
  ⟨t, w, k, rfl, hkind ▸ hk, hle⟩

theorem Begins.mono {h h' : Nat} {w : List Token} (hw : Begins h w) (hle : h ≤ h') :
    Begins h' w := by
  obtain ⟨t, rest, k, rfl, hk, hkh⟩ := hw
  exact ⟨t, rest, k, rfl, hk, Nat.le_trans hkh hle⟩

theorem Begins.append {h : Nat} {w : List Token} (hw : Begins h w) (u : List Token) :
    Begins h (w ++ u) := by
  obtain ⟨t, rest, k, rfl, hk, hkh⟩ := hw
  exact ⟨t, rest ++ u, k, rfl, hk, hkh⟩

/-- A token of another height, or of none, is not first. -/
theorem Begins.kind_ne {h : Nat} {w : List Token} (hw : Begins h w) {kind : Token.Kind}
    (hkind : ∀ k, firstHeight kind = some k → h < k) : ∀ t ∈ w.head?, t.kind ≠ kind := by
  obtain ⟨t, rest, k, rfl, hk, hkh⟩ := hw
  intro u hu heq
  obtain rfl : t = u := Option.some.inj hu
  have hlt := hkind k (heq ▸ hk)
  omega

theorem UnarySign.firstHeight_eq (sign : UnarySign) : firstHeight sign.token.kind = some 2 := by
  rw [sign.kind_eq]
  cases sign.op <;> rfl

theorem Constant.firstHeight_eq (c : Constant) : firstHeight c.token.kind = some 0 := by
  obtain ⟨t, value, hvalue⟩ := c
  show firstHeight t.kind = some 0
  generalize t.kind = kind at hvalue
  cases hvalue <;> rfl

/-- Except for tails, a derivation has a first token, of a height that its nonterminal allows. -/
theorem Derivation.begins {n : Nonterminal} (d : Derivation n) {h : Nat}
    (hn : n.height = some h) : Begins h d.yield := by
  induction d generalizing h with
  | letIn keyword bs separator body =>
    cases hn
    exact begins_cons keyword.kind_eq rfl (Nat.le_refl 4) _
  | noLet d ih =>
    cases hn
    exact (ih rfl).mono (by omega)
  | lastBinding b ih => exact ih hn
  | moreBindings b comma bs ih _ => exact (ih hn).append _
  | binding name sign value =>
    cases hn
    exact begins_cons name.kind_eq rfl (Nat.le_refl 0) _
  | ifElse keyword =>
    cases hn
    exact begins_cons keyword.kind_eq rfl (Nat.le_refl 3) _
  | noIf d ih =>
    cases hn
    exact (ih rfl).mono (by omega)
  | chain first tail ih _ => exact (ih hn).append _
  | endTail => cases hn
  | moreTail => cases hn
  | unary sign operand =>
    cases hn
    exact begins_cons rfl sign.firstHeight_eq (Nat.le_refl 2) _
  | noUnary d ih =>
    cases hn
    exact (ih rfl).mono (by omega)
  | group left inner right =>
    cases hn
    exact begins_cons left.kind_eq rfl (Nat.le_refl 1) _
  | noGroup d ih =>
    cases hn
    exact (ih rfl).mono (by omega)
  | emptyCall name left right =>
    cases hn
    exact begins_cons name.kind_eq rfl (Nat.le_refl 0) _
  | call name left args right =>
    cases hn
    exact begins_cons name.kind_eq rfl (Nat.le_refl 0) _
  | noCall d ih => exact ih hn
  | lastArgument arg ih => exact ih hn
  | moreArguments arg comma args ih _ => exact (ih hn).append _
  | constant c =>
    cases hn
    exact begins_cons rfl c.firstHeight_eq (Nat.le_refl 0) _
  | var name =>
    cases hn
    exact begins_cons name.kind_eq rfl (Nat.le_refl 0) _

end LetLang.Grammar
