import LetLang.Proofs.Expr.Completeness
import Mathlib.Data.List.Induction

/-!
# The precedence of binary operators

Operands with binary signs between them can be grouped in many ways. One of them respects the
precedence of the operators: to the left of a sign, inside its group, all signs bind at least as
tightly, and to its right they bind more tightly. Every sequence of operands and signs has such a
grouping (`OpTree.exists_respects`) and only one (`OpTree.Respects.eq_of_reads`), and this is the
one that is read, since a grouping that respects the precedence is one that the grammar derives
(`OpTree.Respects.exists_derivation`).
-/

namespace LetLang

open Grammar

/-- How tightly an operator binds, from the loosest on. -/
def BinaryOp.precedence : BinaryOp → Nat
  | or => 0
  | and => 1
  | equal | notEqual => 2
  | less | lessEqual | greater | greaterEqual => 3
  | add | subtract | concat => 4
  | multiply | divide | remainder => 5
  | power => 6

namespace BinaryOp

theorem precedence_add_rank (op : BinaryOp) : op.precedence + op.rank = 6 := by
  cases op <;> rfl

theorem precedence_le_iff {op op' : BinaryOp} :
    op.precedence ≤ op'.precedence ↔ op'.rank ≤ op.rank := by
  have h := op.precedence_add_rank
  have h' := op'.precedence_add_rank
  omega

theorem precedence_lt_iff {op op' : BinaryOp} :
    op.precedence < op'.precedence ↔ op'.rank < op.rank := by
  rw [← Nat.not_le, ← Nat.not_le, precedence_le_iff]

end BinaryOp

/-- A token that is the sign of a binary operator. -/
structure Sign where
  token : Token
  op : BinaryOp
  binaryOp?_eq : token.kind.binaryOp? = some op

/-- A sign, as one of the signs of its rank. -/
def Sign.ranked (s : Sign) : BinarySign s.op.rank where
  token := s.token
  op := s.op
  kind_eq := Token.Kind.binaryOp?_eq_some.mp s.binaryOp?_eq
  mem_operators := mem_operators_iff.mpr rfl

/-! ### Groupings -/

/-- Operands, grouped by the binary signs between them. -/
inductive OpTree where
  | leaf (operand : Expr)
  | node (left : OpTree) (sign : Sign) (right : OpTree)

namespace OpTree

/-- The first operand from the left. -/
def first : OpTree → Expr
  | leaf e => e
  | node l _ _ => l.first

/-- From left to right, the signs with the operands after them. -/
def more : OpTree → List (Sign × Expr)
  | leaf _ => []
  | node l s r => l.more ++ (s, r.first) :: r.more

/-- The expression in which every sign joins what it groups. -/
def toExpr : OpTree → Expr
  | leaf e => e
  | node l s r => .binary s.op l.toExpr r.toExpr s.token.line

/-- The operator at the root of a grouping that is not a single operand. -/
def root? : OpTree → Option BinaryOp
  | leaf _ => none
  | node _ s _ => some s.op

/-- The left child of a node, if it is a node, binds at least as tightly, and the right child more
tightly. -/
def Respects : OpTree → Prop
  | leaf _ => True
  | node l s r =>
    (∀ op ∈ l.root?, s.op.precedence ≤ op.precedence) ∧
    (∀ op ∈ r.root?, s.op.precedence < op.precedence) ∧ l.Respects ∧ r.Respects

/-! ### There is a grouping that respects the precedence -/

/-- Adds a sign and an operand on the right, as high as they may stand. -/
def push : OpTree → Sign → Expr → OpTree
  | leaf e, s, e' => node (leaf e) s (leaf e')
  | node l t r, s, e' =>
    if s.op.precedence ≤ t.op.precedence then node (node l t r) s (leaf e')
    else node l t (r.push s e')

theorem first_push (t : OpTree) (s : Sign) (e : Expr) : (t.push s e).first = t.first := by
  cases t with
  | leaf _ => rfl
  | node l s' r =>
    rw [push]
    split_ifs <;> rfl

theorem more_push (t : OpTree) (s : Sign) (e : Expr) : (t.push s e).more = t.more ++ [(s, e)] := by
  induction t with
  | leaf _ => rfl
  | node l s' r _ ihr =>
    rw [push]
    split_ifs
    · rfl
    · rw [more, more, ihr, first_push, List.append_assoc, List.cons_append]

/-- The sign that is added is at the root, or the root stays what it was. -/
theorem root?_push {t : OpTree} {s : Sign} {e : Expr} {op : BinaryOp}
    (h : op ∈ (t.push s e).root?) : op = s.op ∨ op ∈ t.root? := by
  cases t with
  | leaf _ => exact .inl (Option.some.inj h).symm
  | node l s' r =>
    rw [push] at h
    split_ifs at h
    · exact .inl (Option.some.inj h).symm
    · exact .inr h

theorem Respects.push {t : OpTree} (h : t.Respects) (s : Sign) (e : Expr) :
    (t.push s e).Respects := by
  induction t with
  | leaf _ => simp [OpTree.push, Respects, root?]
  | node l s' r _ ihr =>
    obtain ⟨hleft, hright, hl, hr⟩ := h
    rw [OpTree.push]
    split_ifs with hle
    · refine ⟨fun op hop => ?_, by simp [root?], ⟨hleft, hright, hl, hr⟩, trivial⟩
      obtain rfl := Option.some.inj hop
      exact hle
    · refine ⟨hleft, fun op hop => ?_, hl, ihr hr⟩
      obtain rfl | hop := root?_push hop
      · omega
      · exact hright op hop

theorem exists_respects (e : Expr) (ms : List (Sign × Expr)) :
    ∃ t : OpTree, t.first = e ∧ t.more = ms ∧ t.Respects := by
  induction ms using List.reverseRecOn with
  | nil => exact ⟨leaf e, rfl, rfl, trivial⟩
  | append_singleton ms m ih =>
    obtain ⟨t, hfirst, hmore, ht⟩ := ih
    exact ⟨t.push m.1 m.2, by rw [first_push, hfirst], by rw [more_push, hmore], ht.push _ _⟩

/-! ### There is only one -/

/-- No sign of a grouping binds less tightly than the one at the root. -/
theorem Respects.le_of_mem_more {t : OpTree} (h : t.Respects) {p : Nat}
    (hroot : ∀ op ∈ t.root?, p ≤ op.precedence) : ∀ m ∈ t.more, p ≤ m.1.op.precedence := by
  induction t generalizing p with
  | leaf _ => exact List.forall_mem_nil _
  | node l s r ihl ihr =>
    obtain ⟨hleft, hright, hl, hr⟩ := h
    have hs : p ≤ s.op.precedence := hroot s.op rfl
    have hls := ihl hl fun op hop => Nat.le_trans hs (hleft op hop)
    have hrs := ihr hr fun op hop => Nat.le_trans hs (Nat.le_of_lt (hright op hop))
    exact List.forall_mem_append.mpr ⟨hls, List.forall_mem_cons.mpr ⟨hs, hrs⟩⟩

/-- Of two groupings of one sequence, the root of the second is not to the right of the root of the
first. -/
theorem Respects.not_root_right {l r l' r' : OpTree} {s s' : Sign} (h : (node l s r).Respects)
    (h' : (node l' s' r').Respects) {mid : List (Sign × Expr)}
    (hl : l'.more = l.more ++ (s, r.first) :: mid)
    (hr : r.more = mid ++ (s', r'.first) :: r'.more) : False := by
  obtain ⟨-, hright, -, hrespects⟩ := h
  obtain ⟨hleft', -, hrespects', -⟩ := h'
  have hs : (s, r.first) ∈ l'.more := by simp [hl]
  have hs' : (s', r'.first) ∈ r.more := by simp [hr]
  have hle := hrespects'.le_of_mem_more hleft' _ hs
  have hlt := hrespects.le_of_mem_more (p := s.op.precedence + 1) hright _ hs'
  dsimp only at hle hlt
  omega

/-- Two groupings of one sequence have the same root at the same place. -/
theorem Respects.same_root {l r l' r' : OpTree} {s s' : Sign} (h : (node l s r).Respects)
    (h' : (node l' s' r').Respects) (hmore : (node l s r).more = (node l' s' r').more) :
    l.more = l'.more ∧ s = s' ∧ r.first = r'.first ∧ r.more = r'.more := by
  obtain ⟨mid, hl, hr⟩ | ⟨mid, hl, hr⟩ := List.append_eq_append_iff.mp hmore
  · cases mid with
    | nil =>
      rw [List.append_nil] at hl
      obtain ⟨hhead, htail⟩ := List.cons.inj hr
      obtain ⟨hsign, hfirst⟩ := Prod.mk.inj hhead
      exact ⟨hl.symm, hsign, hfirst, htail⟩
    | cons m mid =>
      obtain ⟨rfl, htail⟩ := List.cons.inj hr
      exact (h.not_root_right h' hl htail).elim
  · cases mid with
    | nil =>
      rw [List.append_nil] at hl
      obtain ⟨hhead, htail⟩ := List.cons.inj hr
      obtain ⟨hsign, hfirst⟩ := Prod.mk.inj hhead
      exact ⟨hl, hsign.symm, hfirst.symm, htail.symm⟩
    | cons m mid =>
      obtain ⟨rfl, htail⟩ := List.cons.inj hr
      exact (h'.not_root_right h hl htail).elim

theorem Respects.eq_of_reads {t t' : OpTree} (h : t.Respects) (h' : t'.Respects)
    (hfirst : t.first = t'.first) (hmore : t.more = t'.more) : t = t' := by
  induction t generalizing t' with
  | leaf e =>
    cases t' with
    | leaf e' => exact congrArg leaf hfirst
    | node l' s' r' => simp [more] at hmore
  | node l s r ihl ihr =>
    cases t' with
    | leaf e' => simp [more] at hmore
    | node l' s' r' =>
      obtain ⟨hl, rfl, hfirstr, hr⟩ := h.same_root h' hmore
      rw [ihl h.2.2.1 h'.2.2.1 hfirst hl, ihr h.2.2.2 h'.2.2.2 hfirstr hr]

end OpTree

/-! ### It is the one that is read -/

/-- Tokens that are read as a unary operand, all of them, and the tree that is read. -/
structure Operand where
  tokens : List Token
  tree : Expr
  reads : ∃ rest, (Expr.binaryLevel 0).run (tokens ++ rest) = (.ok tree, rest)

theorem Operand.exists_derivation (u : Operand) :
    ∃ d : Derivation (.level 0), d.yield = u.tokens ∧ d.meaning = u.tree := by
  obtain ⟨rest, hrun⟩ := u.reads
  obtain ⟨_, hsplit, d, hmeaning, rfl⟩ := (gives_binaryLevel 0).ok hrun
  exact ⟨d, List.append_cancel_right hsplit, hmeaning⟩

/-- The tokens of signs with operands after them. -/
def signedTokens (more : List (Sign × Operand)) : List Token :=
  more.flatMap fun m => m.1.token :: m.2.tokens

/-- Signs with the trees of the operands after them. -/
def signedTrees (more : List (Sign × Operand)) : List (Sign × Expr) :=
  more.map fun m => (m.1, m.2.tree)

namespace Grammar.Derivation

variable {k : Nat}

/-- A tail with one more sign and operand after it. -/
def snoc : Derivation (.tail k) → BinarySign k → Derivation (.level k) → Derivation (.tail k)
  | endTail, sign, right => moreTail sign right endTail
  | moreTail sign' operand tail, sign, right => moreTail sign' operand (tail.snoc sign right)

theorem yield_snoc (sign : BinarySign k) (right : Derivation (.level k)) :
    ∀ tail : Derivation (.tail k), (tail.snoc sign right).yield =
      tail.yield ++ sign.token :: right.yield
  | endTail => by simp [snoc, yield]
  | moreTail sign' operand tail => by simp [snoc, yield, yield_snoc sign right tail]

theorem meaning_snoc (sign : BinarySign k) (right : Derivation (.level k)) :
    ∀ (tail : Derivation (.tail k)) (left : Expr), (tail.snoc sign right).meaning left =
      .binary sign.op (tail.meaning left) right.meaning sign.token.line
  | endTail, _ => by simp only [snoc, meaning]
  | moreTail sign' operand tail, left => by
    simp only [snoc, meaning, meaning_snoc sign right tail]

/-- A sign goes on the operands of the level above its own. -/
theorem exists_binary (left : Derivation (.level (k + 1))) (sign : BinarySign k)
    (right : Derivation (.level k)) :
    ∃ d : Derivation (.level (k + 1)), d.yield = left.yield ++ sign.token :: right.yield ∧
      d.meaning = .binary sign.op left.meaning right.meaning sign.token.line := by
  cases left with
  | chain first tail =>
    refine ⟨.chain first (tail.snoc sign right), ?_, meaning_snoc sign right tail _⟩
    rw [yield, yield_snoc, yield, List.append_assoc]

end Grammar.Derivation

/-- The operands of a grouping are divided by its root. -/
theorem OpTree.exists_operands {l r : OpTree} {s : Sign} {more : List (Sign × Operand)}
    (h : (node l s r).more = signedTrees more) :
    ∃ more₁ v more₂, more = more₁ ++ (s, v) :: more₂ ∧ l.more = signedTrees more₁ ∧
      r.first = v.tree ∧ r.more = signedTrees more₂ := by
  obtain ⟨more₁, more', rfl, hl, hmore'⟩ := List.map_eq_append_iff.mp h.symm
  obtain ⟨m, more₂, rfl, hhead, hr⟩ := List.map_eq_cons_iff.mp hmore'
  obtain ⟨rfl, hfirst⟩ := Prod.mk.inj hhead
  exact ⟨more₁, m.2, more₂, rfl, hl.symm, hfirst.symm, hr.symm⟩

/-- A grouping that respects the precedence is derived at every level above its root. -/
theorem OpTree.Respects.exists_derivation {t : OpTree} (h : t.Respects) {u : Operand}
    {more : List (Sign × Operand)} (hfirst : t.first = u.tree)
    (hmore : t.more = signedTrees more) {k : Nat}
    (hroot : ∀ op ∈ t.root?, op.rank < k) :
    ∃ d : Derivation (.level k), d.yield = u.tokens ++ signedTokens more ∧
      d.meaning = t.toExpr := by
  induction t generalizing u more k with
  | leaf e =>
    obtain rfl : more = [] := List.map_eq_nil_iff.mp hmore.symm
    obtain ⟨d, hyield, hmeaning⟩ := u.exists_derivation
    obtain ⟨d', hyield', hmeaning'⟩ := d.exists_level (Nat.zero_le k)
    refine ⟨d', ?_, ?_⟩
    · rw [hyield', hyield, signedTokens, List.flatMap_nil, List.append_nil]
    · rw [hmeaning', hmeaning]
      exact hfirst.symm
  | node l s r ihl ihr =>
    obtain ⟨hleft, hright, hl, hr⟩ := h
    obtain ⟨more₁, v, more₂, rfl, hmorel, hfirstr, hmorer⟩ := exists_operands hmore
    -- the left child may have operators of the rank of the root, the right one may not
    have hrankl : ∀ op ∈ l.root?, op.rank < s.op.rank + 1 := fun op hop =>
      Nat.lt_succ_of_le (BinaryOp.precedence_le_iff.mp (hleft op hop))
    have hrankr : ∀ op ∈ r.root?, op.rank < s.op.rank := fun op hop =>
      BinaryOp.precedence_lt_iff.mp (hright op hop)
    obtain ⟨dl, hyieldl, hmeaningl⟩ := ihl hl hfirst hmorel hrankl
    obtain ⟨dr, hyieldr, hmeaningr⟩ := ihr hr hfirstr hmorer hrankr
    obtain ⟨d, hyield, hmeaning⟩ := dl.exists_binary s.ranked dr
    obtain ⟨d', hyield', hmeaning'⟩ := d.exists_level (hroot s.op rfl)
    refine ⟨d', ?_, ?_⟩
    · rw [hyield', hyield, hyieldl, hyieldr]
      simp [signedTokens, Sign.ranked]
    · rw [hmeaning', hmeaning, hmeaningl, hmeaningr]
      rfl

/-- **Binary trees obey the precedence table.** Let unary operands have binary signs between them,
and let neither a binary sign nor an opening parenthesis follow. At the loosest level exactly these
tokens are read. The operators and operands of the tree, from left to right, are those of the
sequence; the left child of each operator binds at least as tightly as the operator itself, if it is
an operator of the sequence, and the right child more tightly. No other grouping of the sequence
does so. -/
theorem binaryLevel_respects_precedence (u : Operand) (more : List (Sign × Operand))
    {rest : List Token}
    (hrest : ∀ t ∈ rest.head?, t.kind.binaryOp? = none ∧ t.kind ≠ .symbol .leftParen) :
    ∃ t : OpTree,
      (Expr.binaryLevel BinaryOp.rankCount).run (u.tokens ++ signedTokens more ++ rest) =
        (.ok t.toExpr, rest) ∧
      t.first = u.tree ∧ t.more = signedTrees more ∧ t.Respects ∧
      ∀ t' : OpTree, t'.first = u.tree → t'.more = signedTrees more → t'.Respects → t' = t := by
  obtain ⟨t, hfirst, hmore, ht⟩ := OpTree.exists_respects u.tree (signedTrees more)
  refine ⟨t, ?_, hfirst, hmore, ht, fun t' hfirst' hmore' ht' => ?_⟩
  · obtain ⟨d, hyield, hmeaning⟩ :=
      ht.exists_derivation hfirst hmore (k := BinaryOp.rankCount) fun op _ => op.rank_lt_rankCount
    have hstops : Stops (.level BinaryOp.rankCount) rest := by
      intro t ht
      obtain ⟨hbinary, hparen⟩ := hrest t ht
      rintro (hparen' | ⟨hlist, -⟩ | ⟨op, hop, -⟩)
      · exact hparen hparen'
      · cases hlist
      · rw [hbinary] at hop
        cases hop
    rw [← hyield, ← hmeaning]
    exact d.parses rest hstops
  · exact ht'.eq_of_reads ht (hfirst'.trans hfirst.symm) (hmore'.trans hmore.symm)

/-- Before a semicolon, `a - b * c - d` is read as the difference of `a - b * c` and `d`. -/
theorem binaryLevel_differences :
    let name (x : String) : Token := ⟨.identifier x, x, ⟨1, 1⟩⟩
    let minus : Token := ⟨.symbol .minus, "-", ⟨1, 1⟩⟩
    let star : Token := ⟨.symbol .star, "*", ⟨1, 1⟩⟩
    let semicolon : Token := ⟨.symbol .semicolon, ";", ⟨1, 1⟩⟩
    (∀ t ∈ [semicolon].head?, t.kind.binaryOp? = none ∧ t.kind ≠ .symbol .leftParen) ∧
    (Expr.binaryLevel BinaryOp.rankCount).run
        [name "a", minus, name "b", star, name "c", minus, name "d", semicolon] =
      (.ok (.binary .subtract
        (.binary .subtract (.var "a" 1) (.binary .multiply (.var "b" 1) (.var "c" 1) 1) 1)
        (.var "d" 1) 1), [semicolon]) := by
  intro name minus star semicolon
  have hrest : ∀ t ∈ [semicolon].head?, t.kind.binaryOp? = none ∧ t.kind ≠ .symbol .leftParen := by
    simp [semicolon, Token.Kind.binaryOp?, BinaryOp.ofSymbol?]
  refine ⟨hrest, ?_⟩
  let operand (x : String) : Operand :=
    ⟨[name x], .var x 1, [],
      (Derivation.noUnary (.noGroup (.noCall (.var ⟨name x, x, rfl⟩)))).parses [] (stops_nil _)⟩
  let subtract : Sign := ⟨minus, .subtract, rfl⟩
  let multiply : Sign := ⟨star, .multiply, rfl⟩
  let product : OpTree := .node (.leaf (.var "b" 1)) multiply (.leaf (.var "c" 1))
  let grouping : OpTree :=
    .node (.node (.leaf (.var "a" 1)) subtract product) subtract (.leaf (.var "d" 1))
  have hgrouping : grouping.Respects := by
    simp [grouping, product, OpTree.Respects, OpTree.root?, subtract, multiply, BinaryOp.precedence]
  obtain ⟨t, hrun, -, -, -, hunique⟩ := binaryLevel_respects_precedence (operand "a")
    [(subtract, operand "b"), (multiply, operand "c"), (subtract, operand "d")] hrest
  rw [← hunique grouping rfl rfl hgrouping] at hrun
  exact hrun

end LetLang
