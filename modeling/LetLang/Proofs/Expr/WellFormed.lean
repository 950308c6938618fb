import LetLang.Proofs.Expr.Grammar
import LetLang.Proofs.Expr.Subtrees
import LetLang.Proofs.Token.Spelling

/-!
# Trees that a source text can have

A tree is well formed if its names are names of the language, its literals are allowed ones, each
`let` in it binds something, and a declaration stands at most at its root. The syntax has no other
trees: what is derived from tokens with such names and literals is well formed
(`Statement.wellFormed`).
-/

namespace LetLang

namespace Expr

/-! ### Well-formed trees -/

/-- What a tree needs at its root to be inside a statement. -/
def WellFormedNode (allowed : Literal → Prop) : Expr → Prop
  | literal v _ => allowed v
  | var name _ => Token.IsName name
  | letIn bindings _ _ => bindings ≠ [] ∧ ∀ b ∈ bindings, Token.IsName b.name
  | call name _ _ => Token.IsName name
  | function .. => False
  | unary .. | binary .. | conditional .. => True

/-- A tree that may be inside a statement. -/
def WellFormedTree (allowed : Literal → Prop) (e : Expr) : Prop :=
  ∀ s ∈ e.subtrees, s.WellFormedNode allowed

/-- Trees that may all be inside a statement. -/
def WellFormedTrees (allowed : Literal → Prop) (es : List Expr) : Prop :=
  ∀ s ∈ listSubtrees es, s.WellFormedNode allowed

/-- What the bindings of a `let` bind names to may be inside a statement. -/
def WellFormedValues (allowed : Literal → Prop) (bs : List (Binding Expr)) : Prop :=
  ∀ s ∈ bindingSubtrees bs, s.WellFormedNode allowed

/-- A tree that may be a statement: one that may be inside a statement, or a declaration of a
function with distinct parameters. -/
def WellFormed (allowed : Literal → Prop) : Expr → Prop
  | function name params body _ =>
    Token.IsName name ∧ (∀ p ∈ params, Token.IsName p) ∧ params.Nodup ∧ body.WellFormedTree allowed
  | e => e.WellFormedTree allowed

section

variable {allowed : Literal → Prop}

@[simp]
theorem wellFormedTree_literal {v : Literal} {n : Nat} :
    (literal v n).WellFormedTree allowed ↔ allowed v :=
  forall_mem_subtrees_literal

@[simp]
theorem wellFormedTree_unary {op : UnaryOp} {operand : Expr} {n : Nat} :
    (unary op operand n).WellFormedTree allowed ↔ operand.WellFormedTree allowed :=
  forall_mem_subtrees_unary.trans (and_iff_right trivial)

@[simp]
theorem wellFormedTree_binary {op : BinaryOp} {left right : Expr} {n : Nat} :
    (binary op left right n).WellFormedTree allowed ↔
      left.WellFormedTree allowed ∧ right.WellFormedTree allowed :=
  forall_mem_subtrees_binary.trans (and_iff_right trivial)

@[simp]
theorem wellFormedTree_conditional {c t e : Expr} {n : Nat} :
    (conditional c t e n).WellFormedTree allowed ↔
      c.WellFormedTree allowed ∧ t.WellFormedTree allowed ∧ e.WellFormedTree allowed :=
  forall_mem_subtrees_conditional.trans (and_iff_right trivial)

@[simp]
theorem wellFormedTree_var {name : String} {n : Nat} :
    (var name n).WellFormedTree allowed ↔ Token.IsName name :=
  forall_mem_subtrees_var

/-- A `let` has bindings, and they have names of the language. -/
@[simp]
theorem wellFormedTree_letIn {bs : List (Binding Expr)} {body : Expr} {n : Nat} :
    (letIn bs body n).WellFormedTree allowed ↔
      (bs ≠ [] ∧ ∀ b ∈ bs, Token.IsName b.name) ∧ WellFormedValues allowed bs ∧
        body.WellFormedTree allowed :=
  forall_mem_subtrees_letIn

/-- A declaration is no expression. -/
@[simp]
theorem wellFormedTree_function {name : String} {params : List String} {body : Expr} {n : Nat} :
    ¬ (function name params body n).WellFormedTree allowed :=
  fun h => (forall_mem_subtrees_function.mp h).1

/-- A function that is called has a name of the language. -/
@[simp]
theorem wellFormedTree_call {name : String} {args : List Expr} {n : Nat} :
    (call name args n).WellFormedTree allowed ↔
      Token.IsName name ∧ WellFormedTrees allowed args :=
  forall_mem_subtrees_call

@[simp]
theorem wellFormedTrees_nil : WellFormedTrees allowed [] := List.forall_mem_nil _

@[simp]
theorem wellFormedTrees_cons {e : Expr} {es : List Expr} :
    WellFormedTrees allowed (e :: es) ↔
      e.WellFormedTree allowed ∧ WellFormedTrees allowed es :=
  forall_mem_listSubtrees_cons

@[simp]
theorem wellFormedValues_nil : WellFormedValues allowed [] := List.forall_mem_nil _

@[simp]
theorem wellFormedValues_cons {b : Binding Expr} {bs : List (Binding Expr)} :
    WellFormedValues allowed (b :: bs) ↔
      b.value.WellFormedTree allowed ∧ WellFormedValues allowed bs :=
  forall_mem_bindingSubtrees_cons

/-- What is asked of literals may be weakened for those in the tree. -/
theorem WellFormedTree.imp {e : Expr} {allowed' : Literal → Prop} (h : e.WellFormedTree allowed)
    (himp : ∀ v n, literal v n ∈ e.subtrees → allowed v → allowed' v) :
    e.WellFormedTree allowed' := by
  intro s hs
  cases s with
  | literal v n => exact himp v n hs (h _ hs)
  | _ => exact h _ hs

/-- What follows for all the literals of a well-formed tree may be asked of them instead. -/
theorem WellFormed.imp {e : Expr} {allowed' : Literal → Prop} (h : e.WellFormed allowed)
    (himp : ∀ v n, literal v n ∈ e.subtrees → allowed v → allowed' v) : e.WellFormed allowed' := by
  cases e with
  | function name params body n =>
    obtain ⟨hname, hparams, hdistinct, hbody⟩ := h
    refine ⟨hname, hparams, hdistinct, hbody.imp fun v n hv => himp v n ?_⟩
    exact List.mem_cons_of_mem _ hv
  | _ => exact WellFormedTree.imp h himp

end

end Expr

/-! ### Derived trees -/

namespace Grammar

open LetLang.Expr

/-- A token that is a name has a name of the language, and one that denotes a value an allowed one.
-/
def TokenMeets (allowed : Literal → Prop) (t : Token) : Prop :=
  (∀ name, t.kind = .identifier name → Token.IsName name) ∧ ∀ v, Denotes t.kind v → allowed v

/-- What a derivation stands for is well formed. A tail keeps the operand before it so. -/
def IsWellFormed (allowed : Literal → Prop) : (n : Nonterminal) → Meaning n → Prop
  | .bindings, bs =>
    (bs ≠ [] ∧ ∀ b ∈ bs, Token.IsName b.name) ∧ WellFormedValues allowed bs
  | .binding, b => Token.IsName b.name ∧ b.value.WellFormedTree allowed
  | .tail _, f => ∀ left : Expr, left.WellFormedTree allowed → (f left).WellFormedTree allowed
  | .arguments, es => WellFormedTrees allowed es
  | .expression, e | .conditional, e | .level _, e | .grouping, e | .call, e | .literal, e =>
    e.WellFormedTree allowed

variable {allowed : Literal → Prop}

theorem Name.isName {name : Name} (h : TokenMeets allowed name.token) : Token.IsName name.name :=
  h.1 _ name.kind_eq

/-- The meaning of a derivation is well formed, if its names and literals are. -/
theorem Derivation.isWellFormed {n : Nonterminal} (d : Derivation n)
    (h : ∀ t ∈ d.yield, TokenMeets allowed t) : IsWellFormed allowed n d.meaning := by
  induction d with
  | letIn keyword bs separator body ihbs ihbody =>
    simp only [yield, List.forall_mem_cons, List.forall_mem_append] at h
    obtain ⟨-, hbs, -, hbody⟩ := h
    obtain ⟨hnames, hvalues⟩ := ihbs hbs
    exact wellFormedTree_letIn.mpr ⟨hnames, hvalues, ihbody hbody⟩
  | noLet d ih => exact ih h
  | lastBinding b ih =>
    obtain ⟨hname, hvalue⟩ := ih h
    exact ⟨⟨List.cons_ne_nil _ _, List.forall_mem_singleton.mpr hname⟩,
      wellFormedValues_cons.mpr ⟨hvalue, wellFormedValues_nil⟩⟩
  | moreBindings b comma bs ihb ihbs =>
    simp only [yield, List.forall_mem_cons, List.forall_mem_append] at h
    obtain ⟨hb, -, hbs⟩ := h
    obtain ⟨hname, hvalue⟩ := ihb hb
    obtain ⟨⟨-, hnames⟩, hvalues⟩ := ihbs hbs
    exact ⟨⟨List.cons_ne_nil _ _, List.forall_mem_cons.mpr ⟨hname, hnames⟩⟩,
      wellFormedValues_cons.mpr ⟨hvalue, hvalues⟩⟩
  | binding name sign value ih =>
    simp only [yield, List.forall_mem_cons] at h
    exact ⟨name.isName h.1, ih h.2.2⟩
  | ifElse keyword left condition right onTrue separator onFalse ihc iht ihf =>
    simp only [yield, List.forall_mem_cons, List.forall_mem_append] at h
    obtain ⟨-, -, hc, -, ht, -, hf⟩ := h
    exact wellFormedTree_conditional.mpr ⟨ihc hc, iht ht, ihf hf⟩
  | noIf d ih => exact ih h
  | chain first tail ihfirst ihtail =>
    simp only [yield, List.forall_mem_append] at h
    exact ihtail h.2 _ (ihfirst h.1)
  | endTail => exact fun _ hleft => hleft
  | moreTail sign operand tail ihoperand ihtail =>
    simp only [yield, List.forall_mem_cons, List.forall_mem_append] at h
    intro left hleft
    exact ihtail h.2.2 _ (wellFormedTree_binary.mpr ⟨hleft, ihoperand h.2.1⟩)
  | unary sign operand ih =>
    simp only [yield, List.forall_mem_cons] at h
    exact wellFormedTree_unary.mpr (ih h.2)
  | noUnary d ih => exact ih h
  | group left inner right ih =>
    simp only [yield, List.forall_mem_cons, List.forall_mem_append] at h
    exact ih h.2.1
  | noGroup d ih => exact ih h
  | emptyCall name left right =>
    simp only [yield, List.forall_mem_cons] at h
    exact wellFormedTree_call.mpr ⟨name.isName h.1, wellFormedTrees_nil⟩
  | call name left args right ih =>
    simp only [yield, List.forall_mem_cons, List.forall_mem_append] at h
    exact wellFormedTree_call.mpr ⟨name.isName h.1, ih h.2.2.1⟩
  | noCall d ih => exact ih h
  | lastArgument arg ih => exact wellFormedTrees_cons.mpr ⟨ih h, wellFormedTrees_nil⟩
  | moreArguments arg comma args iharg ihargs =>
    simp only [yield, List.forall_mem_cons, List.forall_mem_append] at h
    exact wellFormedTrees_cons.mpr ⟨iharg h.1, ihargs h.2.2⟩
  | constant c =>
    simp only [yield, List.forall_mem_cons] at h
    exact wellFormedTree_literal.mpr (h.1.2 _ c.denotes)
  | var name =>
    simp only [yield, List.forall_mem_cons] at h
    exact wellFormedTree_var.mpr (name.isName h.1)

/-- Parameters have names of the language. -/
theorem Parameters.isName {ps : Parameters} (h : ∀ t ∈ ps.yield, TokenMeets allowed t) :
    ∀ p ∈ ps.list.map Name.name, Token.IsName p := by
  induction ps with
  | last name =>
    simp only [yield, List.forall_mem_cons] at h
    simpa [list] using name.isName h.1
  | more name comma ps ih =>
    simp only [yield, List.forall_mem_cons] at h
    rw [list, List.map_cons, List.forall_mem_cons]
    exact ⟨name.isName h.1, ih h.2.2⟩

/-- A statement with distinct parameters is a well-formed tree. -/
theorem Statement.wellFormed {s : Statement} (hdistinct : s.Distinct)
    (h : ∀ t ∈ s.yield, TokenMeets allowed t) : s.tree.WellFormed allowed := by
  cases s with
  | function keyword name left params right arrow body =>
    simp only [yield, List.forall_mem_cons, List.forall_mem_append] at h
    obtain ⟨-, hname, -, hparams, -, -, hbody⟩ := h
    refine ⟨name.isName hname, ?_, hdistinct, body.isWellFormed hbody⟩
    cases params with
    | none => simp [names]
    | some ps => exact Parameters.isName hparams
  | expression d =>
    have htree : d.meaning.WellFormedTree allowed := d.isWellFormed h
    show d.meaning.WellFormed allowed
    cases hmeaning : d.meaning with
    | function =>
      rw [hmeaning] at htree
      exact absurd htree wellFormedTree_function
    | _ =>
      rw [hmeaning] at htree
      exact htree

end Grammar

end LetLang
