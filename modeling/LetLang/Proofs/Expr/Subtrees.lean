import LetLang.Expr

/-!
# Subtrees

All the nodes of a tree, as the trees below them. Bodies of declarations count.
-/

namespace LetLang.Expr

mutual

/-- The tree itself and all the trees inside it. -/
def subtrees : Expr → List Expr
  | literal v line => [literal v line]
  | unary op operand line => unary op operand line :: subtrees operand
  | binary op left right line => binary op left right line :: (subtrees left ++ subtrees right)
  | conditional c t f line =>
    conditional c t f line :: (subtrees c ++ (subtrees t ++ subtrees f))
  | var name line => [var name line]
  | letIn bindings body line =>
    letIn bindings body line :: (bindingSubtrees bindings ++ subtrees body)
  | function name params body line => function name params body line :: subtrees body
  | call name args line => call name args line :: listSubtrees args

/-- The subtrees of the trees of a list. -/
def listSubtrees : List Expr → List Expr
  | [] => []
  | e :: es => subtrees e ++ listSubtrees es

/-- The subtrees of what the bindings of a `let` bind names to. -/
def bindingSubtrees : List (Binding Expr) → List Expr
  | [] => []
  | ⟨_, value, _⟩ :: bs => subtrees value ++ bindingSubtrees bs

end

/-- The subtrees that are evaluated when the tree is, or when the function that it declares is
called. -/
def parts : Expr → List Expr
  | function _ _ body _ => body.subtrees
  | e => e.subtrees

/-- Whether the tree is a declaration. -/
def isFunction : Expr → Bool
  | function .. => true
  | _ => false

/-- Whether the tree is a call of the built-in source of random numbers. -/
def isRand : Expr → Bool
  | call name args _ => name = "rand" && args.isEmpty
  | _ => false

/-- A tree without a declaration in it. -/
def FunctionFree (e : Expr) : Prop := ∀ s ∈ e.subtrees, s.isFunction = false

/-- A tree that draws no random number by itself. -/
def RandFree (e : Expr) : Prop := ∀ s ∈ e.subtrees, s.isRand = false

/-! ### All the subtrees -/

section

variable {p : Expr → Prop} {line : Nat}

theorem forall_mem_subtrees_literal {v : Literal} :
    (∀ s ∈ (literal v line).subtrees, p s) ↔ p (literal v line) :=
  List.forall_mem_singleton

theorem forall_mem_subtrees_unary {op : UnaryOp} {operand : Expr} :
    (∀ s ∈ (unary op operand line).subtrees, p s) ↔
      p (unary op operand line) ∧ ∀ s ∈ operand.subtrees, p s :=
  List.forall_mem_cons

theorem forall_mem_subtrees_binary {op : BinaryOp} {left right : Expr} :
    (∀ s ∈ (binary op left right line).subtrees, p s) ↔
      p (binary op left right line) ∧ (∀ s ∈ left.subtrees, p s) ∧
        ∀ s ∈ right.subtrees, p s := by
  rw [← List.forall_mem_append]
  exact List.forall_mem_cons

theorem forall_mem_subtrees_conditional {c t f : Expr} :
    (∀ s ∈ (conditional c t f line).subtrees, p s) ↔
      p (conditional c t f line) ∧ (∀ s ∈ c.subtrees, p s) ∧ (∀ s ∈ t.subtrees, p s) ∧
        ∀ s ∈ f.subtrees, p s := by
  rw [← List.forall_mem_append, ← List.forall_mem_append]
  exact List.forall_mem_cons

theorem forall_mem_subtrees_var {name : String} :
    (∀ s ∈ (var name line).subtrees, p s) ↔ p (var name line) :=
  List.forall_mem_singleton

theorem forall_mem_subtrees_letIn {bindings : List (Binding Expr)} {body : Expr} :
    (∀ s ∈ (letIn bindings body line).subtrees, p s) ↔
      p (letIn bindings body line) ∧ (∀ s ∈ bindingSubtrees bindings, p s) ∧
        ∀ s ∈ body.subtrees, p s := by
  rw [← List.forall_mem_append]
  exact List.forall_mem_cons

theorem forall_mem_subtrees_function {name : String} {params : List String} {body : Expr} :
    (∀ s ∈ (function name params body line).subtrees, p s) ↔
      p (function name params body line) ∧ ∀ s ∈ body.subtrees, p s :=
  List.forall_mem_cons

theorem forall_mem_subtrees_call {name : String} {args : List Expr} :
    (∀ s ∈ (call name args line).subtrees, p s) ↔
      p (call name args line) ∧ ∀ s ∈ listSubtrees args, p s :=
  List.forall_mem_cons

theorem forall_mem_listSubtrees_cons {e : Expr} {es : List Expr} :
    (∀ s ∈ listSubtrees (e :: es), p s) ↔
      (∀ s ∈ e.subtrees, p s) ∧ ∀ s ∈ listSubtrees es, p s :=
  List.forall_mem_append

theorem forall_mem_bindingSubtrees_cons {b : Binding Expr} {bs : List (Binding Expr)} :
    (∀ s ∈ bindingSubtrees (b :: bs), p s) ↔
      (∀ s ∈ b.value.subtrees, p s) ∧ ∀ s ∈ bindingSubtrees bs, p s :=
  List.forall_mem_append

/-- What holds of the subtrees of a list holds of those of each tree in it. -/
theorem forall_mem_listSubtrees {es : List Expr} :
    (∀ s ∈ listSubtrees es, p s) ↔ ∀ e ∈ es, ∀ s ∈ e.subtrees, p s := by
  induction es with
  | nil => exact iff_of_true (List.forall_mem_nil _) (List.forall_mem_nil _)
  | cons e es ih => rw [forall_mem_listSubtrees_cons, ih, List.forall_mem_cons]

/-- What holds of the subtrees of bindings holds of those of each value. -/
theorem forall_mem_bindingSubtrees {bs : List (Binding Expr)} :
    (∀ s ∈ bindingSubtrees bs, p s) ↔ ∀ b ∈ bs, ∀ s ∈ b.value.subtrees, p s := by
  induction bs with
  | nil => exact iff_of_true (List.forall_mem_nil _) (List.forall_mem_nil _)
  | cons b bs ih => rw [forall_mem_bindingSubtrees_cons, ih, List.forall_mem_cons]

end

/-! ### Trees without declarations -/

theorem functionFree_literal (v : Literal) (line : Nat) : (literal v line).FunctionFree :=
  forall_mem_subtrees_literal.mpr rfl

theorem functionFree_var (name : String) (line : Nat) : (var name line).FunctionFree :=
  forall_mem_subtrees_var.mpr rfl

theorem functionFree_unary {op : UnaryOp} {operand : Expr} {line : Nat} :
    (unary op operand line).FunctionFree ↔ operand.FunctionFree :=
  forall_mem_subtrees_unary.trans (and_iff_right rfl)

theorem functionFree_binary {op : BinaryOp} {left right : Expr} {line : Nat} :
    (binary op left right line).FunctionFree ↔ left.FunctionFree ∧ right.FunctionFree :=
  forall_mem_subtrees_binary.trans (and_iff_right rfl)

theorem functionFree_conditional {c t f : Expr} {line : Nat} :
    (conditional c t f line).FunctionFree ↔
      c.FunctionFree ∧ t.FunctionFree ∧ f.FunctionFree :=
  forall_mem_subtrees_conditional.trans (and_iff_right rfl)

/-- A `let` declares a function only in a value or in its body. -/
theorem functionFree_letIn {bindings : List (Binding Expr)} {body : Expr} {line : Nat} :
    (letIn bindings body line).FunctionFree ↔
      (∀ b ∈ bindings, b.value.FunctionFree) ∧ body.FunctionFree := by
  unfold FunctionFree
  rw [forall_mem_subtrees_letIn, forall_mem_bindingSubtrees]
  exact and_iff_right rfl

/-- A call declares a function only in an argument. -/
theorem functionFree_call {name : String} {args : List Expr} {line : Nat} :
    (call name args line).FunctionFree ↔ ∀ e ∈ args, e.FunctionFree := by
  unfold FunctionFree
  rw [forall_mem_subtrees_call, forall_mem_listSubtrees]
  exact and_iff_right rfl

/-- A declaration is not free of declarations. -/
theorem not_functionFree_function (name : String) (params : List String) (body : Expr)
    (line : Nat) : ¬ (function name params body line).FunctionFree := by
  intro h
  cases (forall_mem_subtrees_function.mp h).1

/-- What is evaluated of a tree is among its subtrees. -/
theorem mem_subtrees_of_mem_parts {s e : Expr} (h : s ∈ e.parts) : s ∈ e.subtrees := by
  cases e with
  | function name params body line => exact List.mem_cons_of_mem _ h
  | _ => exact h

end LetLang.Expr
