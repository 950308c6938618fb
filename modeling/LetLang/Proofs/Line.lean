import LetLang.Line
import LetLang.Proofs.Eval.Uniform
import LetLang.Proofs.Expr.Statement

/-!
# What a line of source does

The tree of a line has no declaration except possibly at its root
(`Line.isFunction_of_mem_parts`), so a line declares at most one function, and it declares none
while it evaluates an expression. With no variables bound, a line is a function of the declared
functions and the random numbers (`Line.effect`), and for lines without `rand` it is a function of
the declared functions alone (`Line.effect_uniform`).
-/

namespace LetLang

/-! ### Declarations in trees -/

namespace Grammar

/-- What a derivation stands for has no declaration in it. A tail adds none to the operand before
it. -/
def IsPlain : (n : Nonterminal) → Meaning n → Prop
  | .bindings, bs => ∀ b ∈ bs, b.value.FunctionFree
  | .binding, b => b.value.FunctionFree
  | .tail _, f => ∀ left : Expr, left.FunctionFree → (f left).FunctionFree
  | .arguments, es => ∀ e ∈ es, e.FunctionFree
  | .expression, e | .conditional, e | .level _, e | .grouping, e | .call, e | .literal, e =>
    e.FunctionFree

theorem Derivation.isPlain {n : Nonterminal} (d : Derivation n) : IsPlain n d.meaning := by
  induction d with
  | letIn keyword bs separator body ihbs ihbody =>
    exact Expr.functionFree_letIn.mpr ⟨ihbs, ihbody⟩
  | noLet d ih => exact ih
  | lastBinding b ih => exact List.forall_mem_singleton.mpr ih
  | moreBindings b comma bs ihb ihbs => exact List.forall_mem_cons.mpr ⟨ihb, ihbs⟩
  | binding name sign value ih => exact ih
  | ifElse keyword left condition right onTrue separator onFalse ihc iht ihf =>
    exact Expr.functionFree_conditional.mpr ⟨ihc, iht, ihf⟩
  | noIf d ih => exact ih
  | chain first tail ihfirst ihtail => exact ihtail _ ihfirst
  | endTail => exact fun _ h => h
  | moreTail sign operand tail ihoperand ihtail =>
    exact fun left hleft => ihtail _ (Expr.functionFree_binary.mpr ⟨hleft, ihoperand⟩)
  | unary sign operand ih => exact Expr.functionFree_unary.mpr ih
  | noUnary d ih => exact ih
  | group left inner right ih => exact ih
  | noGroup d ih => exact ih
  | emptyCall name left right => exact Expr.functionFree_call.mpr (List.forall_mem_nil _)
  | call name left args right ih => exact Expr.functionFree_call.mpr ih
  | noCall d ih => exact ih
  | lastArgument arg ih => exact List.forall_mem_singleton.mpr ih
  | moreArguments arg comma args iharg ihargs => exact List.forall_mem_cons.mpr ⟨iharg, ihargs⟩
  | constant c => exact Expr.functionFree_literal _ _
  | var name => exact Expr.functionFree_var _ _

end Grammar

/-- The value at the end of an evaluation, or why there is none. -/
def Outcome.result : Outcome α → Except Failure α
  | value a => .ok a
  | error e => .error (.runtime e)
  | tooDeep => .error .tooDeep

namespace Line

theorem ofTokens_of_parse {source : String} {line : Nat} {tree : Expr}
    (h : parse source line = .ok tree) :
    Expr.ofTokens (Token.scan source line).tokens = .ok tree := by
  dsimp only [parse] at h
  split_ifs at h
  cases hread : Expr.ofTokens (Token.scan source line).tokens with
  | ok e =>
    rw [hread] at h
    exact congrArg Except.ok (Except.ok.inj h)
  | error e =>
    rw [hread] at h
    cases h

/-- A line that cannot be parsed fails with all its lexical errors, or, without any, with one syntax
error. -/
theorem parse_error_cases {source : String} {line : Nat} {f : Failure}
    (h : parse source line = .error f) :
    ((Token.scan source line).errors ≠ [] ∧ f = .lexical (Token.scan source line).errors) ∨
    ((Token.scan source line).errors = [] ∧
      ∃ e, Expr.ofTokens (Token.scan source line).tokens = .error e ∧ f = .syntactic e) := by
  dsimp only [parse] at h
  split_ifs at h with herrors
  · rw [List.isEmpty_iff] at herrors
    cases hread : Expr.ofTokens (Token.scan source line).tokens with
    | ok tree =>
      rw [hread] at h
      cases h
    | error e =>
      rw [hread] at h
      exact .inr ⟨herrors, e, rfl, (Except.error.inj h).symm⟩
  · rw [List.isEmpty_iff] at herrors
    exact .inl ⟨herrors, (Except.error.inj h).symm⟩

/-- The tree of a line has no declaration below its root. -/
theorem isFunction_of_mem_parts {source : String} {line : Nat} {tree : Expr}
    (h : parse source line = .ok tree) : ∀ s ∈ tree.parts, s.isFunction = false := by
  obtain ⟨w, semicolon, rest, -, -, s, rfl, rfl, -⟩ :=
    Grammar.exists_derives_of_ofTokens (ofTokens_of_parse h)
  cases s with
  | function keyword name left params right arrow body => exact body.isPlain
  | expression d => exact fun t ht => d.isPlain t (Expr.mem_subtrees_of_mem_parts ht)

/-- All the nodes of the tree of a line are allowed, except for the root of a declaration. -/
def AllParts (allowed : Expr → Prop) (source : String) (line : Nat) : Prop :=
  ∀ tree, parse source line = .ok tree → ∀ s ∈ tree.parts, allowed s

/-- The tree of a line, if it has one, draws no random number. -/
def RandFree (source : String) (line : Nat) : Prop :=
  ∀ tree, parse source line = .ok tree → tree.RandFree

theorem allParts_functionFree (source : String) (line : Nat) :
    AllParts (fun e => e.isFunction = false) source line :=
  fun _ h => isFunction_of_mem_parts h

theorem RandFree.allParts {source : String} {line : Nat} (h : RandFree source line) :
    AllParts (fun e => e.isFunction = false ∧ e.isRand = false) source line :=
  fun tree htree s hs => ⟨isFunction_of_mem_parts htree s hs,
    h tree htree s (Expr.mem_subtrees_of_mem_parts hs)⟩

/-! ### Effects -/

/-- The function that a line declares, or tries to. -/
def declaration? (source : String) (line : Nat) : Option Function :=
  match parse source line with
  | .ok (.function name params body n) => some ⟨name, params, body, n⟩
  | _ => none

/-- The declared functions after a line. -/
def table (F : FunctionTable) (source : String) (line : Nat) : FunctionTable :=
  (declaration? source line).elim F F.declare

theorem table_eq_extend {source : String} {line : Nat} {tree : Expr}
    (h : parse source line = .ok tree) (F : FunctionTable) :
    table F source line = F.extend tree := by
  unfold table declaration?
  rw [h]
  cases tree <;> rfl

theorem table_of_error {source : String} {line : Nat} {f : Failure}
    (h : parse source line = .error f) (F : FunctionTable) : table F source line = F := by
  unfold table declaration?
  rw [h]
  rfl

/-- The bodies of the functions after a line come from the functions before it or from the line. -/
theorem AllParts.allBodies {allowed : Expr → Prop} {source : String} {line : Nat}
    (h : AllParts allowed source line) {F : FunctionTable} (hF : F.AllBodies allowed) :
    (table F source line).AllBodies allowed := by
  cases hparse : parse source line with
  | error f =>
    rw [table_of_error hparse]
    exact hF
  | ok tree =>
    have hparts := h tree hparse
    rw [table_eq_extend hparse]
    cases tree with
    | function name params body n => exact hF.declare hparts
    | _ => exact hF

/-- The value of a line or why it has none, what it prints, and the world that it leaves. -/
structure Effect where
  result : Except Failure Value
  printed : List Value
  world : World

/-- What a line does in a world, when no variable is bound. -/
def effect (depth : Nat) (source : String) (line : Nat) (w : World) : Effect :=
  match parse source line with
  | .error f => ⟨.error f, [], w⟩
  | .ok tree =>
    let r := (Expr.evalIn depth tree fun _ => none).run w
    ⟨r.outcome.result, r.printed, r.world⟩

/-- With the same functions, and with sources of random numbers that are alike for all that the line
and the bodies of the functions may meet, a line has the same effect. -/
theorem effect_uniform {S : RandomSource → RandomSource → Prop} {allowed : Expr → Prop}
    (hS : Admits S allowed) {F : FunctionTable} (hF : F.AllBodies allowed) (depth : Nat)
    {source : String} {line : Nat} (hline : AllParts allowed source line) {r r' : RandomSource}
    (h : S r r') :
    ∃ result printed q q', S q q' ∧
      effect depth source line ⟨F, r⟩ = ⟨result, printed, ⟨table F source line, q⟩⟩ ∧
      effect depth source line ⟨F, r'⟩ = ⟨result, printed, ⟨table F source line, q'⟩⟩ := by
  unfold effect
  cases hparse : parse source line with
  | error f =>
    rw [table_of_error hparse]
    exact ⟨_, _, r, r', h, rfl, rfl⟩
  | ok tree =>
    rw [table_eq_extend hparse]
    obtain ⟨outcome, printed, q, q', hq, hrun, hrun'⟩ :=
      Expr.evalIn_statement_uniform hS hF depth (hline tree hparse) (fun _ => none) r r' h
    exact ⟨outcome.result, printed, q, q', hq, by simp only [hrun], by simp only [hrun']⟩

/-- A line that fails declares nothing. -/
theorem table_of_effect_error {depth : Nat} {source : String} {line : Nat} {F : FunctionTable}
    {r : RandomSource} {f : Failure} (h : (effect depth source line ⟨F, r⟩).result = .error f) :
    table F source line = F := by
  unfold effect at h
  cases hparse : parse source line with
  | error f => exact table_of_error hparse F
  | ok tree =>
    rw [table_eq_extend hparse]
    rw [hparse] at h
    cases tree with
    | function name params body n =>
      obtain ⟨e, htable, -⟩ | hrun :=
        Expr.evalIn_function_cases F depth name params body n fun _ => none
      · exact htable
      · simp only [hrun, Outcome.result] at h
        cases h
    | _ => rfl

end Line

end LetLang
