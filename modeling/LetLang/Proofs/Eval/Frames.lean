import LetLang.Proofs.Context.Runs
import LetLang.Proofs.Eval.Nested

/-!
# Frames of variables

A `let` and a call both define variables for as long as something else is evaluated. A `let` defines
each variable as soon as its value is there, and a call defines its parameters after all arguments
have been evaluated. The two agree (`Expr.evalUpTo_frames`): a `let` with many bindings is a `let`
inside a `let`, wherever the bindings are divided, and a call of a declared function is a `let` that
binds its parameters to the values of the arguments, written as literals.
-/

namespace LetLang

/-- Every value but `nil` can be written as a literal. -/
theorem Value.exists_literal {v : Value} (h : v ≠ .nil) : ∃ l : Literal, l.value = v := by
  cases v with
  | number x => exact ⟨.number x, rfl⟩
  | text s => exact ⟨.quoted s, rfl⟩
  | bool b => exact ⟨.bool b, rfl⟩
  | nil => exact absurd rfl h

theorem Value.exists_literals {vs : List Value} (h : ∀ v ∈ vs, v ≠ .nil) :
    ∃ ls : List Literal, ls.map Literal.value = vs := by
  induction vs with
  | nil => exact ⟨[], rfl⟩
  | cons v vs ih =>
    obtain ⟨hv, hvs⟩ := List.forall_mem_cons.mp h
    obtain ⟨l, rfl⟩ := exists_literal hv
    obtain ⟨ls, rfl⟩ := ih hvs
    exact ⟨l :: ls, rfl⟩

namespace Expr

/-- The bindings of parameters to literals, all on one line. -/
def literalBindings (params : List String) (literals : List Literal) (line : Nat) :
    List (Binding Expr) :=
  List.zipWith (fun name l => ⟨name, literal l line, line⟩) params literals

section

variable (enter : Expr → Eval Value)

/-- More bindings in a `let` are those of a `let` inside. -/
theorem evalLet_append (bs bs' : List (Binding Expr)) (body : Eval Value) :
    evalLet enter (bs ++ bs') body = evalLet enter bs (evalLet enter bs' body) := by
  induction bs with
  | nil => rw [List.nil_append, evalLet]
  | cons b bs ih =>
    obtain ⟨name, value, line⟩ := b
    rw [List.cons_append, evalLet, evalLet, ih]

/-- Binding names to literals defines them all at once: no literal depends on the names before. -/
theorem evalLet_literalBindings (params : List String) (literals : List Literal) (line : Nat)
    (body : Eval Value) :
    evalLet enter (literalBindings params literals line) body =
      Eval.withVariables (params.zip (literals.map Literal.value)) body := by
  induction params generalizing literals with
  | nil => simp only [literalBindings, List.zipWith_nil_left, List.zip_nil_left, evalLet,
      Eval.withVariables]
  | cons name params ih =>
    cases literals with
    | nil => simp only [literalBindings, List.zipWith_nil_right, List.map_nil, List.zip_nil_right,
        evalLet, Eval.withVariables]
    | cons l literals =>
      have hfirst : evalLet enter (literalBindings (name :: params) (l :: literals) line) body =
          Eval.withVariable name l.value
            (evalLet enter (literalBindings params literals line) body) := by
        simp only [literalBindings, List.zipWith_cons_cons, evalLet, evalWith, pure_bind]
      rw [hfirst, ih]
      rfl

end

/-- A `let` is evaluated by its bindings and then its body, at any depth. -/
theorem evalUpTo_letIn (n : Nat) (bs : List (Binding Expr)) (body : Expr) (line : Nat) :
    (letIn bs body line).evalUpTo n = evalLet (enterUpTo n) bs (body.evalUpTo n) := by
  rw [evalUpTo_eq, evalWith]

/-- **Frames agree**: in every context, a `let` with the bindings of two lists is the `let` with
those of the first around the `let` with those of the second: it ends in the same way and leaves the
same context. And a call of a declared function whose arguments have values other than `nil` is, in
the context that the arguments leave, the `let` that binds the parameters to these values around the
body. The call is one that is open while the body is evaluated. -/
theorem evalUpTo_frames (n : Nat) :
    (∀ (bs bs' : List (Binding Expr)) (body : Expr) (line line' line'' : Nat) (c : Context),
      ((letIn (bs ++ bs') body line).evalUpTo n).run c =
        ((letIn bs (letIn bs' body line') line'').evalUpTo n).run c) ∧
    ∀ (name : String) (args : List Expr) (line : Nat) (f : Function) (c c' : Context)
      (vs : List Value),
      Builtin.isBuiltin name args.length = false →
      c.functions.find? name args.length = some f →
      (evalList (evalUpTo n) args).run c = (.value vs, c') →
      (∀ v ∈ vs, v ≠ .nil) →
      ∃ literals : List Literal,
        literals.map Literal.value = vs ∧ literals.length = f.params.length ∧
        ∀ line' line'' : Nat,
          ((call name args line).evalUpTo (n + 1)).run c =
            ((letIn (literalBindings f.params literals line') f.body line'').evalUpTo n).run
              c' := by
  constructor
  · intro bs bs' body line line' line'' c
    rw [evalUpTo_letIn, evalUpTo_letIn, evalUpTo_letIn, evalLet_append]
  · intro name args line f c c' vs hbuiltin hf hargs hvs
    obtain ⟨literals, hliterals⟩ := Value.exists_literals hvs
    obtain ⟨hlength, hrun⟩ := Context.run_call line hbuiltin hf hargs
    refine ⟨literals, hliterals, ?_, fun line' line'' => ?_⟩
    · rw [← hlength, ← hliterals, List.length_map]
    · rw [hrun, evalUpTo_letIn, evalLet_literalBindings, hliterals]

/-- The function has the same parameter twice, of which the body sees the second. -/
theorem evalUpTo_frames_repeated :
    let f : Function := ⟨"f", ["x", "x"], unary .not (var "x" 1) 1, 1⟩
    let tree := call "f" [literal (.bool true) 2, literal (.quoted "a") 2] 2
    let c : Context := { functions := [f] }
    ∃ literals : List Literal,
      literals.map Literal.value = [.bool true, .text "a"] ∧
      (tree.evalUpTo 1).run c = (.error ⟨.expectedBool, "a", 1⟩, c) ∧
      ((letIn (literalBindings f.params literals 3) f.body 3).evalUpTo 0).run c =
        (.error ⟨.expectedBool, "a", 1⟩, c) := by
  intro f tree c
  have hargs : (evalList (evalUpTo 0) [literal (.bool true) 2, literal (.quoted "a") 2]).run c =
      (.value [.bool true, .text "a"], c) := rfl
  have hrun : (tree.evalUpTo 1).run c = (.error ⟨.expectedBool, "a", 1⟩, c) := rfl
  obtain ⟨literals, hvalues, -, hlet⟩ :=
    (evalUpTo_frames 0).2 "f" _ 2 f c c _ rfl rfl hargs (by simp)
  exact ⟨literals, hvalues, hrun, (hlet 3 3).symm.trans hrun⟩

end Expr

end LetLang
