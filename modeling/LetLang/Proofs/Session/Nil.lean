import LetLang.Proofs.Eval.Nil
import LetLang.Proofs.Line.Written
import LetLang.Proofs.Session

/-!
# `nil` in a session

A session answers `nil` to a line exactly if the line is a declaration that it accepts. Nothing else
that a session evaluates has the value `nil`, and neither a variable, a parameter nor an argument is
ever `nil`.
-/

namespace LetLang

/-! ### Declarations -/

namespace Evaluation

variable {E E' : Evaluation}

theorem Starts.isFunction_eq_false (h : E.Starts E') : E.tree.isFunction = false := by
  cases h <;> rfl

/-- Nothing is evaluated inside a declaration. -/
theorem Includes.eq_of_isFunction (h : E.Includes E') (hE : E.tree.isFunction = true) : E' = E := by
  obtain heq | ⟨E₁, hstarts, -⟩ := Relation.ReflTransGen.cases_head h
  · exact heq.symm
  · rw [hstarts.isFunction_eq_false] at hE
    cases hE

end Evaluation

namespace Expr

/-- A declaration has the value `nil`, if the context accepts it. -/
theorem run_evalUpTo_function_eq_value {depth : Nat} {name : String} {params : List String}
    {body : Expr} {line : Nat} {c : Context} {v : Value} :
    (∃ c', ((function name params body line).evalUpTo depth).run c = (.value v, c')) ↔
      v = .nil ∧ ∃ c', c.declare ⟨name, params, body, line⟩ = .ok c' := by
  rw [evalUpTo_eq, evalWith, Eval.run_bind]
  dsimp only [Eval.declare, Eval.run]
  cases c.declare ⟨name, params, body, line⟩ with
  | ok c₁ =>
    constructor
    · rintro ⟨c', hrun⟩
      cases hrun
      exact ⟨rfl, c₁, rfl⟩
    · rintro ⟨rfl, -⟩
      exact ⟨c₁, rfl⟩
  | error e =>
    constructor
    · rintro ⟨c', hrun⟩
      cases hrun
    · rintro ⟨-, c', hdeclare⟩
      cases hdeclare

end Expr

namespace Line

theorem declaration?_eq_some {source : String} {line : Nat} {f : Function} :
    declaration? source line = some f ↔
      parse source line = .ok (.function f.name f.params f.body f.line) := by
  unfold declaration?
  constructor
  · intro h
    rcases hparse : parse source line with e | tree
    · rw [hparse] at h
      cases h
    · rw [hparse] at h
      cases tree <;> cases h
      rfl
  · intro h
    rw [h]

/-- The tree of a line is a declaration, or there is none in it. -/
theorem isFunction_or_functionFree {source : String} {line : Nat} {tree : Expr}
    (h : parse source line = .ok tree) : tree.isFunction = true ∨ tree.FunctionFree := by
  have hparts := isFunction_of_mem_parts h
  cases tree with
  | function name params body n => exact .inl rfl
  | _ => exact .inr hparts

end Line

/-! ### The answers of a session -/

namespace Session

/-- The value of a line is that of its tree. -/
theorem run_eq_some {depth : Nat} {s : Session} {source : String} {line : Nat} {v : Value} :
    (s.run depth source line).1 = some v ↔
      ∃ tree c', Line.parse source line = .ok tree ∧
        Evaluation.run ⟨depth, tree, s.context⟩ = (.value v, c') := by
  unfold run
  rw [parse_eq]
  cases Line.parse source line with
  | error f =>
    constructor
    · intro hnone
      cases hnone
    · rintro ⟨tree, c', hparse, -⟩
      cases hparse
  | ok tree =>
    dsimp only [evalTree, Evaluation.run]
    constructor
    · intro hvalue
      rcases hrun : (tree.evalUpTo depth).run s.context with ⟨w | e | _, c'⟩
      · rw [hrun] at hvalue
        cases hvalue
        exact ⟨tree, c', rfl, hrun⟩
      · rw [hrun] at hvalue
        cases hvalue
      · rw [hrun] at hvalue
        cases hvalue
    · rintro ⟨tree', c', ⟨⟩, hrun⟩
      rw [hrun]

/-- No variable is left from earlier lines, and the bodies of functions declare nothing. -/
theorem clean_runFresh (depth : Nat) (sink : Sink) (random : RandomSource)
    (lines : List (String × Nat)) : (runFresh depth sink random lines).2.context.Clean where
  vars := by
    rw [(context_runFresh depth sink random lines).1]
    exact List.forall_mem_nil _
  bodies := allBodies_runFresh depth sink random fun l _ => Line.allParts_functionFree l.1 l.2

/-- Where the context is clean, `nil` is the answer to accepted declarations and to no other line.
-/
theorem run_eq_some_nil {depth : Nat} {s : Session} (hs : s.context.Clean) {source : String}
    {line : Nat} :
    (s.run depth source line).1 = some .nil ↔
      ∃ f c', Line.declaration? source line = some f ∧ s.context.declare f = .ok c' := by
  rw [run_eq_some]
  constructor
  · rintro ⟨tree, c', hparse, hrun⟩
    obtain hfunction | hfree := Line.isFunction_or_functionFree hparse
    · cases tree with
      | function name params body n =>
        obtain ⟨-, c₁, hdeclare⟩ := Expr.run_evalUpTo_function_eq_value.mp ⟨c', hrun⟩
        exact ⟨⟨name, params, body, n⟩, c₁, Line.declaration?_eq_some.mpr hparse, hdeclare⟩
      | _ => cases hfunction
    · exact absurd rfl (Evaluation.Clean.ne_nil ⟨hfree, hs⟩ hrun)
  · rintro ⟨f, c₁, hdeclaration, hdeclare⟩
    have hparse := Line.declaration?_eq_some.mp hdeclaration
    obtain ⟨c', hrun⟩ := Expr.run_evalUpTo_function_eq_value.mpr ⟨rfl, c₁, hdeclare⟩
    exact ⟨_, c', hparse, hrun⟩

/-- **`nil` comes only from declarations.** Whatever lines a session has run, the answer to the next
one is `nil` exactly if it declares a function that the context accepts. Of all that is evaluated
inside the line (`Evaluation.runRoot_eq_run` says that nothing is missing), only such a declaration
has the value `nil`; no variable or parameter is `nil` in the contexts of these evaluations; and no
call, of `print` or any other function, has an argument that is `nil`. -/
theorem nil_only_from_declarations (depth : Nat) (sink : Sink) (random : RandomSource)
    (lines : List (String × Nat)) (source : String) (line : Nat) :
    let s := (runFresh depth sink random lines).2
    ((s.run depth source line).1 = some .nil ↔
      ∃ f c', Line.declaration? source line = some f ∧ s.context.declare f = .ok c') ∧
    ∀ tree, Line.parse source line = .ok tree →
      ∀ E, Evaluation.Includes ⟨depth, tree, s.context⟩ E →
        (∀ c', E.run = (.value .nil, c') →
          E = ⟨depth, tree, s.context⟩ ∧ tree.isFunction = true) ∧
        (∀ d ∈ E.context.vars, d.2 ≠ .nil) ∧
        ∀ name args n, E.tree = .call name args n →
          ∀ vs c', (Expr.evalList (Expr.enterUpTo E.depth) args).run E.context = (.value vs, c') →
            .nil ∉ vs := by
  intro s
  have hs : s.context.Clean := clean_runFresh depth sink random lines
  refine ⟨run_eq_some_nil hs, fun tree hparse E hE => ?_⟩
  obtain hfunction | hfree := Line.isFunction_or_functionFree hparse
  · -- a declaration is evaluated as a whole
    obtain rfl := hE.eq_of_isFunction hfunction
    refine ⟨fun _ _ => ⟨rfl, hfunction⟩, hs.vars, fun name args n htree => ?_⟩
    rw [show tree = .call name args n from htree] at hfunction
    cases hfunction
  · have hclean : E.Clean := hE.clean ⟨hfree, hs⟩
    refine ⟨fun c' hrun => absurd rfl (hclean.ne_nil hrun), hclean.context.vars, ?_⟩
    exact fun name args n htree vs c' hrun => hclean.nil_not_mem htree hrun

/-- The declaration of `f(a)` as `a` is answered with `nil`, and where `f(true)` evaluates the body
of `f`, the parameter is not `nil`. -/
theorem nil_only_from_identity :
    let source := "function f ( a ) => a ;"
    let s := (runFresh 1 .working (.ofSeed 0) [(source, 1)]).2
    ((runFresh 1 .working (.ofSeed 0) []).2.run 1 source 1).1 = some .nil ∧
    Line.parse "f ( true ) ;" 2 = .ok (.call "f" [.literal (.bool true) 2] 2) ∧
    ∃ c, Evaluation.Includes ⟨1, .call "f" [.literal (.bool true) 2] 2, s.context⟩
        ⟨0, .var "a" 1, c⟩ ∧
      c.vars = [("a", .bool true)] ∧ ∀ d ∈ c.vars, d.2 ≠ .nil := by
  intro source s
  have hf : Token.IsName "f" := Token.isName_of_all rfl rfl rfl
  have ha : Token.IsName "a" := Token.isName_of_all rfl rfl rfl
  have hparse : Line.parse source 1 = .ok (.function "f" ["a"] (.var "a" 1) 1) := by
    have hsource : (Expr.function "f" ["a"] (.var "a" 1) 1).source 1 = source := by decide +kernel
    have h : (Expr.function "f" ["a"] (.var "a" 1) 1).WellFormed Literal.Writable :=
      ⟨hf, by simp [ha], by simp, by simp [ha]⟩
    rw [← hsource]
    exact Line.parse_source_of_oneLine h (by simp [Expr.subtrees]) 1 1
  have hcall : Line.parse "f ( true ) ;" 2 = .ok (.call "f" [.literal (.bool true) 2] 2) := by
    have hsource : (Expr.call "f" [.literal (.bool true) 2] 2).source 1 = "f ( true ) ;" := by
      decide +kernel
    have h : (Expr.call "f" [.literal (.bool true) 2] 2).WellFormed Literal.Writable := by
      simp [Expr.WellFormed, hf, Literal.Writable]
    rw [← hsource]
    exact Line.parse_source_of_oneLine h (by simp [Expr.subtrees, Expr.listSubtrees]) 1 2
  have hdeclaration : Line.declaration? source 1 = some ⟨"f", ["a"], .var "a" 1, 1⟩ :=
    Line.declaration?_eq_some.mpr hparse
  obtain ⟨hvars, hfunctions⟩ := context_runFresh 1 .working (.ofSeed 0) [(source, 1)]
  have htable : s.context.functions = [⟨"f", ["a"], .var "a" 1, 1⟩] := by
    rw [hfunctions, tableAfter, List.foldl_cons, Line.table, hdeclaration]
    rfl
  have hincludes : Evaluation.Includes ⟨1, .call "f" [.literal (.bool true) 2] 2, s.context⟩
      ⟨0, .var "a" 1, s.context.defineAll [("a", .bool true)]⟩ := by
    have hfind : s.context.functions.find? "f" 1 = some ⟨"f", ["a"], .var "a" 1, 1⟩ := by
      rw [htable]
      rfl
    have hargs : (Expr.evalList (Expr.enterUpTo 1) [.literal (.bool true) 2]).run s.context =
        (.value [.bool true], s.context) := by
      simp only [Expr.evalList, Expr.evalWith]
      rfl
    have hstarts := @Evaluation.Starts.enter 0 2 "f" _ _ _ _ _ rfl hfind hargs
    exact .single hstarts
  refine ⟨?_, hcall, _, hincludes, ?_, ?_⟩
  · exact (nil_only_from_declarations 1 .working (.ofSeed 0) [] source 1).1.mpr
      ⟨_, _, hdeclaration, rfl⟩
  · show ("a", .bool true) :: s.context.vars = _
    rw [hvars]
  · exact ((nil_only_from_declarations 1 .working (.ofSeed 0) [(source, 1)] "f ( true ) ;" 2).2
      _ hcall _ hincludes).2.1

end Session

end LetLang
