import LetLang.Proofs.Context.Overloads
import LetLang.Proofs.Eval.Refinement
import LetLang.Proofs.Eval.Uniform
import Mathlib.Data.Finset.Card
import Mathlib.Logic.Relation

/-!
# Evaluation without recursive functions

A call jumps to a body that is no part of the tree, so evaluation need not end. It does end if no
function can call itself, directly or through others (`Expr.evalUpTo_terminates`). Then the calls
that are open at the same time are all of different functions, and there cannot be more of them than
there are declared functions.

The proof keeps the set of overloads that are open. All of them lead to the calls in the tree that
is being evaluated, so that none of these calls is of an open overload. Entering a body adds to the
set, and when it holds every declared overload the tree has no more calls to make.
-/

namespace LetLang

/-! ### Which functions call which -/

/-- A name and a number of arguments. -/
abbrev Overload : Type := String × Nat

namespace FunctionTable

/-- The overload is declared, and the tree has a call of it. -/
def CalledIn (F : FunctionTable) (e : Expr) (o : Overload) : Prop :=
  F.hasOverload o.1 o.2 = true ∧ ∃ args line, .call o.1 args line ∈ e.subtrees ∧ args.length = o.2

/-- The body of the overload `o` has a call of the declared overload `p`. -/
def Calls (F : FunctionTable) (o p : Overload) : Prop :=
  ∃ f, F.find? o.1 o.2 = some f ∧ F.CalledIn f.body p

/-- The calls of the tree lead to the overload, through bodies of other ones if need be. -/
def Reaches (F : FunctionTable) (e : Expr) (o : Overload) : Prop :=
  ∃ p, F.CalledIn e p ∧ Relation.ReflTransGen F.Calls p o

/-- The declared overloads. -/
def overloads (F : FunctionTable) : Finset Overload :=
  (F.map fun f => (f.name, f.arity)).toFinset

theorem card_overloads_le (F : FunctionTable) : F.overloads.card ≤ F.length := by
  have hcard : F.overloads.card ≤ (F.map fun f => (f.name, f.arity)).length :=
    List.toFinset_card_le _
  rwa [List.length_map] at hcard

theorem mem_overloads_of_find? {F : FunctionTable} {name : String} {count : Nat} {f : Function}
    (h : F.find? name count = some f) : (name, count) ∈ F.overloads := by
  obtain ⟨hf, rfl, rfl⟩ := find?_eq_some h
  exact List.mem_toFinset.mpr (List.mem_map_of_mem hf)

theorem Reaches.calls {F : FunctionTable} {e : Expr} {o p : Overload} (h : F.Reaches e o)
    (hcalls : F.Calls o p) : F.Reaches e p := by
  obtain ⟨first, hfirst, hpath⟩ := h
  exact ⟨first, hfirst, hpath.tail hcalls⟩

end FunctionTable

/-! ### Open calls -/

namespace Expr

/-- The calls of the tree `e`, which is evaluated as part of `tree` while the overloads of `opened`
are open, are ones that `tree` reaches and that all the open ones lead to. -/
structure Within (F : FunctionTable) (tree : Expr) (opened : Finset Overload) (e : Expr) :
    Prop where
  subset : opened ⊆ F.overloads
  reaches {o : Overload} : F.CalledIn e o → F.Reaches tree o
  leads {o p : Overload} : p ∈ opened → F.CalledIn e o → Relation.TransGen F.Calls p o

theorem within_self (F : FunctionTable) (tree : Expr) : Within F tree ∅ tree where
  subset := Finset.empty_subset _
  reaches h := ⟨_, h, .refl⟩
  leads hp := absurd hp (Finset.notMem_empty _)

section

variable {F : FunctionTable} {tree e : Expr} {opened : Finset Overload} {o : Overload}
  {f : Function}

/-- An overload that is called is not open, or else it would lead to itself. -/
theorem Within.notMem (h : Within F tree opened e)
    (hacyclic : ∀ o, F.Reaches tree o → ¬ Relation.TransGen F.Calls o o) (ho : F.CalledIn e o) :
    o ∉ opened :=
  fun hmem => hacyclic o (h.reaches ho) (h.leads hmem ho)

/-- The body that a call enters is evaluated with one more overload open. -/
theorem Within.enter (h : Within F tree opened e) (ho : F.CalledIn e o)
    (hf : F.find? o.1 o.2 = some f) : Within F tree (insert o opened) f.body := by
  have hcalls {p : Overload} (hp : F.CalledIn f.body p) : F.Calls o p := ⟨f, hf, hp⟩
  constructor
  · apply Finset.insert_subset _ h.subset
    exact FunctionTable.mem_overloads_of_find? hf
  · intro p hp
    exact (h.reaches ho).calls (hcalls hp)
  · intro p q hq hp
    obtain rfl | hq := Finset.mem_insert.mp hq
    · exact .single (hcalls hp)
    · exact (h.leads hq ho).tail (hcalls hp)

/-- As long as an overload can be called, some declared overload is not open. -/
theorem Within.card_lt (h : Within F tree opened e)
    (hacyclic : ∀ o, F.Reaches tree o → ¬ Relation.TransGen F.Calls o o) (ho : F.CalledIn e o)
    (hf : F.find? o.1 o.2 = some f) : opened.card < F.overloads.card := by
  have hcard : (insert o opened).card = opened.card + 1 :=
    Finset.card_insert_of_notMem (h.notMem hacyclic ho)
  have hle : (insert o opened).card ≤ F.overloads.card :=
    Finset.card_le_card (h.enter ho hf).subset
  omega

end

/-! ### Evaluations that end -/

/-- Both evaluations, among the functions `F`, end with the same value or the same error. -/
def Settles (F : FunctionTable) (m m' : PureEval Value) : Prop :=
  PureEval.Matches False (· = F) Eq Eq m m'

variable {F : FunctionTable} {tree : Expr}

theorem Settles.run_eq {m m' : PureEval Value} (h : Settles F m m') (r : RandomSource) :
    m.run ⟨F, r⟩ = m'.run ⟨F, r⟩ ∧
      ((∃ v, (m.run ⟨F, r⟩).outcome = .value v) ∨ ∃ e, (m.run ⟨F, r⟩).outcome = .error e) := by
  obtain ⟨outcome, outcome', printed, F', q, q', houtcome, rfl, rfl, hrun, hrun'⟩ :=
    h F r r rfl rfl
  rw [hrun, hrun']
  cases houtcome with
  | value h =>
    subst h
    exact ⟨rfl, .inl ⟨_, rfl⟩⟩
  | error e => exact ⟨rfl, .inr ⟨e, rfl⟩⟩
  | tooDeep h => exact h.elim

/-- A tree without declarations settles, if the bodies that its calls enter do. -/
theorem settles_evalInWith {e : Expr} (he : e.FunctionFree)
    {enter enter' : Expr → Env → PureEval Value}
    (henter : ∀ o g, F.CalledIn e o → F.find? o.1 o.2 = some g →
      ∀ ρ, Settles F (enter g.body ρ) (enter' g.body ρ)) (ρ : Env) :
    Settles F (evalInWith enter e ρ) (evalInWith enter' e ρ) := by
  -- the nodes are those of the tree, and the functions those that its calls find
  have hsteps : PureEval.RelatedBySteps (PureEval.Matches False (· = F) Eq) Eq
      (fun s => s ∈ e.subtrees ∧ s.isFunction = false)
      (fun g => ∃ o, F.CalledIn e o ∧ F.find? o.1 o.2 = some g) enter enter' := by
    refine PureEval.Matches.relatedBySteps (fun _ hρ => congrFun hρ _)
      (fun name v hρ => congrArg (·.bind name v) hρ) ?_ (fun _ _ => RandomSource.drawAlike_eq) ?_ ?_
    · intro name params body line F' hfunction
      cases (forall_mem_subtrees_function.mp hfunction).1.2
    · rintro name args line _ g ⟨hcall, -⟩ rfl hg
      refine ⟨(name, args.length), ⟨?_, args, line, hcall, rfl⟩, hg⟩
      rw [FunctionTable.hasOverload, hg]
      rfl
    · rintro g ρ _ ⟨o, ho, hg⟩ rfl
      exact henter o g ho hg ρ
  exact evalInWith_related hsteps e ρ ρ (fun s hs => ⟨hs, he s hs⟩) rfl

/-- With as many calls allowed as there are overloads that are not open, a tree settles. -/
theorem settles_evalIn (hacyclic : ∀ o, F.Reaches tree o → ¬ Relation.TransGen F.Calls o o)
    (hF : F.AllBodies fun e => e.isFunction = false) {n n' : Nat} {opened : Finset Overload}
    {e : Expr} (h : Within F tree opened e) (he : e.FunctionFree)
    (hn : F.overloads.card ≤ n + opened.card) (hn' : F.overloads.card ≤ n' + opened.card)
    (ρ : Env) : Settles F (evalIn n e ρ) (evalIn n' e ρ) := by
  induction n generalizing n' opened e ρ with
  | zero =>
    rw [evalIn_eq, evalIn_eq]
    refine settles_evalInWith he (fun o g ho hg => ?_) ρ
    have hlt := h.card_lt hacyclic ho hg
    omega
  | succ n ih =>
    rw [evalIn_eq, evalIn_eq]
    refine settles_evalInWith he (fun o g ho hg ρ => ?_) ρ
    have hlt := h.card_lt hacyclic ho hg
    have hcard : (insert o opened).card = opened.card + 1 :=
      Finset.card_insert_of_notMem (h.notMem hacyclic ho)
    obtain ⟨k, rfl⟩ : ∃ k, n' = k + 1 := ⟨n' - 1, by omega⟩
    have hfree : g.body.FunctionFree := hF g (List.mem_of_find?_eq_some hg)
    exact ih (h.enter ho hg) hfree (by omega) (by omega) ρ

/-- **Termination**: let neither the tree nor the bodies of the declared functions declare anything,
and let no overload that the calls of the tree lead to lead to itself. Then evaluation ends with a
value or an error, and it never has more calls open than there are declared functions: with any
number from that on it ends in the same way and leaves the same context. -/
theorem evalUpTo_terminates {tree : Expr} {c : Context} (htree : tree.FunctionFree)
    (hbodies : c.functions.AllBodies fun e => e.isFunction = false)
    (hacyclic : ∀ o, c.functions.Reaches tree o → ¬ Relation.TransGen c.functions.Calls o o) :
    ∃ outcome c', ((∃ v, outcome = .value v) ∨ ∃ e, outcome = .error e) ∧
      ∀ n, c.functions.length ≤ n → (tree.evalUpTo n).run c = (outcome, c') := by
  have hcard := c.functions.card_overloads_le
  have hsettles (n : Nat) (hn : c.functions.length ≤ n) :
      Settles c.functions (evalIn n tree c.visible)
        (evalIn c.functions.length tree c.visible) := by
    refine settles_evalIn hacyclic hbodies (within_self c.functions tree) htree ?_ ?_ c.visible
    · exact Nat.le_trans hcard hn
    · exact hcard
  have hends := ((hsettles _ (Nat.le_refl _)).run_eq c.random).2
  refine ⟨_, c.after ((evalIn c.functions.length tree c.visible).run c.world), hends, ?_⟩
  intro n hn
  have hrun : (evalIn n tree c.visible).run c.world =
      (evalIn c.functions.length tree c.visible).run c.world :=
    ((hsettles n hn).run_eq c.random).1
  rw [evalUpTo_refines_evalIn n tree c, hrun]
  rfl

/-- One overload of `f` calls itself, and the other one calls `g` twice. Calls of the latter end. -/
theorem evalUpTo_terminates_beside_recursion :
    let again : Function := ⟨"f", [], call "f" [] 1, 1⟩
    let f : Function := ⟨"f", ["x"], call "g" [call "g" [var "x" 2] 2] 2, 2⟩
    let g : Function := ⟨"g", ["x"], unary .not (var "x" 3) 3, 3⟩
    let c : Context := { functions := [again, f, g] }
    let tree := call "f" [literal (.bool true) 4] 4
    c.functions.Calls ("f", 0) ("f", 0) ∧
    (∀ o, c.functions.Reaches tree o → ¬ Relation.TransGen c.functions.Calls o o) ∧
    ∃ c', ∀ n, 3 ≤ n → (tree.evalUpTo n).run c = (.value (.bool true), c') := by
  intro again f g c tree
  have htree {o : Overload} (h : c.functions.CalledIn tree o) : o = ("f", 1) := by
    obtain ⟨-, args, line, hmem, hlength⟩ := h
    simp [tree, subtrees, listSubtrees] at hmem
    obtain ⟨hname, rfl, -⟩ := hmem
    exact Prod.ext hname hlength.symm
  have hf {o : Overload} (h : c.functions.Calls ("f", 1) o) : o = ("g", 1) := by
    obtain ⟨_, ⟨rfl⟩, -, args, line, hmem, hlength⟩ := h
    simp [f, subtrees, listSubtrees] at hmem
    obtain ⟨hname, rfl, -⟩ | ⟨hname, rfl, -⟩ := hmem <;> exact Prod.ext hname hlength.symm
  have hg {o : Overload} (h : c.functions.Calls ("g", 1) o) : False := by
    obtain ⟨_, ⟨rfl⟩, -, args, line, hmem, -⟩ := h
    simp [g, subtrees] at hmem
  have hacyclic (o : Overload) (h : c.functions.Reaches tree o) :
      ¬ Relation.TransGen c.functions.Calls o o := by
    obtain ⟨start, hstart, hpath⟩ := h
    obtain rfl := htree hstart
    intro hcycle
    obtain ⟨next, hnext, hback⟩ := Relation.TransGen.head'_iff.mp hcycle
    obtain rfl | ⟨_, hfirst, hrest⟩ := hpath.cases_head
    · obtain rfl := hf hnext
      obtain heq | ⟨_, hcall, -⟩ := hback.cases_head
      · exact absurd heq (by decide)
      · exact hg hcall
    · obtain rfl := hf hfirst
      obtain rfl | ⟨_, hcall, -⟩ := hrest.cases_head
      · exact hg hnext
      · exact hg hcall
  have hagain : c.functions.Calls ("f", 0) ("f", 0) :=
    ⟨again, rfl, rfl, [], 1, List.mem_cons_self, rfl⟩
  have hfree : tree.FunctionFree := by
    simp [tree, FunctionFree, subtrees, listSubtrees, isFunction]
  have hbodies : c.functions.AllBodies fun e => e.isFunction = false := by
    simp [FunctionTable.AllBodies, c, again, f, g, subtrees, listSubtrees, isFunction]
  obtain ⟨outcome, c', -, hrun⟩ := evalUpTo_terminates hfree hbodies hacyclic
  have hthree : (tree.evalUpTo 3).run c = (.value (.bool true), c) := rfl
  obtain ⟨rfl, rfl⟩ := Prod.mk.inj ((hrun 3 (Nat.le_refl 3)).symm.trans hthree)
  exact ⟨hagain, hacyclic, c, hrun⟩

end Expr

end LetLang
