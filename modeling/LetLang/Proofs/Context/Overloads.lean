import LetLang.Proofs.Context
import Mathlib.Data.List.Sort

/-!
# Overloads

The functions of one name differ in their arity. `FunctionTable.arities` lists the arities in
strictly ascending order (`pairwise_arities`), and an arity is listed exactly if there is a function
with it (`mem_arities_iff`), so a name stands for a function exactly if the list is not empty
(`isFunction_iff`). These hold of every table, so all that can be asked of a table depends on which
function is found under which name and arity (`SameLookups`). In a table that has grown from the
empty one by declarations each function is found under its own name and arity, so that no function
hides another (`Grows.find?_of_mem`), and none of them has the name and arity of a built-in function
(`Grows.isBuiltin_of_mem`).
-/

namespace LetLang

/-! ### Ascending lists -/

theorem mem_insertAscending {n m : Nat} {ns : List Nat} :
    m ∈ insertAscending n ns ↔ m = n ∨ m ∈ ns := by
  induction ns with
  | nil => simp [insertAscending]
  | cons k ns ih =>
    rw [insertAscending]
    by_cases hlt : n < k
    · rw [if_pos hlt, List.mem_cons]
    · rw [if_neg hlt]
      by_cases heq : n = k
      · rw [if_pos heq, heq, List.mem_cons]
        tauto
      · rw [if_neg heq, List.mem_cons, ih, List.mem_cons]
        tauto

theorem pairwise_insertAscending (n : Nat) {ns : List Nat} (h : ns.Pairwise (· < ·)) :
    (insertAscending n ns).Pairwise (· < ·) := by
  induction ns with
  | nil => exact List.pairwise_singleton _ n
  | cons k ns ih =>
    have hk : ∀ m ∈ ns, k < m := (List.pairwise_cons.mp h).1
    rw [insertAscending]
    by_cases hlt : n < k
    · rw [if_pos hlt]
      apply List.pairwise_cons.mpr
      refine ⟨fun m hm => ?_, h⟩
      obtain rfl | hm := List.mem_cons.mp hm
      · exact hlt
      · exact Nat.lt_trans hlt (hk m hm)
    · rw [if_neg hlt]
      by_cases heq : n = k
      · rw [if_pos heq]
        exact h
      · rw [if_neg heq]
        apply List.pairwise_cons.mpr
        refine ⟨fun m hm => ?_, ih (List.pairwise_cons.mp h).2⟩
        obtain rfl | hm := mem_insertAscending.mp hm
        · omega
        · exact hk m hm

namespace FunctionTable

/-! ### Arities -/

/-- The arities of a name are in strictly ascending order. -/
theorem pairwise_arities (table : FunctionTable) (name : String) :
    (table.arities name).Pairwise (· < ·) := by
  unfold arities
  induction table.filter (·.name = name) with
  | nil => exact List.Pairwise.nil
  | cons f fs ih => exact pairwise_insertAscending f.arity ih

theorem mem_arities {table : FunctionTable} {name : String} {k : Nat} :
    k ∈ table.arities name ↔ ∃ f ∈ table, f.name = name ∧ f.arity = k := by
  have hfold : ∀ fs : List Function,
      k ∈ fs.foldr (fun f => insertAscending f.arity) [] ↔ ∃ f ∈ fs, f.arity = k := by
    intro fs
    induction fs with
    | nil => simp
    | cons f fs ih =>
      rw [List.foldr_cons, mem_insertAscending, ih, List.exists_mem_cons_iff, eq_comm]
  rw [arities, hfold]
  simp only [List.mem_filter, decide_eq_true_eq, and_assoc]

theorem find?_eq_none {table : FunctionTable} {name : String} {k : Nat} :
    table.find? name k = none ↔ ∀ f ∈ table, ¬ (f.name = name ∧ f.arity = k) := by
  unfold find?
  rw [List.find?_eq_none]
  simp only [decide_eq_true_eq]

/-- What is found under a name and an arity has them. -/
theorem find?_eq_some {table : FunctionTable} {name : String} {k : Nat} {f : Function}
    (h : table.find? name k = some f) : f ∈ table ∧ f.name = name ∧ f.arity = k := by
  have hfound := List.find?_some h
  exact ⟨List.mem_of_find?_eq_some h, of_decide_eq_true hfound⟩

theorem hasOverload_iff {table : FunctionTable} {name : String} {k : Nat} :
    table.hasOverload name k = true ↔ ∃ f ∈ table, f.name = name ∧ f.arity = k := by
  unfold hasOverload
  rw [Option.isSome_iff_ne_none, ne_eq, find?_eq_none]
  push Not
  rfl

/-- The arities of a name are those with an overload. -/
theorem mem_arities_iff {table : FunctionTable} {name : String} {k : Nat} :
    k ∈ table.arities name ↔ table.hasOverload name k = true := by
  rw [mem_arities, hasOverload_iff]

/-- A name stands for a function exactly if it has an arity. -/
theorem isFunction_iff {table : FunctionTable} {name : String} :
    table.isFunction name = true ↔ table.arities name ≠ [] := by
  unfold isFunction
  rw [List.any_eq_true]
  constructor
  · rintro ⟨f, hf, hname⟩
    have hmem : f.arity ∈ table.arities name :=
      mem_arities.mpr ⟨f, hf, of_decide_eq_true hname, rfl⟩
    exact List.ne_nil_of_mem hmem
  · intro hne
    obtain ⟨k, hk⟩ := List.exists_mem_of_ne_nil _ hne
    obtain ⟨f, hf, hname, -⟩ := mem_arities.mp hk
    exact ⟨f, hf, decide_eq_true hname⟩

/-! ### Tables with the same functions -/

/-- Every name and arity stand for the same function in both tables, or for none in either. -/
def SameLookups (F F' : FunctionTable) : Prop :=
  ∀ name arity, F.find? name arity = F'.find? name arity

namespace SameLookups

variable {F F' : FunctionTable}

theorem hasOverload_eq (h : F.SameLookups F') (name : String) (k : Nat) :
    F.hasOverload name k = F'.hasOverload name k := by
  unfold hasOverload
  rw [h]

/-- The arities are listed in the same order, because the order is ascending. -/
theorem arities_eq (h : F.SameLookups F') (name : String) : F.arities name = F'.arities name := by
  refine (pairwise_arities F name).eq_of_mem_iff (pairwise_arities F' name) fun k => ?_
  rw [mem_arities_iff, mem_arities_iff, h.hasOverload_eq]

theorem isFunction_eq (h : F.SameLookups F') (name : String) :
    F.isFunction name = F'.isFunction name := by
  rw [Bool.eq_iff_iff, isFunction_iff, isFunction_iff, h.arities_eq]

end SameLookups

/-- Functions that differ in name or arity are found in whichever order they were declared. -/
theorem sameLookups_swap {f g : Function} (h : ¬ (f.name = g.name ∧ f.arity = g.arity))
    (table : FunctionTable) : SameLookups (f :: g :: table) (g :: f :: table) := by
  intro name arity
  simp only [find?_cons]
  by_cases hf : f.name = name ∧ f.arity = arity
  · have hg : ¬ (g.name = name ∧ g.arity = arity) := fun hg =>
      h ⟨hf.1.trans hg.1.symm, hf.2.trans hg.2.symm⟩
    rw [if_pos hf, if_neg hg, if_pos hf]
  · rw [if_neg hf, if_neg hf]

/-! ### Tables that grow from nothing -/

namespace Grows

variable {table : FunctionTable} {f : Function}

/-- Each function of the table is found under its own name and arity. -/
theorem find?_of_mem (h : Grows [] table) (hf : f ∈ table) :
    table.find? f.name f.arity = some f := by
  induction h with
  | refl => cases hf
  | @declare table g grown _ isFree ih =>
    rw [find?_cons]
    obtain rfl | hf := List.mem_cons.mp hf
    · rw [if_pos ⟨rfl, rfl⟩]
    · -- `g` was declared where nothing was found, and `f` was found already
      rw [if_neg, ih hf]
      rintro ⟨hname, harity⟩
      have hfree : table.find? g.name g.arity = none := by
        rwa [hasOverload, Option.isSome_eq_false_iff, Option.isNone_iff_eq_none] at isFree
      rw [hname, harity, ih hf] at hfree
      cases hfree

/-- No function of the table has the name and arity of a built-in one. -/
theorem isBuiltin_of_mem (h : Grows [] table) (hf : f ∈ table) :
    Builtin.isBuiltin f.name f.arity = false := by
  induction h with
  | refl => cases hf
  | declare grown notBuiltin isFree ih =>
    obtain rfl | hf := List.mem_cons.mp hf
    · exact notBuiltin
    · exact ih hf

end Grows

end FunctionTable

end LetLang
