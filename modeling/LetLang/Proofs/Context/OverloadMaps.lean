import LetLang.Proofs.Context.Overloads

/-!
# Functions as overloads under names

Another way to keep functions: under each name that is stored there is a map from arities to
functions, ordered by arity. A declaration whose name and arity are free stores its function under
them, and a name that is not stored gets a map with its first function. Nothing in such maps makes a
function have the name and the arity that it is stored under, or an inner map have an entry; both
are kept by declarations (`Overloads.WellFormed.declare`).

The functions of a table, stored one after the other, give such maps (`FunctionTable.toOverloads`).
A declaration does the same to the table as to the maps (`FunctionTable.toOverloads_declare`), and
whatever is asked of the table is answered by the maps (`FunctionTable.find?_eq_overloads`,
`FunctionTable.hasOverload_eq_overloads`, `FunctionTable.isFunction_eq_overloads`,
`FunctionTable.arities_eq_overloads`).
-/

namespace LetLang

/-! ### Maps from arities -/

/-- Functions under arities, the smallest arity first. -/
abbrev ArityMap : Type := List (Nat × Function)

namespace ArityMap

/-- The function that is stored under an arity. -/
def get? (k : Nat) : ArityMap → Option Function
  | [] => none
  | (m, f) :: entries => if k = m then some f else get? k entries

/-- Stores a function under an arity, in the place of one that is stored there. -/
def insert (k : Nat) (f : Function) : ArityMap → ArityMap
  | [] => [(k, f)]
  | (m, g) :: entries =>
    if k < m then (k, f) :: (m, g) :: entries
    else if k = m then (k, f) :: entries
    else (m, g) :: insert k f entries

/-- The arities with a function, in their order. -/
def arities (entries : ArityMap) : List Nat := entries.map Prod.fst

theorem get?_insert (k : Nat) (f : Function) (entries : ArityMap) (j : Nat) :
    get? j (insert k f entries) = if j = k then some f else get? j entries := by
  induction entries with
  | nil => rfl
  | cons entry entries ih =>
    obtain ⟨m, g⟩ := entry
    rw [insert]
    by_cases hlt : k < m
    · rw [if_pos hlt]
      rfl
    · rw [if_neg hlt]
      by_cases heq : k = m
      · rw [if_pos heq, get?, get?, heq]
        by_cases hj : j = m
        · rw [if_pos hj, if_pos hj]
        · rw [if_neg hj, if_neg hj, if_neg hj]
      · rw [if_neg heq, get?, get?, ih]
        by_cases hj : j = m
        · have hjk : ¬ j = k := fun h => heq (h.symm.trans hj)
          rw [if_pos hj, if_neg hjk, if_pos hj]
        · rw [if_neg hj, if_neg hj]

/-- The arities of the map stay in order. -/
theorem arities_insert (k : Nat) (f : Function) (entries : ArityMap) :
    (insert k f entries).arities = insertAscending k entries.arities := by
  induction entries with
  | nil => rfl
  | cons entry entries ih =>
    obtain ⟨m, g⟩ := entry
    have harities : arities ((m, g) :: entries) = m :: arities entries := rfl
    rw [insert, harities, insertAscending]
    by_cases hlt : k < m
    · rw [if_pos hlt, if_pos hlt]
      rfl
    · rw [if_neg hlt, if_neg hlt]
      by_cases heq : k = m
      · rw [if_pos heq, if_pos heq, heq]
        rfl
      · rw [if_neg heq, if_neg heq, ← ih]
        rfl

theorem mem_arities_iff {k : Nat} {entries : ArityMap} :
    k ∈ entries.arities ↔ (get? k entries).isSome = true := by
  induction entries with
  | nil => simp [arities, get?]
  | cons entry entries ih =>
    obtain ⟨m, g⟩ := entry
    have harities : arities ((m, g) :: entries) = m :: arities entries := rfl
    rw [harities, List.mem_cons, ih, get?]
    by_cases hk : k = m
    · rw [if_pos hk]
      exact ⟨fun _ => rfl, fun _ => .inl hk⟩
    · rw [if_neg hk]
      exact ⟨fun h => h.resolve_left hk, .inr⟩

theorem insert_ne_nil (k : Nat) (f : Function) (entries : ArityMap) : insert k f entries ≠ [] := by
  intro hnil
  have hget := get?_insert k f entries k
  rw [hnil, if_pos rfl] at hget
  cases hget

end ArityMap

/-! ### Maps from names -/

/-- The overloads that are stored under each name, if there are any. -/
abbrev Overloads : Type := String → Option ArityMap

namespace Overloads

/-- No name is stored. -/
def empty : Overloads := fun _ => none

/-- Stores a function under its name and arity, in a new map if the name has none. -/
def insert (m : Overloads) (f : Function) : Overloads := fun x =>
  if x = f.name then some (((m f.name).getD []).insert f.arity f) else m x

/-- Whether a name is stored. -/
def isFunction (m : Overloads) (name : String) : Bool := (m name).isSome

/-- The function that is stored under a name and an arity. -/
def function? (m : Overloads) (name : String) (k : Nat) : Option Function :=
  (m name).bind (ArityMap.get? k)

/-- Whether an arity is stored under a name. -/
def hasOverload (m : Overloads) (name : String) (k : Nat) : Bool :=
  (m name).any fun entries => entries.arities.contains k

/-- The arities under a name, in their order. -/
def arities (m : Overloads) (name : String) : List Nat := (m name).elim [] ArityMap.arities

/-- The maps after the declaration of `f`, which changes nothing if its name and arity are taken. -/
def declare (m : Overloads) (f : Function) : Overloads :=
  if Builtin.isBuiltin f.name f.arity ∨ m.hasOverload f.name f.arity then m else m.insert f

/-- Under a stored name there is an overload, arities ascend, and each function is stored under its
own name and the number of its parameters. -/
structure WellFormed (m : Overloads) : Prop where
  ne_nil : ∀ {name entries}, m name = some entries → entries ≠ []
  ascending : ∀ {name entries}, m name = some entries → entries.arities.Pairwise (· < ·)
  key_eq : ∀ {name k f}, m.function? name k = some f → f.name = name ∧ f.params.length = k

theorem wellFormed_empty : empty.WellFormed where
  ne_nil h := by cases h
  ascending h := by cases h
  key_eq h := by cases h

theorem insert_self (m : Overloads) (f : Function) :
    m.insert f f.name = some (((m f.name).getD []).insert f.arity f) := if_pos rfl

theorem insert_of_ne (m : Overloads) {f : Function} {name : String} (h : name ≠ f.name) :
    m.insert f name = m name := if_neg h

theorem function?_insert (m : Overloads) (f : Function) (name : String) (k : Nat) :
    (m.insert f).function? name k =
      if f.name = name ∧ f.arity = k then some f else m.function? name k := by
  unfold function?
  by_cases hname : name = f.name
  · rw [hname, insert_self, Option.bind_some, ArityMap.get?_insert]
    by_cases hk : k = f.arity
    · rw [if_pos hk, if_pos ⟨rfl, hk.symm⟩]
    · rw [if_neg hk, if_neg fun h => hk h.2.symm]
      cases m f.name <;> rfl
  · rw [insert_of_ne m hname, if_neg fun h => hname h.1.symm]

/-- **One step**: storing a function keeps the maps well formed, whatever was stored before. -/
theorem WellFormed.insert {m : Overloads} (h : m.WellFormed) (f : Function) :
    (m.insert f).WellFormed where
  ne_nil {name entries} hentries := by
    by_cases hname : name = f.name
    · rw [hname, insert_self] at hentries
      obtain rfl := Option.some.inj hentries
      exact ArityMap.insert_ne_nil _ _ _
    · rw [insert_of_ne m hname] at hentries
      exact h.ne_nil hentries
  ascending {name entries} hentries := by
    by_cases hname : name = f.name
    · rw [hname, insert_self] at hentries
      obtain rfl := Option.some.inj hentries
      rw [ArityMap.arities_insert]
      refine pairwise_insertAscending _ ?_
      cases hstored : m f.name with
      | none => exact List.Pairwise.nil
      | some stored => exact h.ascending hstored
    · rw [insert_of_ne m hname] at hentries
      exact h.ascending hentries
  key_eq {name k g} hg := by
    rw [function?_insert] at hg
    by_cases hkey : f.name = name ∧ f.arity = k
    · rw [if_pos hkey] at hg
      obtain rfl := Option.some.inj hg
      exact hkey
    · rw [if_neg hkey] at hg
      exact h.key_eq hg

theorem WellFormed.declare {m : Overloads} (h : m.WellFormed) (f : Function) :
    (m.declare f).WellFormed := by
  unfold Overloads.declare
  by_cases htaken : Builtin.isBuiltin f.name f.arity ∨ m.hasOverload f.name f.arity
  · rw [if_pos htaken]
    exact h
  · rw [if_neg htaken]
    exact h.insert f

/-- **Many steps**: declarations keep the maps well formed. -/
theorem WellFormed.foldl_declare {m : Overloads} (h : m.WellFormed) (fs : List Function) :
    (fs.foldl Overloads.declare m).WellFormed := by
  induction fs generalizing m with
  | nil => exact h
  | cons f fs ih => exact ih (h.declare f)

/-- An arity is stored exactly if there is a function under it. -/
theorem hasOverload_eq (m : Overloads) (name : String) (k : Nat) :
    m.hasOverload name k = (m.function? name k).isSome := by
  unfold hasOverload function?
  cases m name with
  | none => rfl
  | some entries =>
    rw [Option.any_some, Option.bind_some, Bool.eq_iff_iff, List.contains_iff_mem]
    exact ArityMap.mem_arities_iff

/-- A stored name is one with an arity. -/
theorem WellFormed.isFunction_iff {m : Overloads} (h : m.WellFormed) (name : String) :
    m.isFunction name = true ↔ m.arities name ≠ [] := by
  unfold isFunction arities
  cases hstored : m name with
  | none => simp
  | some entries =>
    have hne : entries.arities ≠ [] := mt List.map_eq_nil_iff.mp (h.ne_nil hstored)
    exact ⟨fun _ => hne, fun _ => rfl⟩

end Overloads

/-! ### Tables as maps -/

namespace FunctionTable

/-- The maps that the functions make when they are stored, the earliest first. -/
def toOverloads (table : FunctionTable) : Overloads := table.foldr (fun f m => m.insert f) .empty

theorem toOverloads_cons (f : Function) (table : FunctionTable) :
    toOverloads (f :: table) = table.toOverloads.insert f := rfl

/-- What is found in the table under a name and an arity is what the maps store there. -/
theorem find?_eq_overloads (table : FunctionTable) (name : String) (k : Nat) :
    table.find? name k = table.toOverloads.function? name k := by
  induction table with
  | nil => rfl
  | cons f table ih => rw [find?_cons, toOverloads_cons, Overloads.function?_insert, ih]

theorem hasOverload_eq_overloads (table : FunctionTable) (name : String) (k : Nat) :
    table.hasOverload name k = table.toOverloads.hasOverload name k := by
  rw [hasOverload, Overloads.hasOverload_eq, find?_eq_overloads]

theorem isFunction_eq_overloads (table : FunctionTable) (name : String) :
    table.isFunction name = table.toOverloads.isFunction name := by
  induction table with
  | nil => rfl
  | cons f table ih =>
    have hcons : isFunction (f :: table) name = (decide (f.name = name) || isFunction table name) :=
      rfl
    rw [hcons, ih, toOverloads_cons, Overloads.isFunction, Overloads.isFunction]
    by_cases hname : name = f.name
    · rw [hname, Overloads.insert_self, decide_eq_true rfl]
      rfl
    · rw [Overloads.insert_of_ne _ hname, decide_eq_false fun h => hname h.symm]
      rfl

theorem arities_eq_overloads (table : FunctionTable) (name : String) :
    table.arities name = table.toOverloads.arities name := by
  induction table with
  | nil => rfl
  | cons f table ih =>
    unfold arities at ih ⊢
    rw [toOverloads_cons, Overloads.arities]
    by_cases hname : name = f.name
    · rw [List.filter_cons_of_pos (by simp [hname]), List.foldr_cons, ih, hname,
        Overloads.insert_self, Option.elim_some, ArityMap.arities_insert, Overloads.arities]
      cases toOverloads table f.name <;> rfl
    · rw [List.filter_cons_of_neg (by simpa using fun h => hname h.symm), ih,
        Overloads.insert_of_ne _ hname, Overloads.arities]

/-- **Simulation**: a declaration does to the table what it does to the maps. -/
theorem toOverloads_declare (table : FunctionTable) (f : Function) :
    (table.declare f).toOverloads = table.toOverloads.declare f := by
  unfold declare Overloads.declare
  rw [← hasOverload_eq_overloads]
  by_cases htaken : Builtin.isBuiltin f.name f.arity ∨ table.hasOverload f.name f.arity
  · rw [if_pos htaken, if_pos htaken]
  · rw [if_neg htaken, if_neg htaken, toOverloads_cons]

/-- A table that grows is changed by declarations alone. -/
theorem Grows.exists_overloads {a b : FunctionTable} (h : Grows a b) :
    ∃ fs : List Function, b.toOverloads = fs.foldl Overloads.declare a.toOverloads := by
  induction h with
  | refl => exact ⟨[], rfl⟩
  | @declare b f grown notBuiltin isFree ih =>
    obtain ⟨fs, hfs⟩ := ih
    have hdeclare : b.declare f = f :: b := by simp [FunctionTable.declare, notBuiltin, isFree]
    refine ⟨fs ++ [f], ?_⟩
    rw [List.foldl_append, ← hfs, ← hdeclare, toOverloads_declare]
    rfl

end FunctionTable

end LetLang
