import LetLang.Context
import Mathlib.Tactic.SplitIfs

/-!
# Facts about contexts

What the parts of a context do under the operations of an evaluation: the visible value of a name is
the top of its stack (`lookup?_eq_head?`), a table of functions that grows by declarations keeps
every function it has (`FunctionTable.Grows.find?_eq_some`), and writing to a sink appends
(`Sink.text_writeAll`).
-/

namespace LetLang

/-! ### Variables -/

namespace Variables

@[simp]
theorem stack_define (vs : Variables) (name : String) (v : Value) (x : String) :
    (vs.define name v).stack x = if x = name then v :: vs.stack x else vs.stack x := by
  unfold define stack
  by_cases h : x = name
  · rw [if_pos h, List.filter_cons_of_pos (by simp [h]), List.map_cons]
  · rw [if_neg h, List.filter_cons_of_neg (by simpa using fun h' => h h'.symm)]

/-- The visible value of a name is the top of its stack. -/
theorem lookup?_eq_head? (vs : Variables) (x : String) : vs.lookup? x = (vs.stack x).head? := by
  unfold lookup?
  induction vs with
  | nil => rfl
  | cons d vs ih =>
    obtain ⟨name, v⟩ := d
    have h := stack_define vs name v x
    unfold define at h
    rw [h, List.lookup_cons]
    by_cases hx : x = name
    · rw [if_pos hx, beq_iff_eq.mpr hx]
      rfl
    · rw [if_neg hx, beq_false_of_ne hx]
      exact ih

end Variables

/-! ### Functions -/

namespace FunctionTable

/-- Whether a function has the given name and arity. -/
theorem find?_cons (f : Function) (table : FunctionTable) (name : String) (arity : Nat) :
    find? (f :: table) name arity =
      if f.name = name ∧ f.arity = arity then some f else find? table name arity := by
  unfold find?
  by_cases h : f.name = name ∧ f.arity = arity
  · rw [if_pos h, List.find?_cons_of_pos (by simpa using h)]
  · rw [if_neg h, List.find?_cons_of_neg (by simpa using h)]

/-- The functions after the declaration of `f`, which counts for nothing if its name and arity are
taken. -/
def declare (table : FunctionTable) (f : Function) : FunctionTable :=
  if Builtin.isBuiltin f.name f.arity ∨ table.hasOverload f.name f.arity then table else f :: table

/-- A declaration adds its function where there was none and no built-in function either. -/
theorem find?_declare (table : FunctionTable) (f : Function) (name : String) (arity : Nat) :
    (table.declare f).find? name arity =
      (table.find? name arity).or
        (if Builtin.isBuiltin name arity then none else find? [f] name arity) := by
  unfold declare
  by_cases hname : f.name = name ∧ f.arity = arity
  · obtain ⟨rfl, rfl⟩ := hname
    unfold hasOverload
    cases htable : table.find? f.name f.arity with
    | some g => simp [htable]
    | none => by_cases hbuiltin : Builtin.isBuiltin f.name f.arity = true <;>
        simp [hbuiltin, htable, find?_cons]
  · have hnone : find? [f] name arity = none := by
      rw [find?_cons, if_neg hname]
      rfl
    rw [hnone, ite_self, Option.or_none]
    split_ifs
    · rfl
    · rw [find?_cons, if_neg hname]

/-- After declarations, a name and arity that are not built in stand for the function they stood for
before, or else for the first one declared. -/
theorem find?_foldl_declare (fs : List Function) (table : FunctionTable) (name : String)
    (arity : Nat) :
    find? (fs.foldl declare table) name arity =
      (table.find? name arity).or
        (if Builtin.isBuiltin name arity then none else find? fs name arity) := by
  induction fs generalizing table with
  | nil => simp [find?]
  | cons f fs ih =>
    rw [List.foldl_cons, ih, find?_declare, Option.or_assoc]
    congr 1
    by_cases hbuiltin : Builtin.isBuiltin name arity = true
    · simp [hbuiltin]
    · rw [if_neg hbuiltin, if_neg hbuiltin, if_neg hbuiltin, find?_cons, find?_cons]
      by_cases hname : f.name = name ∧ f.arity = arity
      · rw [if_pos hname, if_pos hname, Option.some_or]
      · rw [if_neg hname, if_neg hname]
        rfl

/-- The table `table'` is the table `table` after declarations, each of a name and arity that was
free. -/
inductive Grows (table : FunctionTable) : FunctionTable → Prop
  | refl : Grows table table
  | declare {table' : FunctionTable} {f : Function} (grown : Grows table table')
    (notBuiltin : Builtin.isBuiltin f.name f.arity = false)
    (isFree : table'.hasOverload f.name f.arity = false) : Grows table (f :: table')

namespace Grows

theorem trans {a b c : FunctionTable} (hab : Grows a b) (hbc : Grows b c) : Grows a c := by
  induction hbc with
  | refl => exact hab
  | declare _ hb hf ih => exact ih.declare hb hf

/-- A function stays in a table that grows. -/
theorem find?_eq_some {a b : FunctionTable} (h : Grows a b) {name : String} {arity : Nat}
    {f : Function} (hf : a.find? name arity = some f) : b.find? name arity = some f := by
  induction h with
  | refl => exact hf
  | @declare b g _ _ hfree ih =>
    rw [find?_cons, if_neg, ih]
    rintro ⟨rfl, rfl⟩
    unfold hasOverload at hfree
    rw [ih] at hfree
    simp at hfree

end Grows

end FunctionTable

/-! ### Sinks -/

namespace Sink

/-- The text that a sink holds. -/
def text (s : Sink) : String := printedText s.written.toList

/-- Writes the values of a list, one after the other. -/
def writeAll (s : Sink) (vs : List Value) : Sink := vs.foldl write s

@[simp]
theorem writeAll_nil (s : Sink) : s.writeAll [] = s := rfl

@[simp]
theorem writeAll_append (s : Sink) (us vs : List Value) :
    s.writeAll (us ++ vs) = (s.writeAll us).writeAll vs := List.foldl_append

@[simp]
theorem accepts_write (s : Sink) (v : Value) : (s.write v).accepts = s.accepts := by
  unfold write
  split_ifs <;> rfl

@[simp]
theorem accepts_writeAll (s : Sink) (vs : List Value) :
    (s.writeAll vs).accepts = s.accepts := by
  induction vs generalizing s with
  | nil => rfl
  | cons v vs ih => exact (ih (s.write v)).trans (accepts_write s v)

/-- A sink that takes values keeps them in order; a broken one takes none. -/
theorem toList_writeAll (s : Sink) (vs : List Value) :
    (s.writeAll vs).written.toList = s.written.toList ++ if s.accepts then vs else [] := by
  induction vs generalizing s with
  | nil => simp
  | cons v vs ih =>
    have h : s.writeAll (v :: vs) = (s.write v).writeAll vs := rfl
    rw [h, ih, accepts_write]
    unfold write
    by_cases ha : s.accepts = true
    · simp [ha]
    · simp [ha]

/-- What a sink holds since before it was written to. -/
theorem since_writeAll (s : Sink) (vs : List Value) :
    (s.writeAll vs).since s.written.size = if s.accepts then vs else [] := by
  unfold since
  rw [toList_writeAll, ← Array.length_toList, List.drop_left]

end Sink

theorem printedText_append (us vs : List Value) :
    printedText (us ++ vs) = printedText us ++ printedText vs := by
  simp [printedText, String.join_append]

theorem printedText_flatten (vss : List (List Value)) :
    printedText vss.flatten = String.join (vss.map printedText) := by
  induction vss with
  | nil => rfl
  | cons vs vss ih =>
    rw [List.flatten_cons, printedText_append, ih, List.map_cons, String.join_cons]

/-- Writing appends the text of the values, or nothing if the sink is broken. -/
theorem Sink.text_writeAll (s : Sink) (vs : List Value) :
    (s.writeAll vs).text = s.text ++ if s.accepts then printedText vs else "" := by
  unfold text
  rw [toList_writeAll, printedText_append]
  split_ifs <;> rfl

end LetLang
