import LetLang.Proofs.Context

/-!
# Variables as stacks under names

Another way to keep variables: under each name that is stored there is a stack of values. Defining a
variable pushes onto its stack, and removing it pops; a name that is not stored gets a stack with
its first value, and a stack that loses its last value is not stored any longer. The definitions of
a list, pushed one after the other, give such stacks (`Variables.toStacks`). Defining and removing
variables does the same to the list as pushing and popping does to the stacks
(`Variables.toStacks_define`, `Variables.toStacks_remove`), and no stored stack is ever empty
(`Variables.ne_nil_of_stacks`).
-/

namespace LetLang

/-- The stack that is stored under each name, if there is one, the latest value first. -/
abbrev Stacks : Type := String → Option (List Value)

namespace Stacks

/-- No name is stored. -/
def empty : Stacks := fun _ => none

/-- Puts a value onto the stack of `name`, or onto a new stack if there is none. -/
def push (m : Stacks) (name : String) (v : Value) : Stacks := fun x =>
  if x = name then some (v :: (m name).getD []) else m x

/-- The stack without its latest value, or nothing if no value is left. -/
def popped (stack : List Value) : Option (List Value) :=
  if stack.tail.isEmpty then none else some stack.tail

/-- Takes the latest value from the stack of `name`. A stack that becomes empty is not stored any
longer, and without a stack nothing changes. -/
def pop (m : Stacks) (name : String) : Stacks := fun x =>
  if x = name then (m name).bind popped else m x

end Stacks

namespace Variables

/-- The stacks that the definitions make when they are pushed, the earliest first. -/
def toStacks (vs : Variables) : Stacks := vs.foldr (fun d m => m.push d.1 d.2) .empty

theorem toStacks_define (vs : Variables) (name : String) (v : Value) :
    (vs.define name v).toStacks = vs.toStacks.push name v := rfl

/-- What is stored under a name are the values of its definitions, unless there are none. -/
theorem toStacks_eq (vs : Variables) (x : String) :
    vs.toStacks x = if vs.stack x = [] then none else some (vs.stack x) := by
  induction vs with
  | nil => rfl
  | cons d vs ih =>
    obtain ⟨name, v⟩ := d
    have hstack : stack ((name, v) :: vs) x = if x = name then v :: stack vs x else stack vs x :=
      stack_define vs name v x
    have hpush : toStacks ((name, v) :: vs) x =
        if x = name then some (v :: (toStacks vs name).getD []) else toStacks vs x := rfl
    rw [hpush, hstack]
    by_cases hx : x = name
    · have hgetD : (toStacks vs x).getD [] = stack vs x := by
        rw [ih]
        split_ifs with hnil
        · exact hnil.symm
        · rfl
      rw [if_pos hx, if_pos hx, ← hx, hgetD, if_neg (List.cons_ne_nil v _)]
    · rw [if_neg hx, if_neg hx, ih]

/-- A stored stack is not empty. -/
theorem ne_nil_of_stacks {vs : Variables} {x : String} {stack : List Value}
    (h : vs.toStacks x = some stack) : stack ≠ [] := by
  rw [toStacks_eq] at h
  split_ifs at h with hnil
  rw [← Option.some.inj h]
  exact hnil

/-- Removing a variable takes away the latest value of its name, and no other. -/
theorem stack_remove (vs : Variables) (name x : String) :
    (vs.remove name).stack x = if x = name then (vs.stack x).tail else vs.stack x := by
  unfold remove
  induction vs with
  | nil => simp [stack]
  | cons d vs ih =>
    obtain ⟨y, v⟩ := d
    have hstack : ∀ ws : Variables,
        stack ((y, v) :: ws) x = if x = y then v :: ws.stack x else ws.stack x :=
      fun ws => stack_define ws y v x
    by_cases hy : y = name
    · rw [List.eraseP_cons_of_pos (by simp [hy]), hstack, hy]
      split_ifs <;> rfl
    · rw [List.eraseP_cons_of_neg (by simp [hy]), hstack, hstack, ih]
      by_cases hx : x = y
      · have hname : x ≠ name := fun h => hy (hx.symm.trans h)
        rw [if_pos hx, if_neg hname, if_neg hname, if_pos hx]
      · rw [if_neg hx, if_neg hx]

/-- Removing a variable pops its stack. -/
theorem toStacks_remove (vs : Variables) (name : String) :
    (vs.remove name).toStacks = vs.toStacks.pop name := by
  funext x
  unfold Stacks.pop
  rw [toStacks_eq, stack_remove]
  by_cases hx : x = name
  · rw [if_pos hx, if_pos hx, ← hx, toStacks_eq]
    cases hstack : vs.stack x with
    | nil => rfl
    | cons v values =>
      rw [if_neg (List.cons_ne_nil v values), Option.bind_some, Stacks.popped, List.tail_cons]
      cases values <;> rfl
  · rw [if_neg hx, if_neg hx, toStacks_eq]

/-- The visible value of a name is the latest one of its stack. -/
theorem lookup?_eq_stacks (vs : Variables) (x : String) :
    vs.lookup? x = (vs.toStacks x).bind List.head? := by
  rw [lookup?_eq_head?, toStacks_eq]
  cases vs.stack x with
  | nil => rfl
  | cons v values => rw [if_neg (List.cons_ne_nil v values), Option.bind_some]

end Variables

end LetLang
