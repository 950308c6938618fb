import LetLang.Context

/-!
# Evaluations

An evaluation runs in a context. It ends with a value, with a runtime error, or, when too many calls
would have to be open, with neither; in each case it leaves a context.
-/

namespace LetLang

/-- How an evaluation ends. -/
inductive Outcome (α : Type) where
  | value (a : α)
  | error (e : RuntimeError)
  /-- More calls would have to be open than are allowed. -/
  | tooDeep

/-- An evaluation that reads and changes a context. -/
def Eval (α : Type) : Type := Context → Outcome α × Context

namespace Eval

/-- Runs an evaluation in a context. -/
def run (m : Eval α) (c : Context) : Outcome α × Context := m c

instance : Monad Eval where
  pure a := fun c => (.value a, c)
  bind m f := fun c =>
    match m c with
    | (.value a, c') => f a c'
    | (.error e, c') => (.error e, c')
    | (.tooDeep, c') => (.tooDeep, c')

@[simp]
theorem run_pure (a : α) (c : Context) : (pure a : Eval α).run c = (.value a, c) := rfl

theorem run_bind (m : Eval α) (f : α → Eval β) (c : Context) :
    (m >>= f).run c =
      match m.run c with
      | (.value a, c') => (f a).run c'
      | (.error e, c') => (.error e, c')
      | (.tooDeep, c') => (.tooDeep, c') := rfl

instance : LawfulMonad Eval :=
  LawfulMonad.mk' Eval
    (fun m => by
      funext c
      show (match m.run c with
        | (.value a, c') => _ | (.error e, c') => _ | (.tooDeep, c') => _) = m.run c
      rcases m.run c with ⟨_ | _ | _, _⟩ <;> rfl)
    (fun _ _ => rfl)
    (fun m f g => by
      funext c
      show ((m >>= f) >>= g).run c = (m >>= fun a => f a >>= g).run c
      simp only [run_bind]
      rcases m.run c with ⟨_ | _ | _, _⟩ <;> rfl)

/-- Ends with a runtime error. -/
def fail (e : RuntimeError) : Eval α := fun c => (.error e, c)

/-- Ends because no more calls may be open. -/
def tooDeep : Eval α := fun c => (.tooDeep, c)

/-- The value of a computation that leaves the context alone. -/
def ofExcept : Except RuntimeError α → Eval α
  | .ok a => pure a
  | .error e => fail e

/-- Reads the context. -/
def read (f : Context → Except RuntimeError α) : Eval α := fun c => (ofExcept (f c)).run c

/-- Declares a function. -/
def declare (f : Function) : Eval Unit := fun c =>
  match c.declare f with
  | .ok c' => (.value (), c')
  | .error e => (.error e, c)

/-- Writes a value to the sink. -/
def print (v : Value) : Eval Unit := fun c => (.value (), c.print v)

/-- Draws a random number. -/
def draw : Eval Float := fun c => (.value c.random.current, { c with random := c.random.advance })

/-- Runs an evaluation with one more variable defined, and removes it at the end, whatever the end.
-/
def withVariable (name : String) (v : Value) (m : Eval α) : Eval α := fun c =>
  let (outcome, c') := m.run (c.define name v)
  (outcome, c'.remove name)

/-- Runs an evaluation with more variables defined. -/
def withVariables : List (String × Value) → Eval α → Eval α
  | [], m => m
  | (name, v) :: more, m => withVariable name v (withVariables more m)

end Eval

end LetLang
