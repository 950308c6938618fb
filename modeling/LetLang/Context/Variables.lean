import LetLang.Value

/-!
# Variables

The definitions of all variables are one list. Defining a variable puts its value in front, and
removing it takes away the definition that is nearest to the front, so that the definitions of each
name form a stack.
-/

namespace LetLang

/-- Variables with their values, the latest definition first. A later definition of a name hides the
earlier ones until it is removed. -/
abbrev Variables : Type := List (String × Value)

namespace Variables

/-- Adds a definition of `name`. -/
def define (vs : Variables) (name : String) (v : Value) : Variables := (name, v) :: vs

/-- Removes the latest definition of `name`; without one, nothing changes. -/
def remove (vs : Variables) (name : String) : Variables := vs.eraseP (·.1 = name)

/-- The value of `name` by its latest definition. -/
def lookup? (vs : Variables) (name : String) : Option Value := List.lookup name vs

/-- The values of all the definitions of `name`, the latest first. -/
def stack (vs : Variables) (name : String) : List Value :=
  (vs.filter (·.1 = name)).map Prod.snd

/-- Removes one definition for each name of a list. -/
def removeAll (vs : Variables) (names : List String) : Variables := names.foldl remove vs

@[simp]
theorem remove_define (vs : Variables) (name : String) (v : Value) :
    (vs.define name v).remove name = vs := by
  simp [define, remove]

end Variables

end LetLang
