import LetLang.Decimal
import LetLang.Expr

/-!
# Printed form of expressions

The text that a tree is printed as: operators and keywords stand before their operands, which are in
parentheses.
-/

namespace LetLang

/-- Texts with a comma and a blank between any two. -/
def commaSeparated (texts : List String) : String := ", ".intercalate texts

/-- The printed form of a truth value. -/
def boolText : Bool → String
  | true => "true"
  | false => "false"

/-- The printed form of a literal. A string stands between quotes, with nothing escaped. -/
def Literal.text : Literal → String
  | number x => Decimal.text x
  | quoted s => "\"" ++ s ++ "\""
  | bool b => boolText b

namespace Expr

/-- The printed form of a call with the given printed arguments. -/
def callText (name : String) : List String → String
  | [] => "(call " ++ name ++ ")"
  | args => "(call " ++ name ++ " [" ++ commaSeparated args ++ "])"

mutual

/-- The printed form of a tree. -/
def text : Expr → String
  | literal v _ => v.text
  | unary op operand _ => op.symbol.spelling ++ " (" ++ text operand ++ ")"
  | binary op left right _ =>
    op.symbol.spelling ++ " (" ++ text left ++ ", " ++ text right ++ ")"
  | conditional c t e _ => "if-else (" ++ text c ++ ", " ++ text t ++ ", " ++ text e ++ ")"
  | var name _ => name
  | letIn bindings body _ =>
    "let-in \x7b" ++ commaSeparated (bindingTexts bindings) ++ "\x7d(" ++ text body ++ ")"
  | function name params body _ =>
    "function " ++ name ++ "(" ++ commaSeparated params ++ ") => " ++ text body
  | call name args _ => callText name (texts args)

/-- The printed forms of the trees of a list. -/
def texts : List Expr → List String
  | [] => []
  | e :: es => text e :: texts es

/-- The printed forms of the bindings of a `let`. -/
def bindingTexts : List (Binding Expr) → List String
  | [] => []
  | ⟨name, value, _⟩ :: bs => ("= (" ++ name ++ " " ++ text value ++ ")") :: bindingTexts bs

end

end Expr

end LetLang
