import SpecEffects.Text
import SpecEffects.Tree.Basic

/-!
Expressions and definitions as text.
-/
namespace SpecEffects

namespace Literal

def text : Literal → String
  | .bool value => if value then "true" else "false"
  | .int value => toString value.toInt
  | .str value => Text.quoted value

end Literal

namespace Expr

mutual

def text : Expr → String
  | .literal _ value => value.text
  | .ref _ name => name
  | .app _ operator args => operator ++ "(" ++ ", ".intercalate (textsOf args) ++ ")"
  | .lambda _ params body =>
    "((" ++ ", ".intercalate (params.map Param.name) ++ ") => " ++ text body ++ ")"
  | .letIn _ _ name bound body => "def " ++ name ++ " = " ++ text bound ++ "; " ++ text body

def textsOf : List Expr → List String
  | [] => []
  | expr :: rest => text expr :: textsOf rest

end

end Expr

namespace Definition

def text (definition : Definition) : String :=
  "def " ++ definition.name ++ " = " ++ definition.body.text

end Definition

end SpecEffects
