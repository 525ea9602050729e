import SpecEffects.Substitution

/-!
Why two effects or sets cannot be made equal. The cause is wrapped, from the inside out, in the
places at which the pieces stood that could not be made equal.
-/
namespace SpecEffects

inductive Position where
  | parameter (index : Nat)
  | result
  | component (component : Component)
  | unionMember (index : Nat)
  deriving DecidableEq

namespace Position

def text : Position → String
  | .parameter index => "parameter " ++ toString index
  | .result => "result"
  | .component .read => "read variables"
  | .component .update => "update variables"
  | .component .temporal => "temporal variables"
  | .unionMember index => "union member " ++ toString index

end Position

inductive UnificationError where
  | shapeMismatch (expected actual : Effect)
  | arityMismatch (expected actual : Nat)
  | occursCheck (name : String) (value : Term)
  | variablesMismatch (expected actual : VariableSet)
  | kindMismatch (clash : KindClash)
  | nested (position : Position) (expected actual : Term) (cause : UnificationError)
  deriving DecidableEq

namespace UnificationError

def message : UnificationError → String
  | .shapeMismatch expected actual =>
    "Expected effect " ++ expected.text ++ " but found " ++ actual.text ++ ": incompatible shapes"
  | .arityMismatch expected actual =>
    "Expected " ++ toString expected ++ " parameters but found " ++ toString actual
  | .occursCheck name value => "Can't bind " ++ name ++ " to " ++ value.text ++ ": cyclical binding"
  | .variablesMismatch expected actual =>
    "Expected variables " ++ expected.text ++ " and " ++ actual.text ++ " to be the same"
  | .kindMismatch clash => clash.message
  | .nested position expected actual cause =>
    "Trying to unify " ++ expected.text ++ " and " ++ actual.text ++ ", at " ++ position.text ++
      ": " ++ message cause

def path : UnificationError → List Position
  | .nested position _ _ cause => position :: path cause
  | _ => []

def rootCause : UnificationError → UnificationError
  | .nested _ _ _ cause => rootCause cause
  | error => error

end UnificationError

end SpecEffects
