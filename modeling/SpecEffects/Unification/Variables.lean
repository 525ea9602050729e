import SpecEffects.Unification.Error

/-!
Making two sets of variables equal. A name is bound to the other side; a union is equal to a
concrete set when each of its members is. Pieces are solved one after the other, and what has been
learned is applied to the next.
-/
namespace SpecEffects.VariableSet

abbrev Solver := VariableSet → VariableSet → Except UnificationError Substitution

def bind (name : String) (value : VariableSet) : Except UnificationError Substitution :=
  if name ∈ value.quantifiedNames then .error (.occursCheck name (.variables value))
  else .ok (.single name (.variables value))

def solveUnder (solve : Solver) (σ : Substitution) (expected actual : VariableSet) :
    Except UnificationError Substitution := do
  let expected ← (σ.applyToVariables expected).mapError .kindMismatch
  let actual ← (σ.applyToVariables actual).mapError .kindMismatch
  let new ← solve expected actual
  (new.compose σ).mapError .kindMismatch

def solveInTurn (solve : Solver) (expected actual : Term) :
    Substitution → List (Position × VariableSet × VariableSet) →
      Except UnificationError Substitution
  | σ, [] => .ok σ
  | σ, (position, left, right) :: rest => do
    let σ ← (solveUnder solve σ left right).mapError (.nested position expected actual)
    solveInTurn solve expected actual σ rest

def solveWith (member : Solver) (expected actual : VariableSet) :
    Except UnificationError Substitution :=
  let inTurn := solveInTurn member (.variables expected) (.variables actual) ∅
  if expected = actual then .ok ∅
  else
    match expected, actual with
    | .quantified name, other => bind name other
    | other, .quantified name => bind name other
    | .union sets, .concrete vars =>
      inTurn (sets.mapIdx fun i set => (.unionMember i, set, .concrete vars))
    | .concrete vars, .union sets =>
      inTurn (sets.mapIdx fun i set => (.unionMember i, .concrete vars, set))
    | expected, actual => .error (.variablesMismatch expected actual)

/-- Members are brought to canonical form before they are solved for, and a member of a canonical
union is no union. So no more than three sets are solved for inside each other. -/
def unify : Solver :=
  solveWith <| solveWith <| solveWith
    fun expected actual => .error (.variablesMismatch expected actual)

end SpecEffects.VariableSet
