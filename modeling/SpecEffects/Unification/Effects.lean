import SpecEffects.Unification.Variables

/-!
Making two effects equal. Footprints are solved for component by component, arrows parameter by
parameter and then at the result, always with what has been learned applied to the next piece.

Solving for pieces ends for one of two reasons. While nothing has been learned the pieces are parts
of the effects they come from. As soon as something has been learned, its names are gone from the
pieces that follow, so that fewer names are left. `unify` therefore counts the names.
-/
namespace SpecEffects

namespace Footprint

def unify (expected actual : Footprint) : Except UnificationError Substitution :=
  VariableSet.solveInTurn VariableSet.unify
    (.effect (.concrete expected)) (.effect (.concrete actual)) ∅
    (Component.all.map fun component =>
      (.component component, expected.get component, actual.get component))

end Footprint

namespace Effect

abbrev Solver := Effect → Effect → Except UnificationError Substitution

def bind (name : String) (value : Effect) : Except UnificationError Substitution :=
  if name ∈ value.names then .error (.occursCheck name (.effect value))
  else .ok (.single name (.effect value))

def solveUnder (solve : Solver) (σ : Substitution) (expected actual : Effect) :
    Except UnificationError Substitution := do
  let expected ← (σ.apply expected).mapError .kindMismatch
  let actual ← (σ.apply actual).mapError .kindMismatch
  let new ← solve expected actual
  (new.compose σ).mapError .kindMismatch

mutual

/-- Solves for two effects, where `further` solves for pieces to which something learned has been
applied. -/
def solveWith (further : Solver) : Solver
  | .quantified name, other =>
    if other = .quantified name then .ok ∅ else bind name other
  | other, .quantified name => bind name other
  | .concrete expected, .concrete actual => expected.unify actual
  | .arrow params result, .arrow params' result' =>
    if params.length = params'.length then do
      let locate := fun position =>
        UnificationError.nested position (.effect (.arrow params result))
          (.effect (.arrow params' result'))
      let σ ← solveParams further locate 0 ∅ params params'
      if σ.isEmpty then (solveWith further result result').mapError (locate .result)
      else (solveUnder further σ result result').mapError (locate .result)
    else .error (.arityMismatch params.length params'.length)
  | expected, actual => .error (.shapeMismatch expected actual)

def solveParams (further : Solver) (locate : Position → UnificationError → UnificationError) :
    Nat → Substitution → List Effect → List Effect → Except UnificationError Substitution
  | index, σ, param :: params, param' :: params' => do
    let σ ←
      if σ.isEmpty then (solveWith further param param').mapError (locate (.parameter index))
      else (solveUnder further σ param param').mapError (locate (.parameter index))
    solveParams further locate (index + 1) σ params params'
  | _, σ, _, _ => .ok σ

end

/-- Solves for two effects with at most `names` quantified names between them. -/
def solve : Nat → Solver
  | 0 => solveWith fun expected actual => .error (.shapeMismatch expected actual)
  | names + 1 => solveWith (solve names)

/-- A substitution that makes both effects equal. Where a name stands on both sides, the name on the
expected side is bound. -/
def unify (expected actual : Effect) : Except UnificationError Substitution :=
  solve (expected.names.union actual.names).size expected actual

end Effect

end SpecEffects
