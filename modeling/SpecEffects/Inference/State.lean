import SpecEffects.FreshNames
import SpecEffects.Scope.Tree
import SpecEffects.Tree.Text
import SpecEffects.Unification.Effects

/-!
What inference has found out so far: the effects and the errors of nodes, everything learned about
quantified names, and the names that have been made up.
-/
namespace SpecEffects

inductive InferenceError where
  | application (expr : Expr) (cause : UnificationError)
  | instantiation (expr : Expr) (cause : UnificationError)
  | unresolvedSignature (name : String)

namespace InferenceError

def message : InferenceError → String
  | .application expr cause =>
    "Trying to infer effect for operator application in " ++ expr.text ++ ": " ++ cause.message
  | .instantiation expr cause =>
    "Trying to instantiate effect of " ++ expr.text ++ ": " ++ cause.message
  | .unresolvedSignature name => "Signature not found for name: " ++ name

def cause? : InferenceError → Option UnificationError
  | .application _ cause => some cause
  | .instantiation _ cause => some cause
  | .unresolvedSignature _ => none

end InferenceError

namespace Inference

def effectStem : String := "_e"

def variablesStem : String := "_v"

def parameterMark : String := "e_"

/-- The name of the unknown effect of a parameter of a lambda. -/
def placeholder (param : String) (lambda : NodeId) : String :=
  parameterMark ++ param ++ "_" ++ toString lambda.val.toNat

def isPlaceholder (name : String) : Bool := parameterMark.toList.isPrefixOf name.toList

structure State where
  effects : SortedMap NodeId Effect
  errors : SortedMap NodeId InferenceError
  /-- Everything learned about quantified names so far. -/
  running : Substitution
  fresh : FreshNames

namespace State

def start : State := ⟨∅, ∅, ∅, .empty⟩

def record (state : State) (id : NodeId) (effect : Effect) : State :=
  { state with effects := state.effects.insert id effect }

/-- The first error of a node stays. -/
def recordError (state : State) (id : NodeId) (error : InferenceError) : State :=
  if state.errors.contains id then state
  else { state with errors := state.errors.insert id error }

def copyEffect (state : State) (id source : NodeId) : State :=
  match state.effects.get? source with
  | some effect => state.record id effect
  | none => state

def freshBindings (fresh : FreshNames) (stem : String) (term : String → Term) :
    List String → List Binding × FreshNames
  | [] => ([], fresh)
  | name :: rest =>
    let (new, fresh) := fresh.next stem
    let (bindings, fresh) := freshBindings fresh stem term rest
    (⟨name, term new⟩ :: bindings, fresh)

/-- A copy of the effect under new names. What the effects of parameters are called now is learned;
all other names are local to the effect. -/
def instantiate (state : State) (effect : Effect) : Except KindClash Effect × State :=
  let (effectBindings, fresh) :=
    freshBindings state.fresh effectStem (fun name => .effect (.quantified name))
      effect.effectNames.toList
  let (variableBindings, fresh) :=
    freshBindings fresh variablesStem (fun name => .variables (.quantified name))
      effect.variableNames.toList
  let state := { state with fresh }
  match Substitution.apply ⟨effectBindings ++ variableBindings⟩ effect with
  | .error clash => (.error clash, state)
  | .ok copy =>
    match effectBindings.filter fun binding => isPlaceholder binding.name with
    | [] => (.ok copy, state)
    | learned =>
      match Substitution.compose ⟨learned⟩ state.running with
      | .error clash => (.error clash, state)
      | .ok running => (.ok copy, { state with running })

/-- Makes the signature of an operator equal to the effect that its use asks for. What is learned is
applied to every recorded effect and to the result of the use. If anything fails nothing changes. -/
def solve (state : State) (signature used result : Effect) :
    Except UnificationError (Effect × State) := do
  let learned ← signature.unify used
  let running ← (learned.compose state.running).mapError .kindMismatch
  let effects ← (state.effects.mapValues learned.apply).mapError .kindMismatch
  let result ← (learned.apply result).mapError .kindMismatch
  return (result, { state with running, effects })

end State

end Inference

end SpecEffects
