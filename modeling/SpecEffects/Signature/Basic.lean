import SpecEffects.Effect.Basic
import SpecEffects.Sorted.Map

/-!
Signatures of builtin operators. Most builtins pass on some components of what their arguments do,
whatever the number of arguments. The others have a fixed effect.
-/
namespace SpecEffects

inductive Signature where
  | fixed (effect : Effect)
  | propagate (components : List Component)
  deriving DecidableEq

namespace Signature

def componentLetter : Component → String
  | .read => "r"
  | .update => "u"
  | .temporal => "t"

/-- The set of one component of the argument at `index`, where the first argument has index one. -/
def argumentSet (component : Component) (index : Nat) : VariableSet :=
  .quantified (componentLetter component ++ toString index)

def argumentIndices (arity : Nat) : List Nat := (List.range arity).map (· + 1)

def argument (components : List Component) (index : Nat) : Effect :=
  .concrete (.ofParts (components.map fun component => (component, argumentSet component index)))

def result (components : List Component) (arity : Nat) : Effect :=
  .concrete (.ofParts (components.map fun component =>
    (component, .join ((argumentIndices arity).map (argumentSet component)))))

def instantiate : Signature → Nat → Effect
  | .fixed effect, _ => effect
  | .propagate components, arity =>
    .arrow ((argumentIndices arity).map (argument components)) (result components arity)

end Signature

abbrev SignatureTable := SortedMap String Signature

namespace SignatureTable

def signature? (table : SignatureTable) (name : String) (arity : Nat) : Option Effect :=
  (table.get? name).map fun signature => signature.instantiate arity

end SignatureTable

end SpecEffects
