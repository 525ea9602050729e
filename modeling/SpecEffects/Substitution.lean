import SpecEffects.Effect.Basic

/-!
Substitutions. A substitution is a list of bindings, each of a name to an effect or to a set of
variables. It is applied in a single pass: every quantified name is looked up once, the first
binding of the name counts, and what it is bound to is not looked into again. A name that is bound
at the other kind than the one at which it is used is a clash.
-/
namespace SpecEffects

inductive Kind where
  | effect
  | variables
  deriving DecidableEq

namespace Kind

def other : Kind → Kind
  | .effect => .variables
  | .variables => .effect

def text : Kind → String
  | .effect => "effect"
  | .variables => "variable set"

end Kind

inductive Term where
  | effect (value : Effect)
  | variables (value : VariableSet)
  deriving DecidableEq

namespace Term

def kind : Term → Kind
  | .effect _ => .effect
  | .variables _ => .variables

def text : Term → String
  | .effect value => value.text
  | .variables value => value.text

end Term

structure KindClash where
  name : String
  required : Kind
  deriving DecidableEq

namespace KindClash

def message (clash : KindClash) : String :=
  "Substitution for " ++ clash.name ++ " is a " ++ clash.required.other.text ++
    " but a " ++ clash.required.text ++ " is required here"

end KindClash

structure Binding where
  name : String
  value : Term
  deriving DecidableEq

namespace Binding

def text (binding : Binding) : String := binding.name ++ " |-> " ++ binding.value.text

end Binding

structure Substitution where
  bindings : List Binding
  deriving DecidableEq

namespace Substitution

instance : EmptyCollection Substitution := ⟨⟨[]⟩⟩

def single (name : String) (value : Term) : Substitution := ⟨[⟨name, value⟩]⟩

def push (σ : Substitution) (binding : Binding) : Substitution := ⟨σ.bindings ++ [binding]⟩

def size (σ : Substitution) : Nat := σ.bindings.length

def isEmpty (σ : Substitution) : Bool := σ.bindings.isEmpty

def find? (σ : Substitution) (name : String) : Option Binding :=
  σ.bindings.find? fun binding => binding.name = name

def get? (σ : Substitution) (name : String) : Option Term := (σ.find? name).map Binding.value

def binds (σ : Substitution) (name : String) : Bool := (σ.find? name).isSome

def text (σ : Substitution) : String :=
  "[" ++ ", ".intercalate (σ.bindings.map Binding.text) ++ "]"

mutual

/-- A union is brought to canonical form, even when none of its names is bound. -/
def applyToVariables (σ : Substitution) : VariableSet → Except KindClash VariableSet
  | .concrete vars => .ok (.concrete vars)
  | .quantified name =>
    match σ.get? name with
    | none => .ok (.quantified name)
    | some (.variables value) => .ok value
    | some (.effect _) => .error ⟨name, .variables⟩
  | .union sets => do
    let sets ← applyToSets σ sets
    return .join sets

def applyToSets (σ : Substitution) : List VariableSet → Except KindClash (List VariableSet)
  | [] => .ok []
  | set :: rest => do
    let set ← applyToVariables σ set
    let rest ← applyToSets σ rest
    return set :: rest

end

def applyToFootprint (σ : Substitution) (footprint : Footprint) : Except KindClash Footprint := do
  let read ← σ.applyToVariables footprint.read
  let update ← σ.applyToVariables footprint.update
  let temporal ← σ.applyToVariables footprint.temporal
  return ⟨read, update, temporal⟩

mutual

def replaceIn (σ : Substitution) : Effect → Except KindClash Effect
  | .concrete footprint => do
    let footprint ← σ.applyToFootprint footprint
    return .concrete footprint
  | .quantified name =>
    match σ.get? name with
    | none => .ok (.quantified name)
    | some (.effect value) => .ok value
    | some (.variables _) => .error ⟨name, .effect⟩
  | .arrow params result => do
    let params ← replaceInAll σ params
    let result ← replaceIn σ result
    return .arrow params result

def replaceInAll (σ : Substitution) : List Effect → Except KindClash (List Effect)
  | [] => .ok []
  | effect :: rest => do
    let effect ← replaceIn σ effect
    let rest ← replaceInAll σ rest
    return effect :: rest

end

/-- The substitution without bindings leaves an effect as it is, unions included. -/
def apply (σ : Substitution) (effect : Effect) : Except KindClash Effect :=
  if σ.isEmpty then .ok effect else σ.replaceIn effect

def applyToTerm (σ : Substitution) : Term → Except KindClash Term
  | .effect value => do
    let value ← σ.apply value
    return .effect value
  | .variables value => do
    let value ← σ.applyToVariables value
    return .variables value

def applyToBindings (σ : Substitution) : List Binding → Except KindClash (List Binding)
  | [] => .ok []
  | binding :: rest => do
    let value ← σ.applyToTerm binding.value
    let rest ← applyToBindings σ rest
    return ⟨binding.name, value⟩ :: rest

/-- The substitution that does what `existing` does and then what `new` does. -/
def compose (new existing : Substitution) : Except KindClash Substitution := do
  let bindings ← new.applyToBindings existing.bindings
  return ⟨bindings ++ new.bindings.filter fun binding => !existing.binds binding.name⟩

end Substitution

end SpecEffects
