import SpecEffects.VariableSet

/-!
Effects. A concrete effect is a footprint: the state variables that a term reads, updates, or
refers to at other moments of a behaviour. A quantified effect is unknown so far, and an arrow is
the effect of an operator.
-/
namespace SpecEffects

inductive Component where
  | read
  | update
  | temporal
  deriving DecidableEq

namespace Component

def all : List Component := [.read, .update, .temporal]

def keyword : Component → String
  | .read => "Read"
  | .update => "Update"
  | .temporal => "Temporal"

end Component

structure Footprint where
  read : VariableSet
  update : VariableSet
  temporal : VariableSet
  deriving DecidableEq

namespace Footprint

def get (footprint : Footprint) : Component → VariableSet
  | .read => footprint.read
  | .update => footprint.update
  | .temporal => footprint.temporal

def ofFn (slot : Component → VariableSet) : Footprint :=
  ⟨slot .read, slot .update, slot .temporal⟩

def empty : Footprint := ofFn fun _ => .empty

def isEmpty (footprint : Footprint) : Bool :=
  Component.all.all fun component => (footprint.get component).isEmpty

def ofParts (parts : List (Component × VariableSet)) : Footprint :=
  ofFn fun component =>
    .join (parts.filterMap fun part => if part.1 = component then some part.2 else none)

def variableNames (footprint : Footprint) : NameSet :=
  .union (.union footprint.read.quantifiedNames footprint.update.quantifiedNames)
    footprint.temporal.quantifiedNames

def text (footprint : Footprint) : String :=
  match Component.all.filter fun component => !(footprint.get component).isEmpty with
  | [] => "Pure"
  | shown => " & ".intercalate (shown.map fun component =>
      component.keyword ++ (footprint.get component).text)

end Footprint

inductive Effect where
  | concrete (footprint : Footprint)
  | quantified (name : String)
  | arrow (params : List Effect) (result : Effect)

namespace Effect

mutual

def decEq : (e f : Effect) → Decidable (e = f)
  | .concrete footprint, .concrete footprint' => decidable_of_iff (footprint = footprint') (by simp)
  | .quantified name, .quantified name' => decidable_of_iff (name = name') (by simp)
  | .arrow params result, .arrow params' result' =>
    have := decEqList params params'
    have := decEq result result'
    decidable_of_iff (params = params' ∧ result = result') (by simp)
  | .concrete _, .quantified _ => isFalse nofun
  | .concrete _, .arrow _ _ => isFalse nofun
  | .quantified _, .concrete _ => isFalse nofun
  | .quantified _, .arrow _ _ => isFalse nofun
  | .arrow _ _, .concrete _ => isFalse nofun
  | .arrow _ _, .quantified _ => isFalse nofun

def decEqList : (es fs : List Effect) → Decidable (es = fs)
  | [], [] => isTrue rfl
  | [], _ :: _ => isFalse nofun
  | _ :: _, [] => isFalse nofun
  | e :: es, f :: fs =>
    have := decEq e f
    have := decEqList es fs
    decidable_of_iff (e = f ∧ es = fs) (by simp)

end

instance : DecidableEq Effect := decEq

def empty : Effect := .concrete .empty

def reads (name : String) : Effect :=
  .concrete ⟨.concrete (.singleton name), .empty, .empty⟩

def isPure : Effect → Bool
  | .concrete footprint => footprint.isEmpty
  | _ => false

def component? : Effect → Component → Option VariableSet
  | .concrete footprint, component => some (footprint.get component)
  | _, _ => none

mutual

def effectNames : Effect → NameSet
  | .concrete _ => ∅
  | .quantified name => .singleton name
  | .arrow params result => (effectNamesOf params).union (effectNames result)

def effectNamesOf : List Effect → NameSet
  | [] => ∅
  | effect :: rest => (effectNames effect).union (effectNamesOf rest)

end

mutual

def variableNames : Effect → NameSet
  | .concrete footprint => footprint.variableNames
  | .quantified _ => ∅
  | .arrow params result => (variableNamesOf params).union (variableNames result)

def variableNamesOf : List Effect → NameSet
  | [] => ∅
  | effect :: rest => (variableNames effect).union (variableNamesOf rest)

end

def names (effect : Effect) : NameSet := effect.effectNames.union effect.variableNames

def isClosed (effect : Effect) : Bool :=
  effect.effectNames.isEmpty && effect.variableNames.isEmpty

mutual

def text : Effect → String
  | .concrete footprint => footprint.text
  | .quantified name => name
  | .arrow params result => "(" ++ ", ".intercalate (textsOf params) ++ ") => " ++ text result

def textsOf : List Effect → List String
  | [] => []
  | effect :: rest => text effect :: textsOf rest

end

end Effect

end SpecEffects
