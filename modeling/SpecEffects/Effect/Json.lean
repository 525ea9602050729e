import SpecEffects.Substitution
import SpecEffects.Json.Decoder

/-!
Effects and substitutions as JSON documents.
-/
namespace SpecEffects

namespace Component

def toJson : Component → Json
  | .read => .ofText "read"
  | .update => .ofText "update"
  | .temporal => .ofText "temporal"

def decode : Json.Decoder Component := fun depth json => do
  let choice ← json.alternative depth
  if choice.isBare then
    match choice.name with
    | "read" => some .read
    | "update" => some .update
    | "temporal" => some .temporal
    | _ => none
  else none

end Component

namespace VariableSet

mutual

def toJson : VariableSet → Json
  | .concrete vars => .ofFields [("Concrete", .ofFields [("vars", .ofTexts vars.toList)])]
  | .quantified name => .ofFields [("Quantified", .ofFields [("name", .ofText name)])]
  | .union sets => .ofFields [("Union", .ofFields [("sets", .array (toJsons sets))])]

def toJsons : List VariableSet → List Json
  | [] => []
  | set :: rest => toJson set :: toJsons rest

end

def decode : Json.Decoder VariableSet :=
  .fix fun decode depth json => do
    let choice ← json.alternative depth
    match choice.name with
    | "Concrete" =>
      let record ← choice.holding (Json.record ["vars"])
      return .concrete (.ofList (← record.required "vars" (Json.list Json.text)))
    | "Quantified" =>
      let record ← choice.holding (Json.record ["name"])
      return .quantified (← record.required "name" Json.text)
    | "Union" =>
      let record ← choice.holding (Json.record ["sets"])
      return .union (← record.required "sets" (Json.list decode))
    | _ => none

end VariableSet

namespace Effect

mutual

def toJson : Effect → Json
  | .concrete footprint => .ofFields [("Concrete", .ofFields
      [("read", footprint.read.toJson), ("update", footprint.update.toJson),
        ("temporal", footprint.temporal.toJson)])]
  | .quantified name => .ofFields [("Quantified", .ofFields [("name", .ofText name)])]
  | .arrow params result => .ofFields [("Arrow", .ofFields
      [("params", .array (toJsons params)), ("result", toJson result)])]

def toJsons : List Effect → List Json
  | [] => []
  | effect :: rest => toJson effect :: toJsons rest

end

def decode : Json.Decoder Effect :=
  .fix fun decode depth json => do
    let choice ← json.alternative depth
    match choice.name with
    | "Concrete" =>
      let record ← choice.holding (Json.record ["read", "update", "temporal"])
      return .concrete
        ⟨← record.required "read" VariableSet.decode, ← record.required "update" VariableSet.decode,
          ← record.required "temporal" VariableSet.decode⟩
    | "Quantified" =>
      let record ← choice.holding (Json.record ["name"])
      return .quantified (← record.required "name" Json.text)
    | "Arrow" =>
      let record ← choice.holding (Json.record ["params", "result"])
      return .arrow (← record.required "params" (Json.list decode))
        (← record.required "result" decode)
    | _ => none

end Effect

namespace Binding

def toJson (binding : Binding) : Json :=
  match binding.value with
  | .effect value => .ofFields
      [("kind", .ofText "effect"), ("name", .ofText binding.name), ("value", value.toJson)]
  | .variables value => .ofFields
      [("kind", .ofText "variables"), ("name", .ofText binding.name), ("value", value.toJson)]

/-- The kind decides how the value is read and may come last, so nothing in a binding is passed over
unread. -/
def decode : Json.Decoder Binding := fun depth json => do
  if !json.isReadable depth then none
  let record ← json.record ["kind", "name", "value"] depth
  let name ← record.required "name" Json.text
  match ← record.required "kind" Json.text with
  | "effect" => return ⟨name, .effect (← record.required "value" Effect.decode)⟩
  | "variables" => return ⟨name, .variables (← record.required "value" VariableSet.decode)⟩
  | _ => none

end Binding

namespace Substitution

def toJson (σ : Substitution) : Json := .array (σ.bindings.map Binding.toJson)

def decode : Json.Decoder Substitution := fun depth json => do
  return ⟨← Json.list Binding.decode depth json⟩

end Substitution

end SpecEffects
