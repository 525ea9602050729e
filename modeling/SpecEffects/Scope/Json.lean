import SpecEffects.Scope.Names
import SpecEffects.Tree.Json

/-!
Definitions of names as JSON documents.
-/
namespace SpecEffects

namespace DefinitionKind

def toJson : DefinitionKind → Json
  | .parameter => .ofText "Parameter"
  | .constant => .ofText "Constant"
  | .stateVariable => .ofText "StateVariable"
  | .operator => .ofText "Operator"

def decode : Json.Decoder DefinitionKind := fun depth json => do
  let choice ← json.alternative depth
  if choice.isBare then
    match choice.name with
    | "Parameter" => some .parameter
    | "Constant" => some .constant
    | "StateVariable" => some .stateVariable
    | "Operator" => some .operator
    | _ => none
  else none

end DefinitionKind

namespace NameDefinition

def toJson (definition : NameDefinition) : Json :=
  .ofFields [("kind", definition.kind.toJson), ("identifier", .ofText definition.identifier),
    ("reference", optionalId definition.reference), ("scope", optionalId definition.scope)]
where
  optionalId : Option NodeId → Json
    | some id => id.toJson
    | none => .null

def decode : Json.Decoder NameDefinition := fun depth json => do
  let record ← json.record ["kind", "identifier", "reference", "scope"] depth
  return ⟨← record.required "kind" DefinitionKind.decode, ← record.required "identifier" Json.text,
    ← record.optional "reference" NodeId.decode, ← record.optional "scope" NodeId.decode⟩

end NameDefinition

end SpecEffects
