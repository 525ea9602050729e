import SpecEffects.Json.Decoder
import SpecEffects.Tree.Basic

/-!
Modules and their parts as JSON documents.
-/
namespace SpecEffects

namespace NodeId

def toJson (id : NodeId) : Json := .ofNat id.val.toNat

def decode : Json.Decoder NodeId := fun depth json => do
  return ⟨UInt64.ofNat (← json.word depth)⟩

end NodeId

namespace Param

def toJson (param : Param) : Json :=
  .ofFields [("id", param.id.toJson), ("name", .ofText param.name)]

def decode : Json.Decoder Param := fun depth json => do
  let record ← json.record ["id", "name"] depth
  return ⟨← record.required "id" NodeId.decode, ← record.required "name" Json.text⟩

end Param

namespace Literal

def toJson : Literal → Json
  | .bool value => .ofFields [("Bool", .bool value)]
  | .int value => .ofFields [("Int", .ofInt value.toInt)]
  | .str value => .ofFields [("Str", .ofText value)]

def decodeInt : Json.Decoder Literal := fun depth json => do
  return .int (Int64.ofInt (← json.integer Int64.minValue.toInt Int64.maxValue.toInt depth))

end Literal

namespace Definition

def fieldNames : List String := ["id", "name", "body"]

def toJsonWith (id : NodeId) (name : String) (body : Json) : Json :=
  .ofFields [("id", id.toJson), ("name", .ofText name), ("body", body)]

def decodeWith (expr : Json.Decoder Expr) : Json.Decoder Definition := fun depth json => do
  let record ← json.record fieldNames depth
  return ⟨← record.required "id" NodeId.decode, ← record.required "name" Json.text,
    ← record.required "body" expr⟩

end Definition

namespace Expr

mutual

def toJson : Expr → Json
  | .literal id value => node id value.toJson
  | .ref id name => node id (.ofFields [("Name", .ofText name)])
  | .app id operator args => node id (.ofFields [("App", .ofFields
      [("operator", .ofText operator), ("args", .array (toJsons args))])])
  | .lambda id params body => node id (.ofFields [("Lambda", .ofFields
      [("params", .array (params.map Param.toJson)), ("body", toJson body)])])
  | .letIn id defId name bound body => node id (.ofFields [("Let", .ofFields
      [("def", Definition.toJsonWith defId name (toJson bound)), ("body", toJson body)])])
where
  node (id : NodeId) (kind : Json) : Json := .ofFields [("id", id.toJson), ("kind", kind)]

def toJsons : List Expr → List Json
  | [] => []
  | expr :: rest => toJson expr :: toJsons rest

end

def decodeKind (decode : Json.Decoder Expr) (id : NodeId) : Json.Decoder Expr :=
    fun depth json => do
  let choice ← json.alternative depth
  match choice.name with
  | "Bool" => return .literal id (.bool (← choice.holding Json.boolean))
  | "Int" => return .literal id (← choice.holding Literal.decodeInt)
  | "Str" => return .literal id (.str (← choice.holding Json.text))
  | "Name" => return .ref id (← choice.holding Json.text)
  | "App" =>
    let record ← choice.holding (Json.record ["operator", "args"])
    return .app id (← record.required "operator" Json.text)
      (← record.required "args" (Json.list decode))
  | "Lambda" =>
    let record ← choice.holding (Json.record ["params", "body"])
    return .lambda id (← record.required "params" (Json.list Param.decode))
      (← record.required "body" decode)
  | "Let" =>
    let record ← choice.holding (Json.record ["def", "body"])
    let definition ← record.required "def" (Definition.decodeWith decode)
    return .letIn id definition.id definition.name definition.body (← record.required "body" decode)
  | _ => none

def decode : Json.Decoder Expr :=
  .fix fun decode depth json => do
    let record ← json.record ["id", "kind"] depth
    let id ← record.required "id" NodeId.decode
    record.required "kind" (decodeKind decode id)

end Expr

namespace Definition

def toJson (definition : Definition) : Json :=
  toJsonWith definition.id definition.name definition.body.toJson

def decode : Json.Decoder Definition := decodeWith Expr.decode

end Definition

namespace Module

def toJsonWith (id : NodeId) (name : String) (declarations : List Json) : Json :=
  .ofFields [("id", id.toJson), ("name", .ofText name), ("declarations", .array declarations)]

def decodeWith (declaration : Json.Decoder Declaration) : Json.Decoder Module :=
    fun depth json => do
  let record ← json.record ["id", "name", "declarations"] depth
  return ⟨← record.required "id" NodeId.decode, ← record.required "name" Json.text,
    ← record.required "declarations" (Json.list declaration)⟩

end Module

namespace Declaration

mutual

def toJson : Declaration → Json
  | .stateVariable id name =>
    .ofFields [("StateVariable", .ofFields [("id", id.toJson), ("name", .ofText name)])]
  | .constant id name =>
    .ofFields [("Constant", .ofFields [("id", id.toJson), ("name", .ofText name)])]
  | .operator definition => .ofFields [("Operator", definition.toJson)]
  | .assumption id name expr => .ofFields [("Assumption", .ofFields
      [("id", id.toJson), ("name", .ofText name), ("expr", expr.toJson)])]
  | .submodule id name declarations =>
    .ofFields [("Module", Module.toJsonWith id name (toJsons declarations))]

def toJsons : List Declaration → List Json
  | [] => []
  | declaration :: rest => toJson declaration :: toJsons rest

end

def decode : Json.Decoder Declaration :=
  .fix fun decode depth json => do
    let choice ← json.alternative depth
    match choice.name with
    | "StateVariable" =>
      let record ← choice.holding (Json.record ["id", "name"])
      return .stateVariable (← record.required "id" NodeId.decode)
        (← record.required "name" Json.text)
    | "Constant" =>
      let record ← choice.holding (Json.record ["id", "name"])
      return .constant (← record.required "id" NodeId.decode)
        (← record.required "name" Json.text)
    | "Operator" => return .operator (← choice.holding Definition.decode)
    | "Assumption" =>
      let record ← choice.holding (Json.record ["id", "name", "expr"])
      return .assumption (← record.required "id" NodeId.decode) (← record.required "name" Json.text)
        (← record.required "expr" Expr.decode)
    | "Module" => return (← choice.holding (Module.decodeWith decode)).toDeclaration
    | _ => none

end Declaration

namespace Module

def toJson (m : Module) : Json :=
  toJsonWith m.id m.name (Declaration.toJsons m.declarations)

def decode : Json.Decoder Module := decodeWith Declaration.decode

end Module

end SpecEffects
