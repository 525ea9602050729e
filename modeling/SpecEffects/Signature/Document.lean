import SpecEffects.Effect.Json
import SpecEffects.Effect.Parser
import SpecEffects.Signature.Basic

/-!
Signature tables written as JSON documents: an object with, for each builtin, the text of its effect
or the components that it propagates. A signature may not use one name both for an effect and for a
set of variables.
-/
namespace SpecEffects

inductive SignatureSpec where
  | effect (text : String)
  | propagate (components : List Component)

namespace SignatureSpec

def toJson : SignatureSpec → Json
  | .effect text => .ofFields [("effect", .ofText text)]
  | .propagate components => .ofFields [("propagate", .array (components.map Component.toJson))]

def decode : Json.Decoder SignatureSpec := fun depth json => do
  let choice ← json.alternative depth
  match choice.name with
  | "effect" => return .effect (← choice.holding Json.text)
  | "propagate" => return .propagate (← choice.holding (Json.list Component.decode))
  | _ => none

end SignatureSpec

inductive SignatureError where
  | document
  | malformed (name : String) (error : Effect.ParseError)
  | sharedName (name shared : String)
  deriving DecidableEq

namespace SignatureError

def message : SignatureError → String
  | .document => "invalid signature table"
  | .malformed name error => "invalid signature for " ++ name ++ ": " ++ error.message
  | .sharedName name shared =>
    "invalid signature for " ++ name ++ ": `" ++ shared ++
      "` names both an effect and a variable set"

end SignatureError

namespace SignatureTable

def sharedName? (effect : Effect) : Option String :=
  effect.effectNames.toList.find? fun name => name ∈ effect.variableNames

def readSignature (name : String) : SignatureSpec → Except SignatureError Signature
  | .propagate components => .ok (.propagate components)
  | .effect text =>
    match Effect.parse text with
    | .error error => .error (.malformed name error)
    | .ok effect =>
      match sharedName? effect with
      | some shared => .error (.sharedName name shared)
      | none => .ok (.fixed effect)

def readSignatures :
    List (String × SignatureSpec) → Except SignatureError (List (String × Signature))
  | [] => .ok []
  | (name, spec) :: rest => do
    let signature ← readSignature name spec
    let rest ← readSignatures rest
    return (name, signature) :: rest

/-- Of two entries with one name the later counts. -/
def decodeSpecs : Json.Decoder (SortedMap String SignatureSpec) := fun depth json => do
  let (depth, fields) ← json.fields depth
  let specs ← fields.mapM fun field => do return (field.1, ← SignatureSpec.decode depth field.2)
  return .ofList specs

/-- Reads a table; the entries are looked at in order of their names. -/
def ofDocument (text : String) : Except SignatureError SignatureTable :=
  match Json.decodeText? decodeSpecs text with
  | none => .error .document
  | some specs => do return .ofList (← readSignatures specs.entries)

end SignatureTable

end SpecEffects
