import SpecEffects.Inference.Traversal
import SpecEffects.Tree.Json

/-!
Analysis of a module, and the report on it: the text of every effect, and a diagnostic for every
node at which something went wrong.
-/
namespace SpecEffects

structure Diagnostic where
  node : NodeId
  message : String
  deriving DecidableEq

namespace Diagnostic

def text (diagnostic : Diagnostic) : String := diagnostic.node.text ++ ": " ++ diagnostic.message

def toJson (diagnostic : Diagnostic) : Json :=
  .ofFields [("node", diagnostic.node.toJson), ("message", .ofText diagnostic.message)]

def decode : Json.Decoder Diagnostic := fun depth json => do
  let record ← json.record ["node", "message"] depth
  return ⟨← record.required "node" NodeId.decode, ← record.required "message" Json.text⟩

end Diagnostic

structure Report where
  effects : SortedMap NodeId String
  diagnostics : List Diagnostic

namespace Report

def toJson (report : Report) : Json :=
  .ofFields
    [("effects", .ofFields (report.effects.entries.map fun entry =>
        (toString entry.1.val.toNat, .ofText entry.2))),
      ("diagnostics", .array (report.diagnostics.map Diagnostic.toJson))]

/-- An id as the key of an object: the lexeme of an unsigned integer, without escapes. -/
def decodeKey (lexeme : String) : Option NodeId :=
  match lexeme.toList with
  | '0' :: _ :: _ => none
  | _ => NodeId.decode 0 (.number lexeme)

def decodeEffects : Json.Decoder (SortedMap NodeId String)
  | depth + 1, .object fields => do
    let entries ← fields.mapM fun field => do
      return (← decodeKey field.1, ← Json.text depth field.2)
    return .ofList entries
  | _, _ => none

def decode : Json.Decoder Report := fun depth json => do
  let record ← json.record ["effects", "diagnostics"] depth
  return ⟨← record.required "effects" decodeEffects,
    ← record.required "diagnostics" (Json.list Diagnostic.decode)⟩

end Report

structure Analysis where
  effects : SortedMap NodeId Effect
  diagnostics : List Diagnostic

namespace Inference.State

/-- The ids of the nodes with an effect, or of those with an error if there are any. -/
def finish (state : State) : Except (List NodeId) (List NodeId) :=
  if state.errors.isEmpty then .ok state.effects.keys else .error state.errors.keys

def analysis (state : State) : Analysis :=
  ⟨state.effects, state.errors.entries.map fun entry => ⟨entry.1, entry.2.message⟩⟩

end Inference.State

namespace Analysis

def isOk (analysis : Analysis) : Bool := analysis.diagnostics.isEmpty

def effectOf? (analysis : Analysis) (node : NodeId) : Option Effect := analysis.effects.get? node

def report (analysis : Analysis) : Report where
  effects := ⟨analysis.effects.entries.map fun entry => (entry.1, entry.2.text), by
    have ascending := analysis.effects.ascending
    simpa [Function.comp_def] using ascending⟩
  diagnostics := analysis.diagnostics

end Analysis

namespace Module

def environment (signatures : SignatureTable) (m : Module) : Inference.Environment :=
  ⟨signatures, m.nameTables signatures.keys⟩

def infer (signatures : SignatureTable) (m : Module) : Inference.Result :=
  Inference.inferModule (m.environment signatures) .start m

def analyze (signatures : SignatureTable) (m : Module) : Except Inference.Halt Analysis := do
  let state ← m.infer signatures
  return state.analysis

end Module

end SpecEffects
