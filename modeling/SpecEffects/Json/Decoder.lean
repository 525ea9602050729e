import SpecEffects.Json.Number
import SpecEffects.Json.Reader

/-!
Decoding JSON documents into values. A decoder is told how many containers may still be opened, and
fails rather than open one more. Records are objects in which unknown fields are passed over and no
known field comes twice, or arrays of exactly their fields. Alternatives are objects with the name
of the alternative as only key, or the bare name.
-/
namespace SpecEffects.Json

def nestingLimit : Nat := 127

abbrev Decoder (α : Type) := Nat → Json → Option α

namespace Decoder

def unroll {α : Type} (step : Decoder α → Decoder α) : Nat → Decoder α
  | 0 => fun _ _ => none
  | uses + 1 => step (unroll step uses)

/-- A decoder that uses itself for parts inside a container. The depth that is left bounds the
number of uses. -/
def fix {α : Type} (step : Decoder α → Decoder α) : Decoder α :=
  fun depth json => unroll step (depth + 1) depth json

end Decoder

def text : Decoder String
  | _, .string lexeme => unescape lexeme
  | _, _ => none

def boolean : Decoder Bool
  | _, .bool value => some value
  | _, _ => none

def integer (least greatest : Int) : Decoder Int
  | _, .number lexeme => do
    let n ← integer? lexeme
    if least ≤ n ∧ n ≤ greatest then some n else none
  | _, _ => none

def word : Decoder Nat := fun depth json =>
  (integer 0 (Int.ofNat (UInt64.size - 1)) depth json).map Int.toNat

def nullable {α : Type} (decode : Decoder α) : Decoder (Option α)
  | _, .null => some none
  | depth, json => (decode depth json).map some

def list {α : Type} (decode : Decoder α) : Decoder (List α)
  | depth + 1, .array items => items.mapM (decode depth)
  | _, _ => none

def pair {α β : Type} (first : Decoder α) (second : Decoder β) : Decoder (α × β)
  | depth + 1, .array [a, b] => do return (← first depth a, ← second depth b)
  | _, _ => none

def named (fields : List (String × Json)) : Option (List (String × Json)) :=
  fields.mapM fun field => do return (← unescape field.1, field.2)

def fields : Decoder (Nat × List (String × Json))
  | depth + 1, .object fields => do return (depth, ← named fields)
  | _, _ => none

structure Record where
  depth : Nat
  fields : List (String × Json)

def record (names : List String) : Decoder Record
  | depth + 1, .array items =>
    if items.length = names.length then some ⟨depth, names.zip items⟩ else none
  | depth + 1, .object fields => do
    let known := (← named fields).filter fun field => field.1 ∈ names
    if (known.map Prod.fst).Nodup then some ⟨depth, known⟩ else none
  | _, _ => none

namespace Record

def get? (record : Record) (name : String) : Option Json := record.fields.lookup name

def required {α : Type} (record : Record) (name : String) (decode : Decoder α) : Option α := do
  decode record.depth (← record.get? name)

def optional {α : Type} (record : Record) (name : String) (decode : Decoder α) :
    Option (Option α) :=
  match record.get? name with
  | none => some none
  | some json => nullable decode record.depth json

end Record

/-- One of several alternatives: its name, its content if it has any, and how many containers may be
opened in the content. -/
structure Alternative where
  name : String
  depth : Nat
  content : Option Json

def alternative : Decoder Alternative
  | depth, .string lexeme => do return ⟨← unescape lexeme, depth, none⟩
  | depth + 1, .object [(key, content)] => do return ⟨← unescape key, depth, some content⟩
  | _, _ => none

namespace Alternative

/-- The alternative has no content; `null` counts as none. -/
def isBare (alternative : Alternative) : Bool :=
  match alternative.content with
  | none => true
  | some .null => true
  | some _ => false

def holding {α : Type} (alternative : Alternative) (decode : Decoder α) : Option α := do
  decode alternative.depth (← alternative.content)

end Alternative

mutual

/-- Every string has a text, every number is in range, and containers are not nested deeper than
allowed. -/
def isReadable : Nat → Json → Bool
  | _, .number lexeme => (Decimal.ofLexeme lexeme).isFinite
  | _, .string lexeme => (unescape lexeme).isSome
  | 0, .array _ => false
  | depth + 1, .array items => areReadable depth items
  | 0, .object _ => false
  | depth + 1, .object fields => fieldsReadable depth fields
  | _, _ => true

def areReadable : Nat → List Json → Bool
  | _, [] => true
  | depth, item :: rest => isReadable depth item && areReadable depth rest

def fieldsReadable : Nat → List (String × Json) → Bool
  | _, [] => true
  | depth, (key, value) :: rest =>
    (unescape key).isSome && isReadable depth value && fieldsReadable depth rest

end

def decodeText? {α : Type} (decode : Decoder α) (text : String) : Option α := do
  decode nestingLimit (← parse? text)

end SpecEffects.Json
