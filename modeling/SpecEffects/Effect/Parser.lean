import SpecEffects.Effect.Basic
import SpecEffects.Text

/-!
Reading effects from text, in the syntax in which they are printed:

  effect     = arrow | concrete | name
  arrow      = "(" [effect {"," effect}] ")" "=>" effect
  concrete   = "Pure" | component {"&" component}
  component  = ("Read" | "Update" | "Temporal") "[" [member {"," member}] "]"
  member     = "'" identifier "'" | name

Blanks may stand before every token but not between quotes, and a name is an identifier that is not
one of the four words. Each reader takes characters from the front and returns what it read with the
rest. A list ends before a divider that no item follows.
-/
namespace SpecEffects.Effect

inductive ParseFault where
  | invalid
  | trailing
  deriving DecidableEq

/-- A fault, and how many bytes of UTF-8 stand before it. -/
structure ParseError where
  fault : ParseFault
  offset : Nat
  deriving DecidableEq

namespace ParseError

def detail (error : ParseError) : String :=
  match error.fault with
  | .invalid => "invalid effect: Parsing Error: ContextError \x7b context: [], cause: None \x7d"
  | .trailing => "trailing input after effect"

def message (error : ParseError) : String :=
  "parse error at offset " ++ toString error.offset ++ ": " ++ error.detail

end ParseError

namespace Parsing
open Text (Scanner)

def isBlank (c : Char) : Bool :=
  c = ' ' || c = '\t' || c = '\n' || c = '\x0c' || c = '\r'

def isNameStart (c : Char) : Bool := c.isAlpha || c = '_'

def isNameChar (c : Char) : Bool := c.isAlphanum || c = '_'

def keywords : List String := ["Pure", "Read", "Update", "Temporal"]

def skipBlanks (cs : List Char) : List Char := cs.dropWhile isBlank

def symbol (mark : Char) (cs : List Char) : Option (List Char) :=
  match skipBlanks cs with
  | c :: rest => if c = mark then some rest else none
  | [] => none

def identifier : Scanner String
  | c :: rest =>
    if isNameStart c then
      some (String.ofList (c :: rest.takeWhile isNameChar), rest.dropWhile isNameChar)
    else none
  | [] => none

def name : Scanner String := fun cs => do
  let (name, rest) ← identifier cs
  if name ∈ keywords then none else some (name, rest)

def following {α : Type} (item : Scanner α) (divider : List Char → Option (List Char)) :
    Nat → List Char → List α × List Char
  | 0, cs => ([], cs)
  | limit + 1, cs =>
    match (divider cs).bind item with
    | none => ([], cs)
    | some (first, rest) =>
      let (more, rest) := following item divider limit rest
      (first :: more, rest)

def separated {α : Type} (item : Scanner α) (divider : List Char → Option (List Char))
    (cs : List Char) : List α × List Char :=
  match item cs with
  | none => ([], cs)
  | some (first, rest) =>
    let (more, rest) := following item divider rest.length rest
    (first :: more, rest)

def member : Scanner VariableSet
  | '\'' :: cs => do
    let (var, rest) ← identifier cs
    match rest with
    | '\'' :: rest => some (.concrete (.singleton var), rest)
    | _ => none
  | cs => do
    let (name, rest) ← name cs
    some (.quantified name, rest)

def componentKeyword : Scanner Component
  | 'R' :: 'e' :: 'a' :: 'd' :: rest => some (.read, rest)
  | 'U' :: 'p' :: 'd' :: 'a' :: 't' :: 'e' :: rest => some (.update, rest)
  | 'T' :: 'e' :: 'm' :: 'p' :: 'o' :: 'r' :: 'a' :: 'l' :: rest => some (.temporal, rest)
  | _ => none

def component : Scanner (Component × VariableSet) := fun cs => do
  let (component, rest) ← componentKeyword cs
  let rest ← symbol '[' rest
  let comma := fun cs => (symbol ',' cs).map skipBlanks
  let (members, rest) := separated member comma (skipBlanks rest)
  let rest ← symbol ']' rest
  return ((component, .join members), rest)

def pureWord : Scanner Effect
  | 'P' :: 'u' :: 'r' :: 'e' :: rest =>
    if rest.head?.any isNameChar then none else some (.empty, rest)
  | _ => none

def components : Scanner Effect := fun cs =>
  match separated component (fun cs => (symbol '&' cs).map skipBlanks) cs with
  | ([], _) => none
  | (parts, rest) => some (.concrete (.ofParts parts), rest)

def quantified : Scanner Effect := fun cs => do
  let (name, rest) ← name cs
  some (.quantified name, rest)

def arrow (effect : Scanner Effect) : Scanner Effect
  | '(' :: cs => do
    let (params, rest) := separated effect (symbol ',') cs
    let rest ← symbol ')' rest
    match skipBlanks rest with
    | '=' :: '>' :: rest =>
      let (result, rest) ← effect rest
      some (.arrow params result, rest)
    | _ => none
  | _ => none

/-- Arrows may be nested to the given depth. Each of them takes a bracket, so the number of
characters is depth enough. -/
def effect : Nat → Scanner Effect
  | 0, _ => none
  | depth + 1, cs =>
    let cs := skipBlanks cs
    arrow (effect depth) cs <|> pureWord cs <|> components cs <|> quantified cs

def byteLength : List Char → Nat
  | [] => 0
  | c :: rest => c.utf8Size + byteLength rest

end Parsing

open Parsing in
def parse (text : String) : Except ParseError Effect :=
  let cs := text.toList
  match effect (cs.length + 1) cs with
  | none => .error ⟨.invalid, byteLength (cs.takeWhile isBlank)⟩
  | some (parsed, rest) =>
    match skipBlanks rest with
    | [] => .ok parsed
    | rest => .error ⟨.trailing, byteLength cs - byteLength rest⟩

end SpecEffects.Effect
