import SpecEffects.Json.Basic
import SpecEffects.Text

/-!
Reading JSON documents. A document is one value with nothing but blanks around it. Lexemes are
checked for their syntax only, and containers may be nested to any depth.
-/
namespace SpecEffects.Json

namespace Reader
open Text (Scanner)

def isBlank (c : Char) : Bool := c = ' ' || c = '\t' || c = '\n' || c = '\r'

def skipBlanks (cs : List Char) : List Char := cs.dropWhile isBlank

def stringLexeme : Scanner (List Char)
  | [] => none
  | '"' :: rest => some ([], rest)
  | '\\' :: 'u' :: a :: b :: c :: d :: rest => do
    let _ ← codeUnit? a b c d
    let (lexeme, rest) ← stringLexeme rest
    return ('\\' :: 'u' :: a :: b :: c :: d :: lexeme, rest)
  | '\\' :: c :: rest => do
    let _ ← simpleEscape? c
    let (lexeme, rest) ← stringLexeme rest
    return ('\\' :: c :: lexeme, rest)
  | c :: rest =>
    if c.toNat < 0x20 then none
    else do
      let (lexeme, rest) ← stringLexeme rest
      return (c :: lexeme, rest)

def digits : Scanner (List Char) := fun cs =>
  match cs.takeWhile Char.isDigit with
  | [] => none
  | ds => some (ds, cs.dropWhile Char.isDigit)

def sign : List Char → List Char × List Char
  | '-' :: rest => (['-'], rest)
  | cs => ([], cs)

def wholePart : Scanner (List Char)
  | '0' :: rest => some (['0'], rest)
  | cs => digits cs

def fraction : Scanner (List Char)
  | '.' :: rest => do
    let (ds, rest) ← digits rest
    return ('.' :: ds, rest)
  | cs => some ([], cs)

def exponentDigits (mark : Char) : Scanner (List Char)
  | '+' :: rest => do
    let (ds, rest) ← digits rest
    return (mark :: '+' :: ds, rest)
  | '-' :: rest => do
    let (ds, rest) ← digits rest
    return (mark :: '-' :: ds, rest)
  | cs => do
    let (ds, rest) ← digits cs
    return (mark :: ds, rest)

def exponent : Scanner (List Char)
  | 'e' :: rest => exponentDigits 'e' rest
  | 'E' :: rest => exponentDigits 'E' rest
  | cs => some ([], cs)

def numberLexeme : Scanner (List Char) := fun cs => do
  let (minus, rest) := sign cs
  let (whole, rest) ← wholePart rest
  let (part, rest) ← fraction rest
  let (power, rest) ← exponent rest
  return (minus ++ whole ++ part ++ power, rest)

def items {α : Type} (item : Scanner α) (close : Char) : Nat → Scanner (List α)
  | 0, _ => none
  | limit + 1, cs => do
    let (first, rest) ← item cs
    match skipBlanks rest with
    | ',' :: rest =>
      let (more, rest) ← items item close limit rest
      return (first :: more, rest)
    | c :: rest => if c = close then some ([first], rest) else none
    | [] => none

def container {α : Type} (item : Scanner α) (close : Char) (limit : Nat) : Scanner (List α) :=
    fun cs =>
  match skipBlanks cs with
  | c :: rest => if c = close then some ([], rest) else items item close limit (c :: rest)
  | [] => none

def field (value : Scanner Json) : Scanner (String × Json) := fun cs =>
  match skipBlanks cs with
  | '"' :: rest => do
    let (key, rest) ← stringLexeme rest
    match skipBlanks rest with
    | ':' :: rest =>
      let (value, rest) ← value rest
      return ((String.ofList key, value), rest)
    | _ => none
  | _ => none

/-- Each container takes a bracket and each item at least one character, so the number of
characters bounds both the depth and the number of items. -/
def value : Nat → Scanner Json
  | 0, _ => none
  | limit + 1, cs =>
    match skipBlanks cs with
    | 'n' :: 'u' :: 'l' :: 'l' :: rest => some (.null, rest)
    | 't' :: 'r' :: 'u' :: 'e' :: rest => some (.bool true, rest)
    | 'f' :: 'a' :: 'l' :: 's' :: 'e' :: rest => some (.bool false, rest)
    | '"' :: rest => do
      let (lexeme, rest) ← stringLexeme rest
      return (.string (String.ofList lexeme), rest)
    | '[' :: rest => do
      let (items, rest) ← container (value limit) ']' limit rest
      return (.array items, rest)
    | '\x7b' :: rest => do
      let (fields, rest) ← container (field (value limit)) '\x7d' limit rest
      return (.object fields, rest)
    | cs => do
      let (lexeme, rest) ← numberLexeme cs
      return (.number (String.ofList lexeme), rest)

end Reader

def parse? (text : String) : Option Json :=
  let cs := text.toList
  match Reader.value (cs.length + 1) cs with
  | some (json, rest) => if (Reader.skipBlanks rest).isEmpty then some json else none
  | none => none

end SpecEffects.Json
