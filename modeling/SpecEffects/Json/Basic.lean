/-!
JSON documents as they are written. Strings, keys and numbers are kept as lexemes, so nothing that a
reader of the document may care about is lost: the order of fields, a field given twice, an escape
without a character of its own, a number with a fraction. `unescape` and `integer?` give the lexemes
their meaning.
-/
namespace SpecEffects

inductive Json where
  | null
  | bool (value : Bool)
  | number (lexeme : String)
  | string (lexeme : String)
  | array (items : List Json)
  | object (fields : List (String × Json))

namespace Json

def simpleEscapes : List (Char × Char) :=
  [('"', '"'), ('\\', '\\'), ('/', '/'), ('b', '\x08'), ('f', '\x0c'), ('n', '\n'), ('r', '\r'),
    ('t', '\t')]

def simpleEscape? (c : Char) : Option Char :=
  (simpleEscapes.find? fun escape => escape.1 = c).map Prod.snd

def hexDigit? (c : Char) : Option Nat :=
  if '0' ≤ c ∧ c ≤ '9' then some (c.toNat - '0'.toNat)
  else if 'a' ≤ c ∧ c ≤ 'f' then some (c.toNat - 'a'.toNat + 10)
  else if 'A' ≤ c ∧ c ≤ 'F' then some (c.toNat - 'A'.toNat + 10)
  else none

def codeUnit? (a b c d : Char) : Option Nat := do
  return 4096 * (← hexDigit? a) + 256 * (← hexDigit? b) + 16 * (← hexDigit? c) + (← hexDigit? d)

def isHighSurrogate (unit : Nat) : Bool := 0xD800 ≤ unit && unit < 0xDC00

def isLowSurrogate (unit : Nat) : Bool := 0xDC00 ≤ unit && unit < 0xE000

def unescapeChars : List Char → Option (List Char)
  | [] => some []
  | '\\' :: 'u' :: a :: b :: c :: d :: rest => do
    let unit ← codeUnit? a b c d
    if isHighSurrogate unit then
      match rest with
      | '\\' :: 'u' :: a :: b :: c :: d :: rest =>
        let low ← codeUnit? a b c d
        if isLowSurrogate low then
          let c := Char.ofNat (0x10000 + 1024 * (unit - 0xD800) + (low - 0xDC00))
          return c :: (← unescapeChars rest)
        else none
      | _ => none
    else if isLowSurrogate unit then none
    else return Char.ofNat unit :: (← unescapeChars rest)
  | '\\' :: c :: rest => do return (← simpleEscape? c) :: (← unescapeChars rest)
  | c :: rest => do return c :: (← unescapeChars rest)

/-- The text of a string lexeme. A surrogate escape without its partner has none. -/
def unescape (lexeme : String) : Option String :=
  (unescapeChars lexeme.toList).map String.ofList

def hex (width n : Nat) : String :=
  let digits := Nat.toDigits 16 n
  String.ofList (List.replicate (width - digits.length) '0' ++ digits)

/-- Only what must be escaped is. -/
def escapeChar (c : Char) : String :=
  if c = '"' then "\\\""
  else if c = '\\' then "\\\\"
  else if c.toNat < 0x20 then "\\u" ++ hex 4 c.toNat
  else String.singleton c

def escape (text : String) : String := String.join (text.toList.map escapeChar)

def ofText (text : String) : Json := .string (escape text)

def ofNat (n : Nat) : Json := .number (toString n)

def ofInt (n : Int) : Json := .number (toString n)

def ofFields (fields : List (String × Json)) : Json :=
  .object (fields.map fun field => (escape field.1, field.2))

def ofTexts (texts : List String) : Json := .array (texts.map ofText)

mutual

def print : Json → String
  | .null => "null"
  | .bool value => if value then "true" else "false"
  | .number lexeme => lexeme
  | .string lexeme => "\"" ++ lexeme ++ "\""
  | .array items => "[" ++ ",".intercalate (printItems items) ++ "]"
  | .object fields => "\x7b" ++ ",".intercalate (printFields fields) ++ "\x7d"

def printItems : List Json → List String
  | [] => []
  | item :: rest => print item :: printItems rest

def printFields : List (String × Json) → List String
  | [] => []
  | (key, value) :: rest => ("\"" ++ key ++ "\":" ++ print value) :: printFields rest

end

end Json

end SpecEffects
