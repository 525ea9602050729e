/-!
The meaning of number lexemes. Integers are read exactly. Of other numbers it only matters whether
they are in the range of doubles: digits are taken into a significand of 64 bits as long as they
fit, and the significand times its power of ten has to stay finite when doubles are multiplied.
-/
namespace SpecEffects.Json

def digitValue (c : Char) : Nat := c.toNat - '0'.toNat

def natOfDigits (digits : List Char) : Nat :=
  digits.foldl (fun n c => 10 * n + digitValue c) 0

def natOfDigits? (digits : List Char) : Option Nat :=
  if !digits.isEmpty && digits.all Char.isDigit then some (natOfDigits digits) else none

/-- The integer that a number lexeme writes without fraction and exponent. Zero has no sign. -/
def integer? (lexeme : String) : Option Int :=
  match lexeme.toList with
  | '-' :: digits => do
    let n ← natOfDigits? digits
    if n = 0 then none else some (-(n : Int))
  | digits => (natOfDigits? digits).map Int.ofNat

def powerOfDigits : List Char → Int
  | '-' :: digits => -(natOfDigits digits : Int)
  | '+' :: digits => natOfDigits digits
  | digits => natOfDigits digits

structure Decimal where
  significand : Nat
  power : Int

namespace Decimal

/-- Takes digits into the significand as long as it fits 64 bits. Gives the digits left over too. -/
def absorb (significand : Nat) : List Char → Nat × List Char
  | [] => (significand, [])
  | c :: rest =>
    let next := 10 * significand + digitValue c
    if next < UInt64.size then absorb next rest else (significand, c :: rest)

/-- Digits left over in front of the point still count by their places. Those behind it do not
count at all. -/
def ofParts (whole fraction : List Char) (power : Int) : Decimal :=
  let (front, left) := absorb 0 whole
  let (significand, dropped) := absorb front fraction
  ⟨significand, power + left.length + dropped.length - fraction.length⟩

def ofLexeme (lexeme : String) : Decimal :=
  let cs := lexeme.toList.dropWhile (· = '-')
  let whole := cs.takeWhile Char.isDigit
  match cs.dropWhile Char.isDigit with
  | '.' :: rest =>
    ofParts whole (rest.takeWhile Char.isDigit)
      (powerOfDigits ((rest.dropWhile Char.isDigit).drop 1))
  | rest => ofParts whole [] (powerOfDigits (rest.drop 1))

/-- Rounds to 53 significant bits. A number halfway between two goes to the even one. -/
def roundToDouble (n : Nat) : Nat :=
  let unit := Nat.pow 2 (n.log2 + 1 - 53)
  let below := n / unit
  let rest := n % unit
  if 2 * rest < unit ∨ 2 * rest = unit ∧ below % 2 = 0 then below * unit else (below + 1) * unit

/-- The significand and the power of ten are rounded, then their product. Doubles are less than the
1024th power of two, so powers of ten above the 308th are beyond them. -/
def isFinite (decimal : Decimal) : Bool :=
  match decimal.power with
  | .negSucc _ => true
  | .ofNat power =>
    decimal.significand = 0 ||
      (power ≤ 308 &&
        roundToDouble (roundToDouble decimal.significand * roundToDouble (Nat.pow 10 power))
          < Nat.pow 2 1024)

end Decimal

end SpecEffects.Json
