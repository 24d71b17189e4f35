import LRMachine.Json
import LRMachine.Text.Decimal

/-!
# JSON numbers

A number is digits without a leading zero, with an optional sign in front, an optional fraction and
an optional exponent. A number whose double would be infinite is no value: the digits that fit 64
bits are rounded to a double, multiplied by the double nearest to the power of ten, and the product
is rounded again.
-/

namespace LRMachine.Json

open Text (digit ofDigits)

/-! ## Doubles of natural numbers -/

/-- The nearest number with 53 significant bits; of two the one whose last bit is even. -/
def roundToDouble (n : Nat) : Nat :=
  let unit := 1 <<< (n.log2 - 52)
  let low := n / unit
  let rest := n % unit
  if 2 * rest > unit || (2 * rest == unit && low % 2 == 1) then (low + 1) * unit else low * unit

/-- The product of a significand and a power of ten has a finite double. -/
def hasFiniteDouble (significand : Nat) (exponent : Int) : Bool :=
  match exponent with
  | .ofNat e =>
    significand == 0 ||
      (e ≤ 308 &&
        roundToDouble (roundToDouble significand * roundToDouble (Nat.pow 10 e)) < 1 <<< 1024)
  | .negSucc _ => true

/-! ## The parts of a number -/

/-- The digits that fit 64 bits, and the power of ten that belongs to them. -/
structure Decimal where
  significand : Nat
  exponent : Int
  isFull : Bool

/-- Takes in a digit in front of the point. -/
def Decimal.pushWhole (d : Decimal) (c : Char) : Decimal :=
  if d.isFull || d.significand * 10 + digit c ≥ UInt64.size then
    { d with exponent := d.exponent + 1, isFull := true }
  else { d with significand := d.significand * 10 + digit c }

/-- Takes in a digit behind the point. -/
def Decimal.pushFraction (d : Decimal) (c : Char) : Decimal :=
  if d.isFull || d.significand * 10 + digit c ≥ UInt64.size then { d with isFull := true }
  else { d with significand := d.significand * 10 + digit c, exponent := d.exponent - 1 }

/-- The digits at the front, and the rest. -/
def spanDigits (cs : List Char) : List Char × List Char := cs.span Char.isDigit

/-- One or more digits. -/
def someDigits (cs : List Char) : Option (List Char × List Char) :=
  match spanDigits cs with
  | ([], _) => none
  | found => some found

/-- The digits in front of the point: a zero stands alone. -/
def wholePart : List Char → Option (List Char × List Char)
  | '0' :: rest => if (rest.head?.any Char.isDigit) then none else some (['0'], rest)
  | cs => someDigits cs

/-- The digits behind a point; none if there is no point. -/
def fractionPart : List Char → Option (Option (List Char) × List Char)
  | '.' :: rest => (someDigits rest).map fun (digits, rest) => (some digits, rest)
  | cs => some (none, cs)

/-- The sign of an exponent, and the rest. -/
def exponentSign : List Char → Bool × List Char
  | '+' :: rest => (false, rest)
  | '-' :: rest => (true, rest)
  | cs => (false, cs)

/-- The exponent behind an `e`; none if there is no `e`. -/
def exponentPart (cs : List Char) : Option (Option Int × List Char) :=
  match cs with
  | c :: rest =>
    if c = 'e' || c = 'E' then
      let (isNegative, rest) := exponentSign rest
      (someDigits rest).map fun (digits, rest) =>
        (some (if isNegative then -(ofDigits digits : Int) else ofDigits digits), rest)
    else some (none, cs)
  | [] => some (none, [])

/-- The sign of a number, and the rest. -/
def numberSign : List Char → Bool × List Char
  | '-' :: rest => (true, rest)
  | cs => (false, cs)

/-- A number and the text behind it. -/
def readNumber (cs : List Char) : Option (Json × List Char) := do
  let (isNegative, body) := numberSign cs
  let (whole, rest) ← wholePart body
  let (fraction, rest) ← fractionPart rest
  let (exponent, rest) ← exponentPart rest
  if !isNegative && fraction.isNone && exponent.isNone && ofDigits whole < UInt64.size then
    some (.natural (ofDigits whole), rest)
  else
    let d := whole.foldl Decimal.pushWhole ⟨0, 0, false⟩
    let d := (fraction.getD []).foldl Decimal.pushFraction { d with isFull := false }
    if hasFiniteDouble d.significand (d.exponent + exponent.getD 0) then
      some (.number (String.ofList (cs.take (cs.length - rest.length))), rest)
    else none

end LRMachine.Json
