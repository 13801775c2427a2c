import WasmText.Literal.Integer
import WasmText.Literal.Rounding
/-!
# Float literals

A float is an optional sign and one of: `inf`; `nan`, with or without a
payload; a hexadecimal number with a binary exponent; a decimal number.
Decimal numbers are rounded once, straight to the format asked for;
hexadecimal ones are left to a reader that the library is given
(`HexReader`). A text that is no float is told apart from a number too
large for the format.
-/

namespace WasmText

/-- A reader of hexadecimal numbers, which the library is given. It finds
the sign of a value and the pattern of its magnitude, or nothing; a pattern
above that of infinity is of no number. -/
class HexReader where
  read? : FloatFormat → List Char → Option (Bool × Nat)

namespace Literal

/-- Why a text is not a float of some format. -/
inductive FloatFault where
  | invalid
  | outOfRange
deriving DecidableEq

/-- An exponent: an optional sign and decimal digits. -/
def exponent? : List Char → Option Int
  | '-' :: cs => (digits? 10 cs).map fun n => -(n : Int)
  | '+' :: cs => (digits? 10 cs).map Int.ofNat
  | cs => (digits? 10 cs).map Int.ofNat

/-! ## Decimal numbers -/

/-- The integer `m` and power `e` such that a decimal text denotes
`m * 10 ^ e`: digits with at most one point among or around them, and an
exponent after `e` or `E`. -/
def decimal? (text : List Char) : Option (Nat × Int) := do
  let whole := text.takeWhile Char.isDigit
  let rest := text.dropWhile Char.isDigit
  let point := rest.head? == some '.'
  let fraction := if point then (rest.drop 1).takeWhile Char.isDigit else []
  let rest := if point then (rest.drop 1).dropWhile Char.isDigit else rest
  let m ← digits? 10 (whole ++ fraction)
  let e ←
    match rest with
    | [] => some 0
    | c :: cs => if c = 'e' ∨ c = 'E' then exponent? cs else none
  return (m, e - fraction.length)

/-- The sign and pattern of a decimal text, which may carry a sign of its
own. The words for infinity, in any case of letters, are out of range. -/
def decimalBits (f : FloatFormat) (text : List Char) : Except FloatFault (Bool × Nat) :=
  let (negative, body) := splitSign text
  let lower := body.map Char.toLower
  if lower = "inf".toList ∨ lower = "infinity".toList then .error .outOfRange
  else
    match decimal? body with
    | none => .error .invalid
    | some (m, e) => .ok (negative, f.nearestScaled 10 m e)

/-! ## Hexadecimal numbers -/

/-- A hexadecimal body as a reader is given it: in lower case, with an
exponent. -/
def readerText (body : List Char) : List Char :=
  let lower := body.map Char.toLower
  if 'p' ∈ lower then lower else lower ++ ['p', '0']

/-- The sign and pattern of a hexadecimal body. What is read as no number
is invalid. -/
def hexadecimalBits [HexReader] (f : FloatFormat) (body : List Char) :
    Except FloatFault (Bool × Nat) :=
  match HexReader.read? f (readerText body) with
  | some (negative, bits) => if bits ≤ f.infinity then .ok (negative, bits) else .error .invalid
  | none => .error .invalid

/-! ## All floats -/

/-- The sign and pattern of a float that is a number, after one sign has
been taken off the text. -/
def finiteBits [HexReader] (f : FloatFormat) (body : List Char) :
    Except FloatFault (Bool × Nat) := do
  let (negative, bits) ←
    if (afterHexMark? body).isSome then hexadecimalBits f body else decimalBits f body
  if bits < f.infinity then return (negative, bits) else throw .outOfRange

/-- A payload lies between zero and the significand field. -/
def payload? (f : FloatFormat) (text : List Char) : Option Nat :=
  (plusDigits? 16 text).filter fun p => 0 < p && p < Nat.pow 2 f.precision

/-- The bit pattern of a float literal. -/
def float [HexReader] (f : FloatFormat) (text : List Char) : Except FloatFault Nat := do
  let (negative, body) := splitSign text
  let (negative', bits) ←
    if body = "inf".toList then .ok (false, f.infinity)
    else if body = "nan".toList then .ok (false, f.canonicalNaN)
    else if "nan:0x".toList.isPrefixOf body then
      match payload? f (body.drop 6) with
      | some p => .ok (false, f.infinity + p)
      | none => .error .invalid
    else finiteBits f body
  return if negative != negative' then f.signBit + bits else bits

end Literal

end WasmText
