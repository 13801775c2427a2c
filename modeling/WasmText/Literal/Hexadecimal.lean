import WasmText.Literal.Float
/-!
# A reader of hexadecimal numbers

A number is digits with a point among or around them, separators anywhere
between, and a binary exponent. The program runs with this reader
(`hexReader`); the theory of the library holds with any other.
-/

namespace WasmText

namespace Literal

/-- The digits of a significand, without separators, and how many of them
follow the point. -/
def hexSignificand? (text : List Char) : Option (Nat × Nat) := do
  let whole := (text.takeWhile (· != '.')).filter (· != '_')
  let fraction := ((text.dropWhile (· != '.')).drop 1).filter (· != '_')
  let m ← digits? 16 (whole ++ fraction)
  return (m, fraction.length)

/-- A binary exponent fits a signed word of 64 bits. One plus may precede
its own sign, and blanks may follow it. -/
def binaryExponent? (text : List Char) : Option Int :=
  let text := (text.reverse.dropWhile isBlank).reverse
  let text := if text.head? == some '+' then text.drop 1 else text
  (exponent? text).filter fun e => -(Nat.pow 2 63 : Int) ≤ e && e < Nat.pow 2 63

/-- The integer `m` and power `e` such that hexadecimal text, after its
mark, denotes `m * 2 ^ e`. -/
def hexadecimal? (text : List Char) : Option (Nat × Int) := do
  let isMark (c : Char) : Bool := c == 'p' || c == 'P'
  let (m, places) ← hexSignificand? (text.takeWhile (!isMark ·))
  let e ←
    match text.dropWhile (!isMark ·) with
    | [] => some 0
    | _ :: cs => binaryExponent? cs
  return (m, e - 4 * places)

/-- The pattern of `m * 2 ^ e`. It is the nearest magnitude, infinity if
that is not finite, except that a number under the least normal one that
rounds up to it keeps its leading bit in the significand field. -/
def scaledBits (f : FloatFormat) (m : Nat) (e : Int) : Nat :=
  let bits := f.nearestScaled 2 m e
  if bits = Nat.pow 2 f.precision ∧ m.log2 + e < (f.precision : Int) - f.scale then
    bits + Nat.pow 2 (f.precision - 1)
  else min bits f.infinity

/-- The reader that the program runs with. -/
instance hexReader : HexReader where
  read? f text := do
    let digits ← afterHexMark? text
    let (m, e) ← hexadecimal? digits
    return (false, scaledBits f m e)

end Literal

end WasmText
