import WasmText.Source.Character
/-!
# Integer literals

An integer is an optional sign and digits, decimal or, after `0x`,
hexadecimal. A word of `N` bits is written as any integer from its least
signed value to its greatest unsigned one, and stands for the two's
complement of that.
-/

namespace WasmText

namespace Literal

/-- Whether a text starts with a minus, and the text without its sign. -/
def splitSign : List Char → Bool × List Char
  | '-' :: cs => (true, cs)
  | '+' :: cs => (false, cs)
  | cs => (false, cs)

/-- The text after a mark for hexadecimal digits. -/
def afterHexMark? : List Char → Option (List Char)
  | '0' :: 'x' :: cs => some cs
  | '0' :: 'X' :: cs => some cs
  | _ => none

/-- The number that unsigned text denotes. -/
def magnitude? (body : List Char) : Option Nat :=
  match afterHexMark? body with
  | some digits => digits? 16 digits
  | none => digits? 10 body

/-- An index, an offset, an alignment or a limit: below `2 ^ 32`, with no
minus even on zero. -/
def natural? (text : List Char) : Option Nat :=
  match splitSign text with
  | (true, _) => none
  | (false, body) => (magnitude? body).filter (· < Nat.pow 2 32)

/-- A word of `width` bits, as the signed value it stands for. -/
def word? (width : Nat) (text : List Char) : Option Int :=
  let (negative, body) := splitSign text
  match magnitude? body with
  | none => none
  | some m =>
    if negative then
      if m ≤ Nat.pow 2 (width - 1) then some (-m) else none
    else
      if m < Nat.pow 2 width then some (Int.bmod m (Nat.pow 2 width)) else none

end Literal

end WasmText
