/-!
# Reading UTF-8

Names must be well-formed UTF-8 (`Utf8.decode?`). Messages show any bytes,
with a replacement character for each longest stretch that begins a
character and does not complete it (`Utf8.decodeLossy`).
-/

namespace WasmText

namespace Utf8

/-- The bytes of a text. -/
def encode (text : String) : List UInt8 := text.toUTF8.data.toList

/-- The text with exactly these bytes, if there is one. -/
def decode? (bytes : List UInt8) : Option String :=
  String.fromUTF8? ⟨bytes.toArray⟩

/-- What a first byte says of a character: the bits it gives, and the
range that each further byte must lie in. The ranges of the second byte
leave out overlong forms, surrogates and what lies beyond Unicode. -/
def lead? (b : Nat) : Option (Nat × List (Nat × Nat)) :=
  if b ≤ 0x7F then some (b, [])
  else if 0xC2 ≤ b ∧ b ≤ 0xDF then some (b - 0xC0, [(0x80, 0xBF)])
  else if b = 0xE0 then some (0, [(0xA0, 0xBF), (0x80, 0xBF)])
  else if b = 0xED then some (0xD, [(0x80, 0x9F), (0x80, 0xBF)])
  else if 0xE1 ≤ b ∧ b ≤ 0xEF then some (b - 0xE0, [(0x80, 0xBF), (0x80, 0xBF)])
  else if b = 0xF0 then some (0, [(0x90, 0xBF), (0x80, 0xBF), (0x80, 0xBF)])
  else if 0xF1 ≤ b ∧ b ≤ 0xF3 then some (b - 0xF0, [(0x80, 0xBF), (0x80, 0xBF), (0x80, 0xBF)])
  else if b = 0xF4 then some (4, [(0x80, 0x8F), (0x80, 0xBF), (0x80, 0xBF)])
  else none

/-- Reads the further bytes of a character: its code point if they are all
there, and how many of them fit. -/
def continue? (code : Nat) : List (Nat × Nat) → List UInt8 → Option Nat × Nat
  | [], _ => (some code, 0)
  | _ :: _, [] => (none, 0)
  | (lo, hi) :: ranges, b :: bytes =>
    if lo ≤ b.toNat ∧ b.toNat ≤ hi then
      let (code?, n) := continue? (64 * code + (b.toNat - 0x80)) ranges bytes
      (code?, n + 1)
    else (none, 0)

/-- The character that starts with `b`, or none, and how many of the bytes
after it were read. -/
def character? (b : UInt8) (bytes : List UInt8) : Option Char × Nat :=
  match lead? b.toNat with
  | none => (none, 0)
  | some (code, ranges) =>
    let (code?, n) := continue? code ranges bytes
    (code?.map Char.ofNat, n)

/-- The characters of any bytes, with U+FFFD where they are ill-formed. -/
def charactersLossy (bytes : List UInt8) : List Char :=
  match bytes with
  | [] => []
  | b :: bytes =>
    let (c?, n) := character? b bytes
    c?.getD '�' :: charactersLossy (bytes.drop n)
termination_by bytes.length
decreasing_by simp only [List.length_drop, List.length_cons]; omega

def decodeLossy (bytes : List UInt8) : String :=
  String.ofList (charactersLossy bytes)

end Utf8

end WasmText
