/-!
# LEB128

Numbers are written in groups of seven bits, lowest group first; every
byte but the last has its high bit set. A signed number ends where the rest
of it is the sign that bit 6 of the byte already shows.
-/

namespace WasmText

namespace Leb128

/-- A natural number in as few bytes as it takes. -/
def unsigned (n : Nat) : List UInt8 :=
  if n < 128 then [UInt8.ofNat n]
  else UInt8.ofNat (n % 128 + 128) :: unsigned (n / 128)
termination_by n

/-- An integer in two's complement, in as few bytes as it takes. -/
def signed (v : Int) : List UInt8 :=
  let low := (v % 128).toNat
  if (v / 128 = 0 ∧ low < 64) ∨ (v / 128 = -1 ∧ 64 ≤ low) then [UInt8.ofNat low]
  else UInt8.ofNat (low + 128) :: signed (v / 128)
termination_by v.natAbs
decreasing_by omega

end Leb128

end WasmText
