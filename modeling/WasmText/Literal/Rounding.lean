/-!
# Rounding to a binary format

A binary format lays a finite magnitude out as an exponent field and a
significand field, and the bit pattern read as a number counts magnitudes
in order. In units of the least magnitude `2 ^ -scale` the format holds
every integer up to `2 ^ (precision + 1)`, then every multiple of two up to
twice that, and so on; `nearest` finds the step that a quotient falls in
and rounds it there, once, ties to even.
-/

namespace WasmText

/-- The widths of the fields of a binary floating-point format. -/
structure FloatFormat where
  precision : Nat
  exponentBits : Nat
deriving DecidableEq

namespace FloatFormat

def single : FloatFormat := ⟨23, 8⟩

def double : FloatFormat := ⟨52, 11⟩

/-- The sign bit as a number. -/
def signBit (f : FloatFormat) : Nat := Nat.pow 2 (f.exponentBits + f.precision)

/-- The pattern of infinity, which every finite magnitude lies below. -/
def infinity (f : FloatFormat) : Nat := (Nat.pow 2 f.exponentBits - 1) * Nat.pow 2 f.precision

/-- The quiet NaN with an empty payload. -/
def canonicalNaN (f : FloatFormat) : Nat := f.infinity + Nat.pow 2 (f.precision - 1)

/-- The least positive magnitude is `2 ^ -scale`. -/
def scale (f : FloatFormat) : Nat := Nat.pow 2 (f.exponentBits - 1) - 2 + f.precision

/-- The integer nearest to `a / b`, the even one of two. -/
def roundHalfEven (a b : Nat) : Nat :=
  let q := a / b
  let r := a % b
  if 2 * r < b ∨ (2 * r = b ∧ q % 2 = 0) then q else q + 1

/-- The pattern of the magnitude nearest to `num / den`. It is `infinity`
or more when the format has no finite magnitude that near. -/
def nearest (f : FloatFormat) (num den : Nat) : Nat :=
  let units := num * Nat.pow 2 f.scale
  let step := (units / den).log2 - f.precision
  step * Nat.pow 2 f.precision + roundHalfEven units (den * Nat.pow 2 step)

/-- Beyond this power of any base every magnitude is infinite, and below
the opposite power it is zero. -/
def reach (f : FloatFormat) : Nat := Nat.pow 2 f.exponentBits + f.precision

/-- The pattern of the magnitude nearest to `m * base ^ e`. Exponents out of
reach are settled without computing the power. -/
def nearestScaled (f : FloatFormat) (base m : Nat) (e : Int) : Nat :=
  if m = 0 then 0
  else if (f.reach : Int) < e then f.infinity
  else if m.log2 + 1 + e < -(f.reach : Int) then 0
  else if 0 ≤ e then f.nearest (m * Nat.pow base e.toNat) 1
  else f.nearest m (Nat.pow base (-e).toNat)

end FloatFormat

end WasmText
