import WasmText.Binary.Leb128
import Mathlib.Tactic.Ring
/-!
# Reading LEB128

A number in LEB128 is a group of bytes, all but the last of which have
their high bit set. Reading splits off the group and takes its value,
unsigned or signed. A width, when there is one, refuses groups of more
bytes than the width has room for, and values it cannot hold.

What `unsigned` and `signed` write is one group, its value is the number
that was written, and a number that a width can hold is written in a group
that the width has room for (`readUnsigned_unsigned`,
`readSigned_signed`).
-/

namespace WasmText

namespace Leb128

/-! ## Groups and their values -/

/-- Splits off the first group: all bytes up to one without its high
bit. -/
def split? : List UInt8 → Option (List UInt8 × List UInt8)
  | [] => none
  | b :: bytes =>
    if b < 0x80 then some ([b], bytes)
    else (split? bytes).map fun (group, rest) => (b :: group, rest)

def unsignedValue : List UInt8 → Nat
  | [] => 0
  | b :: bytes => b.toNat % 128 + 128 * unsignedValue bytes

/-- The last byte gives the sign by its bit 6. -/
def signedValue : List UInt8 → Int
  | [] => 0
  | [b] => if b.toNat % 128 < 64 then b.toNat % 128 else b.toNat % 128 - 128
  | b :: bytes => b.toNat % 128 + 128 * signedValue bytes

/-- Whether a width in bits has room for a group. -/
def HasRoom (width : Option Nat) (group : List UInt8) : Prop :=
  ∀ w ∈ width, 7 * group.length < w + 7

/-- Whether a width in bits can hold a natural number. -/
def Holds (width : Option Nat) (n : Nat) : Prop :=
  ∀ w ∈ width, n < 2 ^ w

/-- Whether a width in bits can hold an integer in two's complement. -/
def HoldsSigned (width : Option Nat) (v : Int) : Prop :=
  ∀ w ∈ width, -2 ^ (w - 1) ≤ v ∧ v < 2 ^ (w - 1)

instance (width : Option Nat) (group : List UInt8) : Decidable (HasRoom width group) :=
  inferInstanceAs (Decidable (∀ w ∈ width, 7 * group.length < w + 7))

instance (width : Option Nat) (n : Nat) : Decidable (Holds width n) :=
  inferInstanceAs (Decidable (∀ w ∈ width, n < 2 ^ w))

instance (width : Option Nat) (v : Int) : Decidable (HoldsSigned width v) :=
  inferInstanceAs (Decidable (∀ w ∈ width, -2 ^ (w - 1) ≤ v ∧ v < 2 ^ (w - 1)))

/-- Reads a natural number, of any size when no width is given. -/
def readUnsigned (width : Option Nat) (bytes : List UInt8) : Option (Nat × List UInt8) :=
  match split? bytes with
  | some (group, rest) =>
    if HasRoom width group ∧ Holds width (unsignedValue group) then
      some (unsignedValue group, rest)
    else none
  | none => none

/-- Reads an integer, of any size when no width is given. -/
def readSigned (width : Option Nat) (bytes : List UInt8) : Option (Int × List UInt8) :=
  match split? bytes with
  | some (group, rest) =>
    if HasRoom width group ∧ HoldsSigned width (signedValue group) then
      some (signedValue group, rest)
    else none
  | none => none

/-! ## What is written is one group -/

theorem toNat_ofNat_of_lt {n : Nat} (h : n < 256) : (UInt8.ofNat n).toNat = n :=
  UInt8.toNat_ofNat_of_lt' h

/-- A byte ends a group exactly if its highest bit is clear. -/
theorem ofNat_lt_iff {n : Nat} (h : n < 256) : UInt8.ofNat n < 0x80 ↔ n < 128 := by
  rw [UInt8.lt_iff_toNat_lt, toNat_ofNat_of_lt h]
  rfl

/-- What is written for a natural number is one group. -/
theorem split?_unsigned (n : Nat) (rest : List UInt8) :
    split? (unsigned n ++ rest) = some (unsigned n, rest) := by
  induction n using unsigned.induct with
  | case1 n hlt =>
      rw [unsigned, if_pos hlt]
      simp only [List.cons_append, List.nil_append, split?,
        (ofNat_lt_iff (by omega : n < 256)).2 hlt, if_true]
  | case2 n hge ih =>
      have hlow : ¬ UInt8.ofNat (n % 128 + 128) < 0x80 := by
        rw [ofNat_lt_iff (by omega)]
        omega
      rw [unsigned, if_neg hge]
      simp only [List.cons_append, split?, if_neg hlow, ih, Option.map_some]

/-- What is written for an integer is one group. -/
theorem split?_signed (v : Int) (rest : List UInt8) :
    split? (signed v ++ rest) = some (signed v, rest) := by
  induction v using signed.induct with
  | case1 v low hstop =>
      rw [signed, if_pos hstop]
      have hlow : UInt8.ofNat low < 0x80 := (ofNat_lt_iff (by omega)).2 (by omega)
      simp only [List.cons_append, List.nil_append, split?]
      rw [if_pos hlow]
  | case2 v low hgo ih =>
      have hlow : ¬ UInt8.ofNat (low + 128) < 0x80 := by
        rw [ofNat_lt_iff (by omega)]
        omega
      rw [signed, if_neg hgo]
      simp only [List.cons_append, split?]
      rw [if_neg hlow, ih]
      rfl

theorem unsigned_ne_nil (n : Nat) : unsigned n ≠ [] := by
  rw [unsigned]
  split <;> simp

theorem signed_ne_nil (v : Int) : signed v ≠ [] := by
  rw [signed]
  split <;> simp

/-! ## Its value is what was written -/

@[simp] theorem unsignedValue_unsigned (n : Nat) : unsignedValue (unsigned n) = n := by
  induction n using unsigned.induct with
  | case1 n hlt =>
      rw [unsigned, if_pos hlt, unsignedValue, unsignedValue, toNat_ofNat_of_lt (by omega)]
      omega
  | case2 n hge ih =>
      rw [unsigned, if_neg hge, unsignedValue, ih, toNat_ofNat_of_lt (by omega)]
      omega

/-- Only the last byte of a group is read for the sign. -/
theorem signedValue_cons (b : UInt8) {bytes : List UInt8} (h : bytes ≠ []) :
    signedValue (b :: bytes) = b.toNat % 128 + 128 * signedValue bytes := by
  cases bytes with
  | nil => exact absurd rfl h
  | cons c bytes => rfl

@[simp] theorem signedValue_signed (v : Int) : signedValue (signed v) = v := by
  induction v using signed.induct with
  | case1 v low hstop =>
      rw [signed, if_pos hstop, signedValue, toNat_ofNat_of_lt (by omega)]
      split <;> omega
  | case2 v low hgo ih =>
      rw [signed, if_neg hgo, signedValue_cons _ (signed_ne_nil _), ih,
        toNat_ofNat_of_lt (by omega)]
      omega

/-! ## A width that can hold a number has room for it -/

/-- A natural number takes no more bytes than its width has room for. -/
theorem length_unsigned_lt {n w : Nat} (hw : 0 < w) (h : n < 2 ^ w) :
    7 * (unsigned n).length < w + 7 := by
  induction n using unsigned.induct generalizing w with
  | case1 n hlt =>
      rw [unsigned, if_pos hlt, List.length_singleton]
      omega
  | case2 n hge ih =>
      -- what takes a second group is wider than one, so a group can be given up
      have hw7 : 7 < w := by
        by_contra hle
        have : 2 ^ w ≤ 2 ^ 7 := Nat.pow_le_pow_right (by omega) (by omega)
        omega
      have hpow : 2 ^ w = 2 ^ (w - 7) * 128 := by
        rw [show w = (w - 7) + 7 by omega, Nat.pow_add]
        simp
      have hdiv : n / 128 < 2 ^ (w - 7) := (Nat.div_lt_iff_lt_mul (by omega)).2 (by omega)
      rw [unsigned, if_neg hge, List.length_cons]
      have := ih (by omega : 0 < w - 7) hdiv
      omega

/-- An integer takes no more bytes than its width has room for. -/
theorem length_signed_lt (v : Int) : ∀ {w : Nat}, 0 < w →
    -2 ^ (w - 1) ≤ v ∧ v < 2 ^ (w - 1) → 7 * (signed v).length < w + 7 := by
  induction v using signed.induct with
  | case1 v low =>
      rename_i hstop
      intro w hw _
      rw [signed, if_pos hstop, List.length_singleton]
      omega
  | case2 v low hgo =>
      rename_i ih
      intro w hw h
      -- one bit of a single group is the sign, so only 6 are left for the size
      have hw7 : 7 < w := by
        by_contra hle
        have : (2 : Int) ^ (w - 1) ≤ 2 ^ 6 := by
          exact_mod_cast Nat.pow_le_pow_right (by omega) (by omega : w - 1 ≤ 6)
        omega
      have hpow : (2 : Int) ^ (w - 1) = 2 ^ (w - 7 - 1) * 128 := by
        rw [show w - 1 = (w - 7 - 1) + 7 by omega, pow_add]
        norm_num
      rw [signed, if_neg hgo, List.length_cons]
      have := ih (by omega : 0 < w - 7) (by omega)
      omega

/-! ## Reading back -/

/-- **A natural number reads back**, before anything else, through every
width that can hold it. -/
theorem readUnsigned_unsigned {width : Option Nat} (hpos : ∀ w ∈ width, 0 < w) {n : Nat}
    (h : Holds width n) (rest : List UInt8) :
    readUnsigned width (unsigned n ++ rest) = some (n, rest) := by
  have hroom : HasRoom width (unsigned n) := fun w hw =>
    length_unsigned_lt (hpos w hw) (h w hw)
  simp only [readUnsigned, split?_unsigned, unsignedValue_unsigned, hroom, h, and_self, if_true]

/-- **An integer reads back**, before anything else, through every width
that can hold it. -/
theorem readSigned_signed {width : Option Nat} (hpos : ∀ w ∈ width, 0 < w) {v : Int}
    (h : HoldsSigned width v) (rest : List UInt8) :
    readSigned width (signed v ++ rest) = some (v, rest) := by
  have hroom : HasRoom width (signed v) := fun w hw =>
    length_signed_lt v (hpos w hw) (h w hw)
  simp only [readSigned, split?_signed, signedValue_signed, hroom, h, and_self, if_true]

/-- The first byte of a number that is not negative goes on, or has bit 6
clear. -/
theorem head_signed_natCast (n : Nat) :
    ∃ b bytes, signed n = b :: bytes ∧ (b.toNat < 64 ∨ 128 ≤ b.toNat) := by
  rw [signed]
  split
  · exact ⟨_, _, rfl, Or.inl (by rw [toNat_ofNat_of_lt (by omega)]; omega)⟩
  · exact ⟨_, _, rfl, Or.inr (by rw [toNat_ofNat_of_lt (by omega)]; omega)⟩

end Leb128

end WasmText
