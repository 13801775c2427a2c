import WasmText.Proofs.Literal.Rounding
/-!
# Bit patterns of floats

A pattern has a sign bit, an exponent field and a significand field. The
fields tell finite numbers, infinities and NaNs apart, and give a finite
pattern its value. The pattern without its sign bit orders all of them:
finite ones come before infinity, and NaNs after it (`isFinite_iff`,
`isInfinite_iff`, `isNaN_iff`).

To round to the nearest value of either sign is to keep the sign of the
number and to find the nearest magnitude (`rounds_iff`).
-/

namespace WasmText

namespace FloatFormat

/-! ## Fields -/

/-- How many bits a pattern has. -/
def width (f : FloatFormat) : Nat := 1 + f.exponentBits + f.precision

def isNegative (f : FloatFormat) (bits : Nat) : Bool := bits.testBit (f.exponentBits + f.precision)

def exponentField (f : FloatFormat) (bits : Nat) : Nat :=
  bits / 2 ^ f.precision % 2 ^ f.exponentBits

def significandField (f : FloatFormat) (bits : Nat) : Nat := bits % 2 ^ f.precision

def IsNaN (f : FloatFormat) (bits : Nat) : Prop :=
  f.exponentField bits = 2 ^ f.exponentBits - 1 ∧ f.significandField bits ≠ 0

def IsInfinite (f : FloatFormat) (bits : Nat) : Prop :=
  f.exponentField bits = 2 ^ f.exponentBits - 1 ∧ f.significandField bits = 0

def IsFinite (f : FloatFormat) (bits : Nat) : Prop :=
  f.exponentField bits ≠ 2 ^ f.exponentBits - 1

/-- The factor that a sign stands for. -/
def signFactor (negative : Bool) : ℚ := if negative then -1 else 1

/-- The number that a finite pattern stands for. -/
def value (f : FloatFormat) (bits : Nat) : ℚ :=
  signFactor (f.isNegative bits) * f.magnitude (bits % f.signBit)

/-- A pattern without a sign bit, with the sign bit set or not. -/
def withSign (f : FloatFormat) (negative : Bool) (n : Nat) : Nat :=
  if negative then f.signBit + n else n

variable {f : FloatFormat} {bits n : Nat} {negative : Bool}

theorem signBit_eq (f : FloatFormat) : f.signBit = 2 ^ f.precision * 2 ^ f.exponentBits := by
  rw [signBit, Nat.pow_eq, Nat.pow_add, Nat.mul_comm]

theorem signBit_pos (f : FloatFormat) : 0 < f.signBit := Nat.two_pow_pos _

/-- Infinity has all bits of the exponent, and none of the significand. -/
theorem infinity_add_pow (f : FloatFormat) : f.infinity + 2 ^ f.precision = f.signBit := by
  rw [signBit_eq, infinity, Nat.pow_eq, Nat.pow_eq, ← Nat.succ_mul, Nat.succ_eq_add_one,
    Nat.sub_add_cancel (Nat.two_pow_pos _), Nat.mul_comm]

theorem infinity_lt_signBit (f : FloatFormat) : f.infinity < f.signBit := by
  rw [← infinity_add_pow]
  exact Nat.lt_add_of_pos_right (Nat.two_pow_pos _)

theorem exponentField_eq (f : FloatFormat) (bits : Nat) :
    f.exponentField bits = bits % f.signBit / 2 ^ f.precision := by
  rw [signBit_eq, Nat.mod_mul_right_div_self, exponentField]

theorem significandField_eq (f : FloatFormat) (bits : Nat) :
    f.significandField bits = bits % f.signBit % 2 ^ f.precision := by
  rw [signBit_eq, Nat.mod_mul_right_mod, significandField]

/-- A pattern is finite exactly if it comes before infinity, its sign
aside. -/
theorem isFinite_iff : f.IsFinite bits ↔ bits % f.signBit < f.infinity := by
  have hlt : bits % f.signBit / 2 ^ f.precision < 2 ^ f.exponentBits := by
    rw [Nat.div_lt_iff_lt_mul (Nat.two_pow_pos _), Nat.mul_comm, ← signBit_eq]
    exact Nat.mod_lt _ f.signBit_pos
  have hdiv := Nat.div_lt_iff_lt_mul (x := bits % f.signBit) (y := 2 ^ f.exponentBits - 1)
    (Nat.two_pow_pos f.precision)
  rw [IsFinite, exponentField_eq, infinity, Nat.pow_eq, Nat.pow_eq, ← hdiv]
  omega

/-- Beyond infinity there are only significands. -/
theorem mod_signBit_of_not_finite (h : ¬ f.IsFinite bits) :
    bits % f.signBit = f.infinity + f.significandField bits := by
  have hfield := not_not.1 h
  have hsplit := Nat.div_add_mod' (bits % f.signBit) (2 ^ f.precision)
  rw [← exponentField_eq, ← significandField_eq, hfield] at hsplit
  exact hsplit.symm

/-- There is one infinity for each sign. -/
theorem isInfinite_iff : f.IsInfinite bits ↔ bits % f.signBit = f.infinity := by
  constructor
  · rintro ⟨hfield, hzero⟩
    rw [mod_signBit_of_not_finite (not_not.2 hfield), hzero, Nat.add_zero]
  · intro h
    have hnot : ¬ f.IsFinite bits := by
      rw [isFinite_iff]
      omega
    have := mod_signBit_of_not_finite hnot
    exact ⟨not_not.1 hnot, by omega⟩

/-- What is no number comes after infinity. -/
theorem isNaN_iff : f.IsNaN bits ↔ f.infinity < bits % f.signBit := by
  constructor
  · rintro ⟨hfield, hzero⟩
    have := mod_signBit_of_not_finite (not_not.2 hfield)
    omega
  · intro h
    have hnot : ¬ f.IsFinite bits := by
      rw [isFinite_iff]
      omega
    have := mod_signBit_of_not_finite hnot
    exact ⟨not_not.1 hnot, by omega⟩

/-! ## Signs -/

theorem pow_width (f : FloatFormat) : 2 ^ f.width = 2 * f.signBit := by
  rw [width, Nat.add_assoc, Nat.add_comm, Nat.pow_succ', signBit, Nat.pow_eq]

theorem withSign_lt (hn : n < f.signBit) (negative : Bool) :
    f.withSign negative n < 2 ^ f.width := by
  rw [pow_width]
  unfold withSign
  split <;> omega

/-- The sign put on a pattern is the sign it has. -/
@[simp] theorem isNegative_withSign (hn : n < f.signBit) (negative : Bool) :
    f.isNegative (f.withSign negative n) = negative := by
  have hclear : n.testBit (f.exponentBits + f.precision) = false := Nat.testBit_lt_two_pow hn
  cases negative with
  | false => exact hclear
  | true =>
      have hset : (f.signBit + n).testBit (f.exponentBits + f.precision) = true := by
        rw [signBit, Nat.pow_eq, Nat.testBit_two_pow_add_eq, hclear]
        rfl
      exact hset

/-- The sign put on a pattern does not touch the rest. -/
@[simp] theorem withSign_mod (hn : n < f.signBit) (negative : Bool) :
    f.withSign negative n % f.signBit = n := by
  cases negative with
  | false => exact Nat.mod_eq_of_lt hn
  | true =>
      rw [withSign, if_pos rfl, Nat.add_mod_left, Nat.mod_eq_of_lt hn]

theorem isNaN_withSign (hn : n < f.signBit) : f.IsNaN (f.withSign negative n) ↔ f.infinity < n := by
  rw [isNaN_iff, withSign_mod hn]

theorem isInfinite_withSign (hn : n < f.signBit) :
    f.IsInfinite (f.withSign negative n) ↔ n = f.infinity := by
  rw [isInfinite_iff, withSign_mod hn]

theorem isFinite_withSign (hn : n < f.signBit) :
    f.IsFinite (f.withSign negative n) ↔ n < f.infinity := by
  rw [isFinite_iff, withSign_mod hn]

/-- **A pattern is its sign and the rest.** -/
theorem withSign_of_lt (h : bits < 2 ^ f.width) :
    f.withSign (f.isNegative bits) (bits % f.signBit) = bits := by
  rw [pow_width] at h
  rcases Nat.lt_or_ge bits f.signBit with hlt | hge
  · have hsign : f.isNegative bits = false := isNegative_withSign hlt false
    rw [hsign, Nat.mod_eq_of_lt hlt]
    rfl
  · have hrest : bits - f.signBit < f.signBit := by omega
    have hsplit : f.withSign true (bits - f.signBit) = bits := by
      rw [withSign, if_pos rfl]
      omega
    have hsign := isNegative_withSign hrest true
    have hmod := withSign_mod hrest true
    rw [hsplit] at hsign hmod
    rw [hsign, hmod, hsplit]

/-- A sign is put on a pattern by setting its bit. -/
theorem withSign_eq_or (hn : n < f.signBit) (negative : Bool) :
    f.withSign negative n = (if negative then f.signBit else 0) ||| n := by
  cases negative with
  | false => simp [withSign]
  | true =>
      have hor := Nat.two_pow_add_eq_or_of_lt hn 1
      rw [Nat.mul_one] at hor
      exact hor

/-- The quiet value that is no number lies between infinity and the sign
bit. -/
theorem canonicalNaN_bounds (hf : f.Usual) :
    f.infinity < f.canonicalNaN ∧ f.canonicalNaN < f.signBit := by
  have hpos : 0 < 2 ^ (f.precision - 1) := Nat.two_pow_pos _
  have hlt : 2 ^ (f.precision - 1) < 2 ^ f.precision :=
    Nat.pow_lt_pow_right (by omega) (Nat.sub_one_lt hf.precision_pos.ne')
  rw [← infinity_add_pow, canonicalNaN, Nat.pow_eq]
  omega

/-- A payload fills the significand that infinity leaves empty. -/
theorem infinity_add_eq_or {p : Nat} (hp : p < 2 ^ f.precision) :
    f.infinity + p = f.infinity ||| p := by
  have hor := Nat.two_pow_add_eq_or_of_lt hp (2 ^ f.exponentBits - 1)
  rw [Nat.mul_comm] at hor
  exact hor

/-! ## Rounding with a sign -/

/-- Whether a finite pattern is what a number is rounded to: no finite
pattern has a nearer value, and it is even if one with another value is as
near. -/
structure Rounds (f : FloatFormat) (v : ℚ) (bits : Nat) : Prop where
  finite : f.IsFinite bits
  nearest : ∀ other, f.IsFinite other → |v - f.value bits| ≤ |v - f.value other|
  even : ∀ other, f.IsFinite other → f.value other ≠ f.value bits →
    |v - f.value bits| = |v - f.value other| → bits % 2 = 0

variable {q m : ℚ}

/-- Distances are the same on both sides of zero. -/
theorem abs_signFactor_sub (negative : Bool) :
    |signFactor negative * q - signFactor negative * m| = |q - m| := by
  cases negative with
  | false => simp [signFactor]
  | true =>
      rw [← mul_sub, abs_mul]
      simp [signFactor]

/-- Of two values with the same magnitude, the one on the same side of zero
is nearer. -/
theorem abs_sub_le_of_signs (hq : 0 ≤ q) (hm : 0 ≤ m) (negative other : Bool) :
    |q - m| ≤ |signFactor negative * q - signFactor other * m| ∧
      (|q - m| = |signFactor negative * q - signFactor other * m| →
        negative = other ∨ q = 0 ∨ m = 0) := by
  cases negative <;> cases other <;> simp only [signFactor] <;> grind

/-- Whether a pattern is even does not depend on its sign. -/
theorem mod_signBit_mod_two (hf : f.Usual) (bits : Nat) : bits % f.signBit % 2 = bits % 2 := by
  obtain ⟨p, hp⟩ := Nat.exists_eq_add_one.2 hf.precision_pos
  refine Nat.mod_mod_of_dvd bits (Dvd.intro_left (2 ^ (f.exponentBits + p)) ?_)
  rw [← Nat.pow_succ, signBit, Nat.pow_eq, hp]
  rfl

/-- The sign of a pattern is that of its value. -/
theorem value_withSign (hn : n < f.signBit) (negative : Bool) :
    f.value (f.withSign negative n) = signFactor negative * f.magnitude n := by
  rw [value, isNegative_withSign hn, withSign_mod hn]

/-- The nearest magnitude with its sign is the nearest value. -/
theorem IsNearest.rounds (hf : f.Usual) (hq : 0 ≤ q) (hlt : q < f.overflow)
    (h : f.IsNearest q (bits % f.signBit)) :
    f.Rounds (signFactor (f.isNegative bits) * q) bits := by
  have hsame : |signFactor (f.isNegative bits) * q - f.value bits| =
      |q - f.magnitude (bits % f.signBit)| := abs_signFactor_sub _
  have hother : ∀ other, _ := fun other =>
    abs_sub_le_of_signs hq (magnitude_nonneg hf (other % f.signBit)) (f.isNegative bits)
      (f.isNegative other)
  refine ⟨?_, fun other _ => ?_, fun other _ hne htie => ?_⟩
  · rw [isFinite_iff]
    by_contra hle
    exact absurd ((h.infinity_le_iff hf).1 (not_lt.1 hle)) (not_le.2 hlt)
  · rw [hsame]
    exact (h.nearest _).trans (hother other).1
  · rw [hsame] at htie
    have hnearer := h.nearest (other % f.signBit)
    have hfar := (hother other).1
    have hequal := le_antisymm hnearer (hfar.trans htie.ge)
    rw [← mod_signBit_mod_two hf]
    by_cases hk : other % f.signBit = bits % f.signBit
    · -- the same magnitude is as near on both sides only at zero
      exfalso
      have hzero := h.nearest 0
      rw [magnitude_zero, sub_zero] at hzero
      rcases (hother other).2 (hequal.symm.trans htie) with hsign | rfl | hm
      · exact hne (by rw [value, value, hsign, hk])
      · rw [zero_sub, abs_neg, abs_zero] at hzero
        have hm := abs_eq_zero.1 (le_antisymm hzero (abs_nonneg _))
        exact hne (by rw [value, value, hk, hm, mul_zero, mul_zero])
      · rw [hk] at hm
        exact hne (by rw [value, value, hk, hm, mul_zero, mul_zero])
    · exact h.even _ hk hequal

/-- The nearest value has the nearest magnitude, whichever its sign. -/
theorem Rounds.isNearest (hf : f.Usual) (hlt : q < f.overflow)
    (h : f.Rounds (signFactor (f.isNegative bits) * q) bits) :
    f.IsNearest q (bits % f.signBit) := by
  have hmono := strictMono_magnitude hf
  have hsame : |signFactor (f.isNegative bits) * q - f.value bits| =
      |q - f.magnitude (bits % f.signBit)| := abs_signFactor_sub _
  -- a finite magnitude belongs to a finite pattern of the same sign
  have hfinite : ∀ k < f.infinity, |q - f.magnitude (bits % f.signBit)| ≤ |q - f.magnitude k| ∧
      (k ≠ bits % f.signBit → |q - f.magnitude (bits % f.signBit)| = |q - f.magnitude k| →
        bits % 2 = 0) := by
    intro k hk
    have hsmall := hk.trans (infinity_lt_signBit f)
    have hvalue := value_withSign hsmall (f.isNegative bits)
    have hother : f.IsFinite (f.withSign (f.isNegative bits) k) := by
      rwa [isFinite_iff, withSign_mod hsmall]
    have hnearest := h.nearest _ hother
    have heven := h.even _ hother
    rw [hsame, hvalue, abs_signFactor_sub] at hnearest heven
    refine ⟨hnearest, fun hne htie => heven (fun heq => hne (hmono.injective ?_)) htie⟩
    have hfactor : signFactor (f.isNegative bits) ≠ 0 := by
      unfold signFactor
      split <;> norm_num
    exact mul_left_cancel₀ hfactor heq
  -- and all others are further away than the greatest of these
  have hinfinite : ∀ k, f.infinity ≤ k →
      |q - f.magnitude (bits % f.signBit)| < |q - f.magnitude k| := by
    intro k hk
    have hpos := infinity_pos hf
    have hgreatest := (hfinite (f.infinity - 1) (by omega)).1
    have hstep := hmono (by omega : f.infinity - 1 < f.infinity)
    have hbeyond := hmono.monotone hk
    rw [overflow_eq_middle hf] at hlt
    refine hgreatest.trans_lt ?_
    grind
  refine ⟨fun k => ?_, fun k hne htie => ?_⟩
  · rcases Nat.lt_or_ge k f.infinity with hk | hk
    · exact (hfinite k hk).1
    · exact (hinfinite k hk).le
  · rw [mod_signBit_mod_two hf]
    rcases Nat.lt_or_ge k f.infinity with hk | hk
    · exact (hfinite k hk).2 hne htie
    · exact absurd htie (hinfinite k hk).ne

/-- **Rounding keeps the sign** and finds the nearest magnitude. -/
theorem rounds_iff (hf : f.Usual) (hq : 0 ≤ q) (hlt : q < f.overflow) :
    f.Rounds (signFactor (f.isNegative bits) * q) bits ↔ f.IsNearest q (bits % f.signBit) :=
  ⟨Rounds.isNearest hf hlt, IsNearest.rounds hf hq hlt⟩

/-- **Putting a sign on the nearest pattern** rounds the number with the
sign, and there is no other pattern that does. -/
theorem eq_withSign_iff (hf : f.Usual) (hq : 0 ≤ q) (hlt : q < f.overflow) (h : f.IsNearest q n) :
    bits = f.withSign negative n ↔ bits < 2 ^ f.width ∧ f.isNegative bits = negative ∧
      f.Rounds (signFactor negative * q) bits := by
  have hn : n < f.signBit :=
    lt_trans (((h.isRounding hf).lt_infinity_iff hf).2 hlt) f.infinity_lt_signBit
  constructor
  · rintro rfl
    have hrounds : f.Rounds _ (f.withSign negative n) ↔ _ := rounds_iff hf hq hlt
    rw [isNegative_withSign hn, withSign_mod hn] at hrounds
    exact ⟨withSign_lt hn negative, isNegative_withSign hn negative, hrounds.2 h⟩
  · rintro ⟨hbits, rfl, hrounds⟩
    rw [h.unique hf ((rounds_iff hf hq hlt).1 hrounds), withSign_of_lt hbits]

end FloatFormat

end WasmText
