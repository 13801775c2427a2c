import WasmText.Proofs.Literal.Nearest
/-!
# Rounding to a format

A number is rounded to the nearest magnitude as if exponents had no bound,
and what comes out is too large for the format if its pattern is that of
infinity or lies beyond. This is so exactly for the numbers from the middle
between the greatest finite magnitude and the next power of two
(`IsNearest.infinity_le_iff`). Powers that are too large or too small to
compute are settled without them, and rightly so
(`isRounding_nearestScaled`).
-/

namespace WasmText

namespace FloatFormat

variable {f : FloatFormat} {q : ℚ} {n : Nat}

/-! ## Too large for the format -/

/-- The least number that is too large: the middle between the greatest
finite magnitude and the power of two above it. -/
def overflow (f : FloatFormat) : ℚ :=
  2 ^ 2 ^ (f.exponentBits - 1) - 2 ^ ((2 ^ (f.exponentBits - 1) : Int) - 2 - f.precision)

theorem overflow_single : single.overflow = 2 ^ 128 - 2 ^ 103 := rfl

theorem overflow_double : double.overflow = 2 ^ 1024 - 2 ^ 970 := rfl

theorem two_pow_exponentBits (hf : f.Usual) :
    2 ^ f.exponentBits = 2 * 2 ^ (f.exponentBits - 1) ∧ 2 ≤ 2 ^ (f.exponentBits - 1) := by
  obtain ⟨bits, hbits⟩ := Nat.exists_eq_add_of_le hf.two_le_exponentBits
  have hpred : f.exponentBits - 1 = bits + 1 := by omega
  refine ⟨?_, ?_⟩
  · rw [hpred, ← Nat.pow_succ', hbits, Nat.add_comm]
  · rw [hpred, Nat.pow_succ']
    exact Nat.le_mul_of_pos_right 2 (Nat.two_pow_pos bits)

/-- Infinity comes where the next power of two would. -/
theorem magnitude_infinity (hf : f.Usual) :
    f.magnitude f.infinity = 2 ^ 2 ^ (f.exponentBits - 1) ∧
      f.magnitude f.infinity - f.magnitude (f.infinity - 1) =
        2 * 2 ^ ((2 ^ (f.exponentBits - 1) : Int) - 2 - f.precision) := by
  obtain ⟨hdouble, htwo⟩ := two_pow_exponentBits hf
  have hpos : 0 < 2 ^ f.precision := Nat.two_pow_pos _
  have hinfinity : f.infinity =
      (2 * 2 ^ (f.exponentBits - 1) - 2) * 2 ^ f.precision + 2 ^ f.precision := by
    rw [infinity, Nat.pow_eq, Nat.pow_eq, hdouble, ← Nat.succ_mul]
    congr 1
    omega
  have hunits : f.units f.infinity = 2 ^ f.precision * 2 ^ (2 * 2 ^ (f.exponentBits - 1) - 2) := by
    rw [hinfinity, units_add (Nat.pow_le_pow_right (by omega) (by omega)) (Or.inr le_rfl)]
  have hgap : f.units f.infinity =
      f.units (f.infinity - 1) + 2 ^ (2 * 2 ^ (f.exponentBits - 1) - 3) := by
    have hdiv : (f.infinity - 1) / 2 ^ f.precision = 2 * 2 ^ (f.exponentBits - 1) - 2 := by
      rw [hinfinity, Nat.add_sub_assoc hpos, step_add_div, Nat.div_eq_of_lt (by omega),
        Nat.add_zero]
    have hsucc := units_succ (f := f) (f.infinity - 1)
    rwa [hdiv, Nat.sub_add_cancel (by omega)] at hsucc
  have hscale : f.scale = 2 ^ (f.exponentBits - 1) - 2 + f.precision := rfl
  have hcast : ((2 ^ (f.exponentBits - 1) : Nat) : Int) = 2 ^ (f.exponentBits - 1) :=
    Nat.cast_pow 2 _
  rw [magnitude_eq_units hf, magnitude_eq_units hf, ← sub_div]
  generalize 2 ^ (f.exponentBits - 1) = half at *
  constructor
  · rw [hunits, div_eq_iff (by positivity)]
    push_cast
    rw [← pow_add, ← pow_add]
    congr 1
    omega
  · rw [hgap, ← hcast, Nat.cast_add, add_sub_cancel_left, div_eq_iff (by positivity),
      ← zpow_one_add₀ two_ne_zero]
    push_cast
    rw [← zpow_natCast, ← zpow_natCast, ← zpow_add₀ two_ne_zero]
    congr 1
    omega

theorem overflow_eq_middle (hf : f.Usual) :
    f.overflow = (f.magnitude (f.infinity - 1) + f.magnitude f.infinity) / 2 := by
  obtain ⟨hvalue, hgap⟩ := magnitude_infinity hf
  rw [overflow, ← hvalue]
  linarith

theorem infinity_pos (hf : f.Usual) : 0 < f.infinity := by
  obtain ⟨hdouble, htwo⟩ := two_pow_exponentBits hf
  refine Nat.mul_pos ?_ (Nat.two_pow_pos _)
  rw [Nat.pow_eq]
  omega

theorem infinity_even (hf : f.Usual) : f.infinity % 2 = 0 := by
  obtain ⟨p, hp⟩ := Nat.exists_eq_add_one.2 hf.precision_pos
  rw [infinity, hp, Nat.pow_eq, Nat.pow_eq, Nat.pow_succ, ← Nat.mul_assoc, Nat.mul_mod_left]

/-- **A number is too large** exactly if the nearest pattern is that of
infinity or a later one. -/
theorem IsNearest.infinity_le_iff (hf : f.Usual) (h : f.IsNearest q n) :
    f.infinity ≤ n ↔ f.overflow ≤ q := by
  rw [overflow_eq_middle hf]
  exact h.le_iff hf (infinity_pos hf) (infinity_even hf)

/-! ## Rounding -/

/-- What rounding a number gives: the nearest pattern, or any that is not
finite if the number is too large. -/
structure IsRounding (f : FloatFormat) (q : ℚ) (n : Nat) : Prop where
  nearest : q < f.overflow → f.IsNearest q n
  infinite : f.overflow ≤ q → f.infinity ≤ n

theorem IsNearest.isRounding (hf : f.Usual) (h : f.IsNearest q n) : f.IsRounding q n :=
  ⟨fun _ => h, (h.infinity_le_iff hf).2⟩

theorem IsRounding.lt_infinity_iff (hf : f.Usual) (h : f.IsRounding q n) :
    n < f.infinity ↔ q < f.overflow := by
  constructor
  · intro hlt
    by_contra hle
    have := h.infinite (not_lt.1 hle)
    omega
  · intro hlt
    by_contra hle
    exact absurd (((h.nearest hlt).infinity_le_iff hf).1 (not_lt.1 hle)) (not_le.2 hlt)

theorem isNearest_zero (hf : f.Usual) (hpos : 0 ≤ q) (hlt : q * 2 ^ f.scale < 1 / 2) :
    f.IsNearest q 0 := by
  have hunit : f.magnitude 1 = 1 / 2 ^ f.scale := by
    rw [magnitude_eq_units hf]
    congr 1
    have hsucc := units_succ (f := f) 0
    simp only [units, Nat.zero_div, Nat.zero_mod, if_true, Nat.zero_sub, Nat.pow_zero] at hsucc
    exact_mod_cast hsucc
  have hfar : ∀ k, k ≠ 0 → |q - f.magnitude 0| < |q - f.magnitude k| := by
    intro k hk
    have hmono := (strictMono_magnitude hf).monotone (Nat.pos_of_ne_zero hk)
    have hhalf : 2 * q < f.magnitude 1 := by
      rw [hunit, lt_div_iff₀ (by positivity)]
      linarith
    rw [magnitude_zero, sub_zero, abs_of_nonneg hpos]
    have := neg_le_abs (q - f.magnitude k)
    linarith
  refine ⟨fun k => ?_, fun k hk htie => absurd htie (hfar k hk).ne⟩
  by_cases hk : k = 0
  · rw [hk]
  · exact (hfar k hk).le

section Powers

variable {base m : Nat} {e : Int}

/-- An exponent out of reach makes every number too large. -/
theorem overflow_le_of_reach (hf : f.Usual) (hbase : 2 ≤ base) (hm : m ≠ 0)
    (he : (f.reach : Int) < e) : f.overflow ≤ m * (base : ℚ) ^ e := by
  obtain ⟨hdouble, -⟩ := two_pow_exponentBits hf
  have hreach : 2 ^ (f.exponentBits - 1) ≤ f.reach := by
    rw [reach, Nat.pow_eq]
    omega
  obtain ⟨k, rfl⟩ := Int.eq_ofNat_of_zero_le (by omega : 0 ≤ e)
  have hone : (1 : ℚ) ≤ m := by exact_mod_cast Nat.pos_of_ne_zero hm
  have htwo : (2 : ℚ) ≤ base := by exact_mod_cast hbase
  calc f.overflow ≤ 2 ^ 2 ^ (f.exponentBits - 1) := by
        rw [overflow]
        exact sub_le_self _ (by positivity)
    _ ≤ 2 ^ k := pow_le_pow_right₀ one_le_two (by omega)
    _ ≤ (base : ℚ) ^ k := by gcongr
    _ ≤ m * (base : ℚ) ^ k := le_mul_of_one_le_left (by positivity) hone
    _ = m * (base : ℚ) ^ (k : Int) := by rw [zpow_natCast]

/-- An exponent out of reach downwards makes every number less than half of
the least magnitude. -/
theorem lt_half_of_reach (hf : f.Usual) (hbase : 2 ≤ base)
    (he : m.log2 + 1 + e < -(f.reach : Int)) : m * (base : ℚ) ^ e * 2 ^ f.scale < 1 / 2 := by
  obtain ⟨hdouble, hhalf⟩ := two_pow_exponentBits hf
  have hreach : f.scale + 1 ≤ f.reach := by
    rw [reach, scale, Nat.pow_eq, Nat.pow_eq]
    omega
  have hlog : (m : ℚ) < 2 ^ (m.log2 + 1) := by exact_mod_cast Nat.lt_log2_self
  have hpow : (base : ℚ) ^ e ≤ 2 ^ e := by
    obtain ⟨k, hk⟩ := Int.eq_ofNat_of_zero_le (by omega : 0 ≤ -e)
    rw [← neg_neg e, hk, zpow_neg, zpow_neg, zpow_natCast, zpow_natCast]
    have htwo : (2 : ℚ) ≤ base := by exact_mod_cast hbase
    gcongr
  calc m * (base : ℚ) ^ e * 2 ^ f.scale
      < 2 ^ (m.log2 + 1) * 2 ^ e * 2 ^ f.scale := by
        have hpos : (0 : ℚ) < base ^ e := zpow_pos (by exact_mod_cast (by omega : 0 < base)) e
        exact mul_lt_mul_of_pos_right (mul_lt_mul hlog hpow hpos (by positivity)) (by positivity)
    _ = 2 ^ ((m.log2 + 1 : Int) + e + f.scale) := by
        rw [zpow_add₀ two_ne_zero, zpow_add₀ two_ne_zero, zpow_natCast]
        norm_cast
    _ ≤ 2 ^ (-1 : Int) := zpow_le_zpow_right₀ one_le_two (by omega)
    _ = 1 / 2 := by norm_num

/-- **What is found is the rounding** of an integer times a power of any
base. -/
theorem isRounding_nearestScaled (hf : f.Usual) (hbase : 2 ≤ base) (m : Nat) (e : Int) :
    f.IsRounding (m * (base : ℚ) ^ e) (f.nearestScaled base m e) := by
  unfold nearestScaled
  split
  · next hm =>
    refine (isNearest_zero hf ?_ ?_).isRounding hf <;> simp [hm]
  next hm =>
  split
  · next hreach =>
    have hlarge := overflow_le_of_reach hf hbase hm hreach
    exact ⟨fun hlt => absurd hlarge (not_le.2 hlt), fun _ => le_rfl⟩
  split
  · next hreach =>
    exact (isNearest_zero hf (by positivity) (lt_half_of_reach hf hbase hreach)).isRounding hf
  simp only [Nat.pow_eq]
  split
  · next hpos =>
    have hnearest := isNearest_nearest hf (m * base ^ e.toNat) Nat.one_pos
    rw [Nat.cast_one, div_one] at hnearest
    refine IsNearest.isRounding hf ?_
    convert hnearest using 1
    push_cast
    rw [← zpow_natCast, Int.toNat_of_nonneg hpos]
  · next hneg =>
    have hden : 0 < base ^ (-e).toNat := Nat.pow_pos (by omega)
    refine IsNearest.isRounding hf ?_
    convert isNearest_nearest hf m hden using 1
    push_cast
    rw [← zpow_natCast, Int.toNat_of_nonneg (by omega), zpow_neg, div_inv_eq_mul]

end Powers

end FloatFormat

end WasmText
