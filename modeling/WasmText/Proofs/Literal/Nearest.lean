import WasmText.Literal.Rounding
import Mathlib.Algebra.Order.Field.Power
import Mathlib.Algebra.Order.Ring.Rat
import Mathlib.Order.Monotone.Basic
import Mathlib.Tactic.FieldSimp
import Mathlib.Tactic.Linarith
import Mathlib.Tactic.LinearCombination
import Mathlib.Tactic.Positivity
import Mathlib.Tactic.Ring
/-!
# The nearest magnitude

A pattern without its sign stands for a magnitude: a significand times a
power of two, both told by its fields. Patterns count magnitudes in order,
and the step from one to the next doubles with the exponent
(`units_succ`). Here exponents have no bound, so that there is a nearest
magnitude to every number: the pattern that `nearest` finds, of two equally
near the even one (`isNearest_nearest`).

There is no other such pattern (`IsNearest.unique`), and it lies beyond an
even one exactly if the number lies beyond the middle before that
(`IsNearest.le_iff`).
-/

namespace WasmText

namespace FloatFormat

/-- Formats with a bit of significand and two of exponent, at least. -/
structure Usual (f : FloatFormat) : Prop where
  precision_pos : 0 < f.precision
  two_le_exponentBits : 2 ≤ f.exponentBits

theorem usual_single : single.Usual := ⟨by decide, by decide⟩

theorem usual_double : double.Usual := ⟨by decide, by decide⟩

/-! ## Magnitudes -/

/-- What is added to an exponent to store it. -/
def bias (f : FloatFormat) : Int := 2 ^ (f.exponentBits - 1) - 1

/-- The magnitude of a pattern. Below the least exponent the significand
has no leading one. -/
def magnitude (f : FloatFormat) (n : Nat) : ℚ :=
  let exponent := n / 2 ^ f.precision
  let fraction : ℚ := (n % 2 ^ f.precision : Nat) / 2 ^ f.precision
  if exponent = 0 then fraction * 2 ^ (1 - f.bias)
  else (1 + fraction) * 2 ^ ((exponent : Int) - f.bias)

/-- The magnitude of a pattern in units of the least positive one. -/
def units (f : FloatFormat) (n : Nat) : Nat :=
  if n / 2 ^ f.precision = 0 then n % 2 ^ f.precision
  else (2 ^ f.precision + n % 2 ^ f.precision) * 2 ^ (n / 2 ^ f.precision - 1)

variable {f : FloatFormat}

theorem scale_eq (hf : f.Usual) : (f.scale : Int) = f.bias - 1 + f.precision := by
  have hpow : 2 ^ 1 ≤ 2 ^ (f.exponentBits - 1) :=
    Nat.pow_le_pow_right (by omega) (by have := hf.two_le_exponentBits; omega)
  have hcast : ((2 ^ (f.exponentBits - 1) : Nat) : Int) = 2 ^ (f.exponentBits - 1) := by
    push_cast
    rfl
  rw [scale, bias, ← hcast, Nat.pow_eq]
  omega

theorem magnitude_eq_units (hf : f.Usual) (n : Nat) :
    f.magnitude n = f.units n / 2 ^ f.scale := by
  have htwo : (2 : ℚ) ≠ 0 := by norm_num
  -- one unit is the least exponent, shifted down by the bits of the significand
  have hunit : (2 : ℚ) ^ (1 - f.bias) = 2 ^ f.precision / 2 ^ f.scale := by
    rw [← zpow_natCast, ← zpow_natCast, ← zpow_sub₀ htwo, scale_eq hf]
    congr 1
    ring
  unfold magnitude units
  dsimp only
  split
  · rw [hunit]
    field_simp
  · next hexponent =>
    have hpow : (2 : ℚ) ^ (((n / 2 ^ f.precision : Nat) : Int) - f.bias) =
        2 ^ (n / 2 ^ f.precision - 1) * 2 ^ (1 - f.bias) := by
      rw [← zpow_natCast, ← zpow_add₀ htwo, Nat.cast_sub (Nat.pos_of_ne_zero hexponent)]
      congr 1
      ring
    rw [hpow, hunit]
    push_cast
    field_simp

/-! ## The order of patterns -/

theorem step_add_div (step rest : Nat) :
    (step * 2 ^ f.precision + rest) / 2 ^ f.precision = step + rest / 2 ^ f.precision := by
  rw [Nat.add_comm, Nat.add_mul_div_right _ _ (Nat.two_pow_pos _), Nat.add_comm]

/-- **A significand and a step make a pattern**, also where the significand
is rounded up to the next power of two. -/
theorem units_add {step k : Nat} (hhigh : k ≤ 2 ^ (f.precision + 1))
    (hlow : step = 0 ∨ 2 ^ f.precision ≤ k) :
    f.units (step * 2 ^ f.precision + k) = k * 2 ^ step := by
  have hpos : 0 < 2 ^ f.precision := Nat.two_pow_pos _
  rw [Nat.pow_succ] at hhigh
  have hmod : (step * 2 ^ f.precision + k) % 2 ^ f.precision = k % 2 ^ f.precision :=
    Nat.mul_add_mod_self_right ..
  unfold units
  rw [step_add_div, hmod]
  generalize 2 ^ f.precision = radix at *
  rcases Nat.lt_or_ge k radix with hsmall | hlarge
  · obtain rfl : step = 0 := by omega
    simp [Nat.div_eq_of_lt hsmall, Nat.mod_eq_of_lt hsmall]
  · rcases Nat.lt_or_ge k (2 * radix) with hnormal | hcarry
    · have hone : k / radix = 1 := by
        rw [Nat.div_eq_iff hpos]
        omega
      have hrest : k % radix = k - radix := by
        rw [Nat.mod_eq_sub_mod hlarge, Nat.mod_eq_of_lt (by omega)]
      rw [hone, hrest, if_neg (by omega), Nat.add_sub_cancel, Nat.add_sub_cancel' hlarge]
    · obtain rfl : k = 2 * radix := by omega
      rw [Nat.mul_div_cancel _ hpos, Nat.mul_mod_left, if_neg (by omega), Nat.add_zero,
        Nat.add_sub_assoc (by omega), Nat.pow_succ]
      ring

/-- **The step to the next magnitude** is told by the exponent. -/
theorem units_succ (n : Nat) : f.units (n + 1) = f.units n + 2 ^ (n / 2 ^ f.precision - 1) := by
  have hpos : 0 < 2 ^ f.precision := Nat.two_pow_pos _
  have hdouble : 2 ^ (f.precision + 1) = 2 * 2 ^ f.precision := Nat.pow_succ'
  -- every pattern is a step and a significand, which can both be read off
  obtain ⟨step, k, hn, hstep, hlt, hlow⟩ : ∃ step k, n = step * 2 ^ f.precision + k ∧
      n / 2 ^ f.precision - 1 = step ∧ k < 2 ^ (f.precision + 1) ∧
      (step = 0 ∨ 2 ^ f.precision ≤ k) := by
    have hsplit := Nat.div_add_mod' n (2 ^ f.precision)
    have hmod := Nat.mod_lt n hpos
    rcases Nat.eq_zero_or_pos (n / 2 ^ f.precision) with hzero | hexponent
    · exact ⟨0, n, by omega, by omega, by rw [hzero] at hsplit; omega, Or.inl rfl⟩
    · refine ⟨n / 2 ^ f.precision - 1, 2 ^ f.precision + n % 2 ^ f.precision, ?_, rfl, by omega,
        Or.inr (by omega)⟩
      rw [Nat.sub_mul, Nat.one_mul]
      have : 2 ^ f.precision ≤ n / 2 ^ f.precision * 2 ^ f.precision :=
        Nat.le_mul_of_pos_left _ hexponent
      omega
  rw [hstep, hn, Nat.add_assoc, units_add (by omega) (by omega), units_add (by omega) hlow]
  ring

theorem strictMono_units : StrictMono f.units :=
  strictMono_nat_of_lt_succ fun n => by
    rw [units_succ]
    exact Nat.lt_add_of_pos_right (Nat.two_pow_pos _)

theorem units_add_step_le {n k step : Nat} (hstep : step ≤ n / 2 ^ f.precision - 1) (h : n < k) :
    f.units n + 2 ^ step ≤ f.units k := by
  have hnext : f.units (n + 1) ≤ f.units k := strictMono_units.monotone h
  have hgap : 2 ^ step ≤ 2 ^ (n / 2 ^ f.precision - 1) := Nat.pow_le_pow_right (by omega) hstep
  rw [units_succ] at hnext
  omega

theorem strictMono_magnitude (hf : f.Usual) : StrictMono f.magnitude := by
  intro n k h
  rw [magnitude_eq_units hf, magnitude_eq_units hf]
  have := strictMono_units (f := f) h
  gcongr

theorem magnitude_zero (f : FloatFormat) : f.magnitude 0 = 0 := by
  simp [magnitude]

theorem magnitude_nonneg (hf : f.Usual) (n : Nat) : 0 ≤ f.magnitude n := by
  rw [← magnitude_zero f]
  exact (strictMono_magnitude hf).monotone (Nat.zero_le n)

/-! ## The nearest one -/

/-- Whether no magnitude is nearer to a number than that of a pattern, and
the pattern is even if another is as near. -/
structure IsNearest (f : FloatFormat) (q : ℚ) (n : Nat) : Prop where
  nearest : ∀ k, |q - f.magnitude n| ≤ |q - f.magnitude k|
  even : ∀ k, k ≠ n → |q - f.magnitude n| = |q - f.magnitude k| → n % 2 = 0

/-- A quotient lies within a half of what it is rounded to, and is rounded
to an even number if it lies just there. -/
theorem roundHalfEven_spec {a b : Nat} (hb : 0 < b) :
    2 * (roundHalfEven a b * b) ≤ 2 * a + b ∧ 2 * a ≤ 2 * (roundHalfEven a b * b) + b ∧
      (2 * (roundHalfEven a b * b) = 2 * a + b ∨ 2 * a = 2 * (roundHalfEven a b * b) + b →
        roundHalfEven a b % 2 = 0) ∧
      a / b ≤ roundHalfEven a b ∧ roundHalfEven a b ≤ a / b + 1 := by
  have hsplit := Nat.div_add_mod' a b
  have hmod := Nat.mod_lt a hb
  unfold roundHalfEven
  dsimp only
  generalize a / b = quotient at *
  generalize a % b = rest at *
  split
  · refine ⟨by omega, by omega, by omega, by omega, by omega⟩
  · have hnext : (quotient + 1) * b = quotient * b + b := Nat.succ_mul _ _
    refine ⟨by omega, by omega, by omega, by omega, by omega⟩

/-- What keeps within half a step of a number is nearest to it, when the
magnitudes on both sides are a step away at least. Below it they may be
nearer if the number does not lie there. -/
theorem isNearest_of_units (hf : f.Usual) {q u step : ℚ} {n : Nat} (hu : q = u / 2 ^ f.scale)
    (hwithin : |u - f.units n| ≤ step / 2) (heven : |u - f.units n| = step / 2 → n % 2 = 0)
    (habove : ∀ k, n < k → (f.units n : ℚ) + step ≤ f.units k)
    (hbelow : (f.units n : ℚ) ≤ u ∨ ∀ k < n, (f.units k : ℚ) + step ≤ f.units n) :
    f.IsNearest q n := by
  have hdistance : ∀ k, |q - f.magnitude k| = |u - f.units k| / 2 ^ f.scale := by
    intro k
    have hpos : (0 : ℚ) < 2 ^ f.scale := by positivity
    rw [magnitude_eq_units hf, hu, ← sub_div, abs_div, abs_of_pos hpos]
  -- a pattern on either side is as far away, and just as far in a tie only
  have hother : ∀ k, k ≠ n → |u - f.units n| ≤ |u - f.units k| ∧
      (|u - f.units n| = |u - f.units k| → |u - f.units n| = step / 2) := by
    intro k hk
    have hle := neg_le_abs (u - f.units n)
    have hge := le_abs_self (u - f.units n)
    rcases Nat.lt_or_gt_of_ne hk with hlt | hgt
    · have hfar := le_abs_self (u - f.units k)
      rcases hbelow with hbelow | hbelow
      · have hunits : (f.units k : ℚ) < f.units n := by exact_mod_cast strictMono_units hlt
        rw [abs_of_nonneg (sub_nonneg.2 hbelow)] at hwithin ⊢
        exact ⟨by linarith, fun heq => by linarith⟩
      · have := hbelow k hlt
        exact ⟨by linarith, fun heq => by linarith⟩
    · have hfar := neg_le_abs (u - f.units k)
      have := habove k hgt
      exact ⟨by linarith, fun heq => by linarith⟩
  refine ⟨fun k => ?_, fun k hk htie => heven ?_⟩
  · rw [hdistance, hdistance]
    by_cases hk : k = n
    · rw [hk]
    · have := (hother k hk).1
      gcongr
  · rw [hdistance, hdistance, div_left_inj' (by positivity)] at htie
    exact (hother k hk).2 htie

/-- Where a quotient is cut off, as many bits are left as the significand
has, and its leading one. -/
theorem cut_bounds (f : FloatFormat) (a den : Nat) :
    let step := (a / den).log2 - f.precision
    a / (den * 2 ^ step) < 2 ^ (f.precision + 1) ∧
      (step = 0 ∨ 2 ^ f.precision ≤ a / (den * 2 ^ step)) := by
  intro step
  have hlog : a / den < 2 ^ ((a / den).log2 + 1) := Nat.lt_log2_self
  rw [← Nat.div_div_eq_div_mul]
  constructor
  · rw [Nat.div_lt_iff_lt_mul (Nat.two_pow_pos _), ← Nat.pow_add]
    exact hlog.trans_le (Nat.pow_le_pow_right (by omega) (by omega))
  · rcases Nat.eq_zero_or_pos step with hzero | hpos
    · exact Or.inl hzero
    · right
      have hne : a / den ≠ 0 := by
        intro hzero
        simp [step, hzero] at hpos
      rw [Nat.le_div_iff_mul_le (Nat.two_pow_pos _), ← Nat.pow_add]
      exact (Nat.pow_le_pow_right (by omega) (by omega)).trans (Nat.log2_self_le hne)

/-- The magnitudes around a rounded quotient are a step away, those below
it unless the quotient lies above. -/
theorem units_around {a b step k n : Nat} (hn : n = step * 2 ^ f.precision + k)
    (hfull : step = 0 ∨ 2 ^ f.precision ≤ a / b) (hfloor : a / b ≤ k) :
    (∀ other, n < other → f.units n + 2 ^ step ≤ f.units other) ∧
      (k * b ≤ a ∨ ∀ other < n, f.units other + 2 ^ step ≤ f.units n) := by
  have hpos : 0 < 2 ^ f.precision := Nat.two_pow_pos _
  rcases hfull with rfl | hfull
  · refine ⟨fun other hlt => units_add_step_le (Nat.zero_le _) hlt, Or.inr fun other hlt => ?_⟩
    exact units_add_step_le (Nat.zero_le _) hlt
  · have hone : 1 ≤ k / 2 ^ f.precision :=
      (Nat.le_div_iff_mul_le hpos).2 (by rw [Nat.one_mul]; exact hfull.trans hfloor)
    refine ⟨fun other hlt => units_add_step_le ?_ hlt, ?_⟩
    · rw [hn, step_add_div]
      omega
    -- only the least significand of a step has nearer magnitudes below it
    rcases Nat.eq_or_lt_of_le (hfull.trans hfloor) with hleast | hmore
    · left
      calc k * b = 2 ^ f.precision * b := by rw [hleast]
        _ ≤ a / b * b := Nat.mul_le_mul_right b hfull
        _ ≤ a := Nat.div_mul_le_self a b
    · right
      intro other hlt
      have hprev : step ≤ (n - 1) / 2 ^ f.precision - 1 := by
        have hone : 1 ≤ (k - 1) / 2 ^ f.precision :=
          (Nat.le_div_iff_mul_le hpos).2 (by omega)
        rw [hn, Nat.add_sub_assoc (by omega), step_add_div]
        omega
      have hle : f.units other ≤ f.units (n - 1) := strictMono_units.monotone (by omega)
      have hgap := units_add_step_le (f := f) hprev (by omega : n - 1 < n)
      omega

/-- A rounded quotient is within half a step, and even if it is just
there. -/
theorem abs_sub_roundHalfEven {a den step k : Nat} {u : ℚ} (hden : 0 < den) (hu : den * u = a)
    (hk : roundHalfEven a (den * 2 ^ step) = k) :
    |u - k * 2 ^ step| ≤ 2 ^ step / 2 ∧ (|u - k * 2 ^ step| = 2 ^ step / 2 → k % 2 = 0) := by
  obtain ⟨hup, hdown, htie, -⟩ :=
    roundHalfEven_spec (a := a) (Nat.mul_pos hden (Nat.two_pow_pos step))
  rw [hk] at hup hdown htie
  have hdenq : (0 : ℚ) < den := by exact_mod_cast hden
  have hupq : (2 : ℚ) * (k * (den * 2 ^ step)) ≤ 2 * a + den * 2 ^ step := by exact_mod_cast hup
  have hdownq : (2 : ℚ) * a ≤ 2 * (k * (den * 2 ^ step)) + den * 2 ^ step := by
    exact_mod_cast hdown
  constructor
  · rw [abs_le]
    constructor
    · refine le_of_mul_le_mul_left ?_ hdenq
      linarith
    · refine le_of_mul_le_mul_left ?_ hdenq
      linarith
  · intro hhalf
    refine htie ?_
    rcases (abs_eq (by positivity)).1 hhalf with h | h
    · right
      have : (2 : ℚ) * a = 2 * (k * (den * 2 ^ step)) + den * 2 ^ step := by
        rw [← hu]
        linear_combination 2 * (den : ℚ) * h
      exact_mod_cast this
    · left
      have : (2 : ℚ) * (k * (den * 2 ^ step)) = 2 * a + den * 2 ^ step := by
        rw [← hu]
        linear_combination -2 * (den : ℚ) * h
      exact_mod_cast this

/-- **The nearest pattern** is found for every number. -/
theorem isNearest_nearest (hf : f.Usual) (num : Nat) {den : Nat} (hden : 0 < den) :
    f.IsNearest (num / den) (f.nearest num den) := by
  obtain ⟨hcut, hfull⟩ := cut_bounds f (num * 2 ^ f.scale) den
  unfold nearest
  dsimp only
  simp only [Nat.pow_eq]
  generalize ha : num * 2 ^ f.scale = a at *
  generalize (a / den).log2 - f.precision = step at *
  obtain ⟨-, -, -, hfloor, hceil⟩ :=
    roundHalfEven_spec (a := a) (Nat.mul_pos hden (Nat.two_pow_pos step))
  generalize hk : roundHalfEven a (den * 2 ^ step) = k at *
  have hunits : f.units (step * 2 ^ f.precision + k) = k * 2 ^ step :=
    units_add (by omega) (by omega)
  obtain ⟨habove, hbelow⟩ := units_around rfl hfull hfloor
  generalize hn : step * 2 ^ f.precision + k = n at *
  -- the quotient in units, and what rounding says of it
  obtain ⟨u, hu⟩ : ∃ u : ℚ, den * u = a := ⟨a / den, by field_simp⟩
  obtain ⟨hwithin, htie⟩ := abs_sub_roundHalfEven hden hu hk
  have hunitsq : (f.units n : ℚ) = k * 2 ^ step := by exact_mod_cast hunits
  have hdenq : (0 : ℚ) < den := by exact_mod_cast hden
  rw [← hunitsq] at hwithin htie
  refine isNearest_of_units hf ?_ hwithin ?_ ?_ ?_
  · have hnum : (a : ℚ) = num * 2 ^ f.scale := by exact_mod_cast ha.symm
    rw [div_eq_div_iff (by positivity) (by positivity), ← hnum, ← hu, mul_comm]
  · intro hhalf
    have heven := htie hhalf
    obtain ⟨p, hp⟩ := Nat.exists_eq_add_one.2 hf.precision_pos
    rw [← hn, hp, Nat.pow_succ, ← Nat.mul_assoc]
    omega
  · intro other hlt
    exact_mod_cast habove other hlt
  · refine hbelow.imp (fun hle => ?_) fun hbelow other hlt => by exact_mod_cast hbelow other hlt
    have hleq : (k : ℚ) * (den * 2 ^ step) ≤ a := by exact_mod_cast hle
    rw [hunitsq]
    refine le_of_mul_le_mul_left ?_ hdenq
    linarith

theorem exists_isNearest (hf : f.Usual) {q : ℚ} (hq : 0 ≤ q) : ∃ n, f.IsNearest q n := by
  have hnum : ((q.num.toNat : Nat) : ℚ) = q.num := by
    exact_mod_cast Int.toNat_of_nonneg (Rat.num_nonneg.2 hq)
  have hnearest := isNearest_nearest hf q.num.toNat q.den_pos
  rw [hnum, Rat.num_div_den] at hnearest
  exact ⟨_, hnearest⟩

/-- There is one nearest pattern: of two that are as near, both even, the
one between them would be nearer. -/
theorem IsNearest.unique (hf : f.Usual) {q : ℚ} {n k : Nat} (hn : f.IsNearest q n)
    (hk : f.IsNearest q k) : n = k := by
  wlog hlt : n < k generalizing n k
  · rcases Nat.lt_or_ge k n with hgt | hge
    · exact (this hk hn hgt).symm
    · omega
  have htie := le_antisymm (hn.nearest k) (hk.nearest n)
  have hneven := hn.even k (by omega) htie
  have hkeven := hk.even n (by omega) htie.symm
  have hleft := strictMono_magnitude hf (by omega : n < n + 1)
  have hright := strictMono_magnitude hf (by omega : n + 1 < k)
  have hbetween := hn.nearest (n + 1)
  grind

/-- **A nearest pattern lies beyond an even one** exactly if the number
lies beyond the middle before that. -/
theorem IsNearest.le_iff (hf : f.Usual) {q : ℚ} {n bound : Nat} (h : f.IsNearest q n)
    (hpos : 0 < bound) (heven : bound % 2 = 0) :
    bound ≤ n ↔ (f.magnitude (bound - 1) + f.magnitude bound) / 2 ≤ q := by
  have hstep := strictMono_magnitude hf (by omega : bound - 1 < bound)
  constructor
  · intro hle
    have hmono := (strictMono_magnitude hf).monotone hle
    have hnearer := h.nearest (bound - 1)
    grind
  · intro hmiddle
    by_contra hlt
    have hmono := (strictMono_magnitude hf).monotone (by omega : n ≤ bound - 1)
    have hnearer := h.nearest bound
    have htie : |q - f.magnitude n| = |q - f.magnitude bound| := by grind
    have hneven := h.even bound (by omega) htie
    -- the pattern before the bound is odd, so the nearest one is further down
    have hdown := strictMono_magnitude hf (by omega : n < bound - 1)
    grind

end FloatFormat

end WasmText
