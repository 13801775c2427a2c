import WasmText.Proofs.Literal.Integer
import Mathlib.Algebra.Order.Field.Power
import Mathlib.Algebra.Order.Ring.Rat
import Mathlib.Tactic.FieldSimp
import Mathlib.Tactic.Ring
/-!
# What decimal texts denote

A decimal text is digits with a point among or around them, or none, and an
exponent or none. It denotes a rational number: its digits by their place
before or after the point, times a power of ten (`DenotesDecimal`). Reading
such a text finds an integer and a power of ten that make up this number,
and refuses every other text (`decimal?_iff`).
-/

namespace WasmText

namespace Literal

/-! ## Numbers with a point -/

/-- Whether digits before and after a point denote a number. There may be
none on one of the sides. -/
def SpellsFraction (radix : Nat) (whole fraction : List Char) (x : ℚ) : Prop :=
  ∃ ws fs, List.Forall₂ (IsDigit radix) whole ws ∧ List.Forall₂ (IsDigit radix) fraction fs ∧
    ws ++ fs ≠ [] ∧
    x = (Nat.ofDigits radix ws.reverse : Nat) +
      (Nat.ofDigits radix fs.reverse : Nat) / (radix : ℚ) ^ fs.length

/-- Whether a text is a point with digits after it, or nothing. -/
def IsPointed (text fraction : List Char) : Prop :=
  text = '.' :: fraction ∨ text = [] ∧ fraction = []

/-- Whether a text is an exponent: digits, with a sign or none. -/
def DenotesExponent (text : List Char) (e : Int) : Prop :=
  (∃ n : Nat, Spells 10 text n ∧ e = n) ∨
    (∃ (digits : List Char) (n : Nat), text = '+' :: digits ∧ Spells 10 digits n ∧ e = n) ∨
    ∃ (digits : List Char) (n : Nat), text = '-' :: digits ∧ Spells 10 digits n ∧ e = -n

/-- Whether a text is an exponent after its mark, or nothing. -/
def IsScaled (text : List Char) (e : Int) : Prop :=
  text = [] ∧ e = 0 ∨
    ∃ mark ∈ ['e', 'E'], ∃ body, text = mark :: body ∧ DenotesExponent body e

/-- Whether a text is a decimal number without a sign, and which. -/
def DenotesDecimal (text : List Char) (q : ℚ) : Prop :=
  ∃ whole point fraction tail x e, text = whole ++ point ++ tail ∧ IsPointed point fraction ∧
    SpellsFraction 10 whole fraction x ∧ IsScaled tail e ∧ q = x * 10 ^ e

/-- Moving the point to the end makes a numeral of the digits. -/
theorem spellsFraction_iff {radix : Nat} (hradix : 0 < radix) {whole fraction : List Char} {x : ℚ} :
    SpellsFraction radix whole fraction x ↔
      ∃ m : Nat, digits? radix (whole ++ fraction) = some m ∧
        x = m / (radix : ℚ) ^ fraction.length := by
  have hpos : (0 : ℚ) < radix := by exact_mod_cast hradix
  have hvalue : ∀ ws fs : List Nat, ((Nat.ofDigits radix (ws ++ fs).reverse : Nat) : ℚ) /
      (radix : ℚ) ^ fs.length = (Nat.ofDigits radix ws.reverse : Nat) +
        (Nat.ofDigits radix fs.reverse : Nat) / (radix : ℚ) ^ fs.length := by
    intro ws fs
    rw [List.reverse_append, Nat.ofDigits_append, List.length_reverse]
    push_cast
    field_simp
    ring
  simp only [digits?_eq_some]
  constructor
  · rintro ⟨ws, fs, hws, hfs, hne, rfl⟩
    refine ⟨_, ⟨ws ++ fs, hne, List.rel_append hws hfs, rfl⟩, ?_⟩
    rw [← hvalue, hfs.length_eq]
  · rintro ⟨m, ⟨digits, hne, hdigits, rfl⟩, rfl⟩
    obtain ⟨ws, fs, hws, hfs, rfl⟩ : ∃ ws fs, List.Forall₂ (IsDigit radix) whole ws ∧
        List.Forall₂ (IsDigit radix) fraction fs ∧ digits = ws ++ fs := by
      refine ⟨digits.take whole.length, digits.drop whole.length, ?_, ?_,
        (List.take_append_drop _ _).symm⟩
      · have := List.forall₂_take whole.length hdigits
        rwa [List.take_left] at this
      · have := List.forall₂_drop whole.length hdigits
        rwa [List.drop_left] at this
    refine ⟨ws, fs, hws, hfs, hne, ?_⟩
    rw [← hvalue, hfs.length_eq]

/-! ## Exponents -/

theorem exponent?_eq_some {text : List Char} {e : Int} :
    exponent? text = some e ↔ DenotesExponent text e := by
  unfold exponent? DenotesExponent
  split
  · next digits =>
    simp only [Option.map_eq_some_iff, Option.bind_eq_bind, Option.bind_eq_some_iff,
      digits?_eq_some]
    constructor
    · rintro ⟨_, ⟨n, hn, hpure⟩, rfl⟩
      cases hpure
      exact .inr (.inr ⟨digits, n, rfl, hn, rfl⟩)
    · rintro (⟨n, hn, -⟩ | ⟨_, n, htext, -⟩ | ⟨_, n, htext, hn, rfl⟩)
      · exact absurd rfl (DenotesMagnitude.ne_sign (Or.inl hn)).2
      · cases htext
      · cases htext
        exact ⟨n, ⟨n, hn, rfl⟩, rfl⟩
  · next digits =>
    simp only [Option.map_eq_some_iff, digits?_eq_some]
    constructor
    · rintro ⟨n, hn, rfl⟩
      exact .inr (.inl ⟨digits, n, rfl, hn, rfl⟩)
    · rintro (⟨n, hn, -⟩ | ⟨_, n, htext, hn, rfl⟩ | ⟨_, n, htext, -⟩)
      · exact absurd rfl (DenotesMagnitude.ne_sign (Or.inl hn)).1
      · cases htext
        exact ⟨n, hn, rfl⟩
      · cases htext
  · next hminus hplus =>
    simp only [Option.map_eq_some_iff, digits?_eq_some]
    constructor
    · rintro ⟨n, hn, rfl⟩
      exact .inl ⟨n, hn, rfl⟩
    · rintro (⟨n, hn, rfl⟩ | ⟨digits, n, htext, -⟩ | ⟨digits, n, htext, -⟩)
      · exact ⟨n, hn, rfl⟩
      · exact absurd htext (hplus digits)
      · exact absurd htext (hminus digits)

/-! ## Decimal texts -/

/-- Characters of one kind before something else are all that is taken. -/
theorem span_append {p : Char → Bool} {front rest : List Char} (hfront : ∀ c ∈ front, p c = true)
    (hrest : ∀ c ∈ rest.head?, p c = false) :
    (front ++ rest).takeWhile p = front ∧ (front ++ rest).dropWhile p = rest := by
  rw [List.takeWhile_append_of_pos hfront, List.dropWhile_append_of_pos hfront]
  cases rest with
  | nil => exact ⟨List.append_nil front, rfl⟩
  | cons c cs =>
      have hc : ¬ p c = true := by simp [hrest c rfl]
      rw [List.takeWhile_cons_of_neg hc, List.dropWhile_cons_of_neg hc, List.append_nil]
      exact ⟨rfl, rfl⟩

theorem span_digits {whole : List Char} {digits : List Nat}
    (hwhole : List.Forall₂ (IsDigit 10) whole digits) {rest : List Char}
    (hrest : ∀ c ∈ rest.head?, c.isDigit = false) :
    (whole ++ rest).takeWhile Char.isDigit = whole ∧
      (whole ++ rest).dropWhile Char.isDigit = rest := by
  refine span_append (fun c hc => ?_) hrest
  obtain ⟨d, hd⟩ := exists_isDigit_of_forall₂ hwhole hc
  exact of_isDigit (by decide) hd

theorem exists_cons_of_head? {c : Char} {cs : List Char} (h : (cs.head? == some c) = true) :
    ∃ after, cs = c :: after := by
  cases cs with
  | nil => cases h
  | cons first after => exact ⟨after, by simpa using h⟩

/-- Where the digits before a point end, reading goes on past the point and
the digits after it, if there is one. -/
theorem exists_isPointed (rest : List Char) :
    ∃ point fraction tail, rest = point ++ tail ∧ IsPointed point fraction ∧
      (if (rest.head? == some '.') = true then (rest.drop 1).takeWhile Char.isDigit else []) =
        fraction ∧
      (if (rest.head? == some '.') = true then (rest.drop 1).dropWhile Char.isDigit else rest) =
        tail := by
  split_ifs with hpoint
  · obtain ⟨after, rfl⟩ := exists_cons_of_head? hpoint
    refine ⟨'.' :: after.takeWhile Char.isDigit, _, _, ?_, Or.inl rfl, rfl, rfl⟩
    rw [List.cons_append, List.drop_succ_cons, List.drop_zero, List.takeWhile_append_dropWhile]
  · exact ⟨[], [], rest, rfl, Or.inr ⟨rfl, rfl⟩, rfl, rfl⟩

/-- The digits after the point are paid for in the exponent. -/
theorem div_pow_mul_zpow (n places : Nat) (s : Int) :
    (n : ℚ) / ((10 : Nat) : ℚ) ^ places * 10 ^ s = n * 10 ^ (s - places) := by
  rw [zpow_sub₀ (by norm_num), zpow_natCast]
  push_cast
  ring

/-- A text that is read denotes what was read. -/
theorem denotesDecimal_of_decimal? {text : List Char} {m : Nat} {e : Int}
    (h : decimal? text = some (m, e)) : DenotesDecimal text (m * 10 ^ e) := by
  simp only [decimal?, Option.bind_eq_bind, Option.bind_eq_some_iff, Option.pure_def] at h
  obtain ⟨n, hn, h⟩ := h
  have htext := List.takeWhile_append_dropWhile (p := Char.isDigit) (l := text)
  generalize text.takeWhile Char.isDigit = whole at htext hn
  obtain ⟨point, fraction, tail, hrest, hpoint, hfraction, htail⟩ :=
    exists_isPointed (text.dropWhile Char.isDigit)
  rw [hfraction] at hn h
  rw [htail] at h
  have hspells := (spellsFraction_iff (by norm_num)).2 ⟨n, hn, rfl⟩
  have hwhole : text = whole ++ point ++ tail := by
    rw [List.append_assoc, ← hrest, htext]
  split at h
  · cases h
    exact ⟨whole, point, fraction, [], _, 0, hwhole, hpoint, hspells, Or.inl ⟨rfl, rfl⟩,
      (div_pow_mul_zpow m _ 0).symm⟩
  · next mark body =>
    split_ifs at h with hmark
    · obtain ⟨s, hs, h⟩ := Option.bind_eq_some_iff.1 h
      cases h
      exact ⟨whole, point, fraction, mark :: body, _, s, hwhole, hpoint, hspells,
        Or.inr ⟨mark, by simpa using hmark, body, rfl, exponent?_eq_some.1 hs⟩,
        (div_pow_mul_zpow m _ s).symm⟩
    · cases h

/-- No exponent starts like a number, nor with a point. -/
theorem IsScaled.head_ne {tail : List Char} {e : Int} (h : IsScaled tail e) :
    ∀ c ∈ tail.head?, c.isDigit = false ∧ c ≠ '.' := by
  rcases h with ⟨rfl, -⟩ | ⟨mark, hmark, body, rfl, -⟩
  · intro c hc
    cases hc
  · intro c hc
    cases hc
    simp only [List.mem_cons, List.not_mem_nil, or_false] at hmark
    rcases hmark with rfl | rfl
    · decide
    · decide

/-- Reading finds the parts that a text was put together from. -/
theorem decimal?_append {whole point fraction tail : List Char} {x : ℚ} {s : Int}
    (hpoint : IsPointed point fraction) (hx : SpellsFraction 10 whole fraction x)
    (hs : IsScaled tail s) :
    ∃ n : Nat, decimal? (whole ++ point ++ tail) = some (n, s - fraction.length) ∧
      x = n / ((10 : Nat) : ℚ) ^ fraction.length := by
  obtain ⟨n, hn, hvalue⟩ := (spellsFraction_iff (by norm_num)).1 hx
  refine ⟨n, ?_, hvalue⟩
  obtain ⟨ws, fs, hws, hfs, -⟩ := hx
  have hhead : ∀ c ∈ (point ++ tail).head?, c.isDigit = false := by
    rcases hpoint with rfl | ⟨rfl, rfl⟩
    · intro c hc
      cases hc
      decide
    · exact fun c hc => (hs.head_ne c hc).1
  have hwhole := span_digits hws hhead
  have hfraction : (if ((point ++ tail).head? == some '.') = true then
      ((point ++ tail).drop 1).takeWhile Char.isDigit else []) = fraction ∧
      (if ((point ++ tail).head? == some '.') = true then
        ((point ++ tail).drop 1).dropWhile Char.isDigit else point ++ tail) = tail := by
    rcases hpoint with rfl | ⟨rfl, rfl⟩
    · exact span_digits hfs fun c hc => (hs.head_ne c hc).1
    · have hhead : (tail.head? == some '.') = false := by
        cases tail with
        | nil => rfl
        | cons c cs => simpa using (hs.head_ne c rfl).2
      simp [hhead]
  unfold decimal?
  simp only [List.append_assoc, hwhole.1, hwhole.2, hfraction.1, hfraction.2, hn]
  rcases hs with ⟨rfl, rfl⟩ | ⟨mark, hmark, body, rfl, hbody⟩
  · rfl
  · have hmark' : mark = 'e' ∨ mark = 'E' := by simpa using hmark
    simp [hmark', exponent?_eq_some.2 hbody]

/-- **A decimal text is read exactly if it denotes a number**, and then as
an integer and a power of ten that make up the number. -/
theorem decimal?_iff {text : List Char} {q : ℚ} :
    DenotesDecimal text q ↔
      ∃ (m : Nat) (e : Int), decimal? text = some (m, e) ∧ q = m * 10 ^ e := by
  constructor
  · rintro ⟨whole, point, fraction, tail, x, s, rfl, hpoint, hx, hs, rfl⟩
    obtain ⟨n, hread, rfl⟩ := decimal?_append hpoint hx hs
    exact ⟨n, _, hread, div_pow_mul_zpow n _ s⟩
  · rintro ⟨m, e, hread, rfl⟩
    exact denotesDecimal_of_decimal? hread

end Literal

end WasmText
