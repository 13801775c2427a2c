import WasmText.Proofs.Literal.Float
/-!
# The reader of hexadecimal numbers

The reader that the program runs with is lawful (`hexReader_lawful`). It
finds no sign, and what it reads is an integer and a power of two that make
up the number the text denotes (`eq_of_hexadecimal?`), of which the pattern
is finite only if the number does not overflow the format.
-/

namespace WasmText

namespace Literal

/-! ## Binary exponents -/

/-- An exponent holds no blank. -/
theorem DenotesExponent.not_isBlank {text : List Char} {e : Int} (h : DenotesExponent text e) :
    ∀ c ∈ text, isBlank c = false := by
  have hdigits : ∀ {digits : List Char} {n : Nat}, Spells 10 digits n →
      ∀ c ∈ digits, isBlank c = false := by
    intro digits n hn c hc
    obtain ⟨d, hd⟩ := exists_isDigit_of_mem hn hc
    have hblank : (!isBlank c) = true := of_isDigit (p := fun c => !isBlank c) (by decide) hd
    simpa using hblank
  rcases h with ⟨n, hn, -⟩ | ⟨digits, n, rfl, hn, -⟩ | ⟨digits, n, rfl, hn, -⟩
  · exact hdigits hn
  · exact List.forall_mem_cons.2 ⟨by decide, hdigits hn⟩
  · exact List.forall_mem_cons.2 ⟨by decide, hdigits hn⟩

/-- A plus before digits changes nothing. -/
theorem DenotesExponent.of_plus {digits : List Char} {e : Int}
    (h : DenotesExponent ('+' :: digits) e) : DenotesExponent digits e := by
  rcases h with ⟨n, hn, -⟩ | ⟨_, n, htext, hn, rfl⟩ | ⟨_, n, htext, -⟩
  · exact absurd rfl (DenotesMagnitude.ne_sign (Or.inl hn)).1
  · cases htext
    exact Or.inl ⟨n, hn, rfl⟩
  · cases htext

/-- Where there are no blanks, none are dropped from the end. -/
theorem trim_eq_self {text : List Char} (htext : ∀ c ∈ text, isBlank c = false) :
    (text.reverse.dropWhile isBlank).reverse = text := by
  have hrest : ∀ c ∈ text.reverse.head?, isBlank c = false :=
    fun c hc => htext c (List.mem_reverse.1 (List.mem_of_mem_head? hc))
  have hdrop := (span_append (List.forall_mem_nil (isBlank · = true)) hrest).2
  rw [List.nil_append] at hdrop
  rw [hdrop, List.reverse_reverse]

/-- An exponent that is read is read as the one that is written. -/
theorem eq_of_binaryExponent? {text : List Char} {e e' : Int} (h : DenotesExponent text e)
    (hread : binaryExponent? text = some e') : e' = e := by
  simp only [binaryExponent?, trim_eq_self h.not_isBlank, Option.filter_eq_some_iff] at hread
  split_ifs at hread with hplus
  · obtain ⟨digits, rfl⟩ := exists_cons_of_head? hplus
    -- the plus that is dropped is the sign of the exponent
    exact Option.some.inj (hread.1.symm.trans (exponent?_eq_some.2 h.of_plus))
  · exact Option.some.inj (hread.1.symm.trans (exponent?_eq_some.2 h))

/-! ## Significands -/

/-- Digits hold neither a point nor a separator, so all of them count. -/
theorem hexSignificand?_eq {whole point fraction : List Char} {x : ℚ}
    (hpoint : IsPointed point fraction) (hx : SpellsFraction 16 whole fraction x) :
    hexSignificand? (whole ++ point) =
      (digits? 16 (whole ++ fraction)).map fun m => (m, fraction.length) := by
  obtain ⟨ws, fs, hws, hfs, -⟩ := hx
  have hother : ∀ {cs : List Char} {ds : List Nat} {c : Char}, List.Forall₂ (IsDigit 16) cs ds →
      digit? 16 c = none → ∀ d ∈ cs, (d != c) = true := by
    intro cs ds c h hnone d hmem
    obtain ⟨value, hvalue⟩ := exists_isDigit_of_forall₂ h hmem
    exact bne_iff_ne.2 (ne_of_isDigit hvalue hnone)
  have hhead : ∀ c ∈ point.head?, (c != '.') = false := by
    rcases hpoint with rfl | ⟨rfl, -⟩
    · intro c hc
      cases hc
      rfl
    · intro c hc
      cases hc
  have hdrop : point.drop 1 = fraction := by
    rcases hpoint with rfl | ⟨rfl, rfl⟩ <;> rfl
  obtain ⟨htake, hrest⟩ := span_append (hother hws rfl) hhead
  rw [hexSignificand?, htake, hrest, hdrop, List.filter_eq_self.2 (hother hws rfl),
    List.filter_eq_self.2 (hother hfs rfl)]
  cases digits? 16 (whole ++ fraction) with
  | none => rfl
  | some m => rfl

/-- The places after the point are paid for in the exponent. -/
theorem div_pow_mul_two_zpow (n places : Nat) (s : Int) :
    (n : ℚ) / ((16 : Nat) : ℚ) ^ places * 2 ^ s = n * 2 ^ (s - 4 * places) := by
  have hsixteen : ((16 : Nat) : ℚ) ^ places = 2 ^ ((4 * places : Nat) : Int) := by
    rw [zpow_natCast, pow_mul]
    norm_num
  rw [hsixteen, zpow_sub₀ (by norm_num)]
  push_cast
  ring

/-! ## Numbers -/

/-- **What is read is the number that is written.** -/
theorem eq_of_hexadecimal? {whole point fraction tail : List Char} {x : ℚ} {s e : Int} {m : Nat}
    (hpoint : IsPointed point fraction) (hx : SpellsFraction 16 whole fraction x)
    (htail : IsBinaryScaled tail s) (h : hexadecimal? (whole ++ point ++ tail) = some (m, e)) :
    x * 2 ^ s = m * 2 ^ e := by
  have hsignificand : ∀ c ∈ whole ++ point, (!(c == 'p' || c == 'P')) = true := by
    intro c hc
    have hsmall : c ≠ 'p' := fun hp => not_mem_significand hpoint hx rfl (by decide) (hp ▸ hc)
    have hlarge : c ≠ 'P' := fun hp => not_mem_significand hpoint hx rfl (by decide) (hp ▸ hc)
    simp [hsmall, hlarge]
  have hmark : ∀ c ∈ tail.head?, (!(c == 'p' || c == 'P')) = false := by
    rcases htail with ⟨rfl, -⟩ | ⟨mark, hmark, body, rfl, -⟩
    · intro c hc
      cases hc
    · intro c hc
      cases hc
      simpa [or_iff_not_imp_left] using hmark
  obtain ⟨htake, hrest⟩ := span_append hsignificand hmark
  obtain ⟨n, hn, rfl⟩ := (spellsFraction_iff (by norm_num)).1 hx
  simp only [hexadecimal?, htake, hrest, hexSignificand?_eq hpoint hx, hn, Option.map_some,
    Option.bind_eq_bind, Option.bind_some, Option.pure_def] at h
  obtain ⟨rfl, rfl⟩ : n = m ∧ s - 4 * fraction.length = e := by
    rcases htail with ⟨rfl, rfl⟩ | ⟨mark, -, body, rfl, hbody⟩
    · exact Prod.mk.inj (Option.some.inj h)
    · obtain ⟨s', hs', h⟩ := Option.bind_eq_some_iff.1 h
      obtain rfl := eq_of_binaryExponent? hbody hs'
      exact Prod.mk.inj (Option.some.inj h)
  exact div_pow_mul_two_zpow n fraction.length s

/-- A number that overflows has no finite pattern. -/
theorem infinity_le_scaledBits {f : FloatFormat} (hf : f.Usual) {m : Nat} {e : Int}
    (h : f.overflow ≤ (m : ℚ) * 2 ^ e) : f.infinity ≤ scaledBits f m e := by
  have hrounding : f.IsRounding (m * 2 ^ e) (f.nearestScaled 2 m e) :=
    FloatFormat.isRounding_nearestScaled hf (le_refl 2) m e
  have hinfinite := hrounding.infinite h
  rw [scaledBits]
  split_ifs
  · exact le_add_right hinfinite
  · exact le_min hinfinite (le_refl _)

end Literal

open Literal

/-- **The reader that the program runs with is lawful.** -/
theorem hexReader_lawful : HexReader.Lawful where
  unsigned f text negative bits _ _ hread _ := by
    simp only [HexReader.read?, Option.bind_eq_bind, Option.bind_eq_some_iff, Option.pure_def,
      Option.some.injEq, Prod.mk.injEq] at hread
    obtain ⟨digits, -, ⟨m, e⟩, -, hnegative, -⟩ := hread
    exact hnegative.symm
  large f text q negative bits hf hq hle hread := by
    simp only [HexReader.read?, Option.bind_eq_bind, Option.bind_eq_some_iff, Option.pure_def,
      Option.some.injEq, Prod.mk.injEq] at hread
    obtain ⟨digits, hdigits, ⟨m, e⟩, hnumber, -, rfl⟩ := hread
    obtain ⟨mark, hmark, whole, point, fraction, tail, x, s, rfl, hpoint, hx, htail, rfl⟩ := hq
    rw [afterHexMark?_eq_some.2 ⟨mark, hmark, rfl⟩] at hdigits
    cases hdigits
    rw [eq_of_hexadecimal? hpoint hx htail hnumber] at hle
    exact infinity_le_scaledBits hf hle

end WasmText
