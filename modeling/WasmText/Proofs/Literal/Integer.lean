import WasmText.Literal
import WasmText.Proofs.Source.Numeral
import Mathlib.Algebra.Order.Ring.Int
import Mathlib.Data.Int.ModEq
/-!
# What integer literals denote

An integer literal is a numeral, decimal or after a mark for hexadecimal
digits, with a sign in front or none (`DenotesInteger`). It stands for a
word if its value lies between the least signed and the greatest unsigned
value of the width (`DenotesWord`), and the word is the two's complement of
that value (`Wraps`). The readers of literals accept these texts and no
others (`word?_eq_some`, `natural?_eq_some`).
-/

namespace WasmText

namespace Literal

/-! ## Texts and their values -/

/-- Whether a text is a numeral: decimal digits, or hexadecimal ones after
their mark. -/
def DenotesMagnitude (text : List Char) (n : Nat) : Prop :=
  Spells 10 text n ∨ ∃ mark ∈ ["0x".toList, "0X".toList], ∃ digits, text = mark ++ digits ∧
    Spells 16 digits n

/-- Whether a text is a natural number, with a plus or without. -/
def DenotesNatural (text : List Char) (n : Nat) : Prop :=
  DenotesMagnitude text n ∨ ∃ body, text = '+' :: body ∧ DenotesMagnitude body n

/-- Whether a text is an integer. -/
def DenotesInteger (text : List Char) (v : Int) : Prop :=
  (∃ n : Nat, DenotesNatural text n ∧ v = n) ∨
    ∃ (body : List Char) (n : Nat), text = '-' :: body ∧ DenotesMagnitude body n ∧ v = -n

/-- Whether a text is an integer that a word can be written as: from the
least signed value of the width to the greatest unsigned one. -/
def DenotesWord (width : Nat) (text : List Char) (v : Int) : Prop :=
  DenotesInteger text v ∧ -2 ^ (width - 1) ≤ v ∧ v ≤ 2 ^ width - 1

/-- Whether a signed word is the two's complement of an integer. -/
def Wraps (width : Nat) (v w : Int) : Prop :=
  w ≡ v [ZMOD 2 ^ width] ∧ -2 ^ (width - 1) ≤ w ∧ w < 2 ^ (width - 1)

/-! ## Marks and signs -/

theorem afterHexMark?_eq_some {text digits : List Char} :
    afterHexMark? text = some digits ↔
      ∃ mark ∈ ["0x".toList, "0X".toList], text = mark ++ digits := by
  constructor
  · intro h
    unfold afterHexMark? at h
    split at h
    · cases h
      exact ⟨"0x".toList, by simp, rfl⟩
    · cases h
      exact ⟨"0X".toList, by simp, rfl⟩
    · cases h
  · rintro ⟨mark, hmark, rfl⟩
    simp only [List.mem_cons, List.not_mem_nil, or_false] at hmark
    rcases hmark with rfl | rfl
    · rfl
    · rfl

/-- **The magnitude of a text** is what its numeral denotes. -/
theorem magnitude?_eq_some {text : List Char} {n : Nat} :
    magnitude? text = some n ↔ DenotesMagnitude text n := by
  unfold magnitude? DenotesMagnitude
  cases hmark : afterHexMark? text with
  | some digits =>
      obtain ⟨mark, hmem, rfl⟩ := afterHexMark?_eq_some.1 hmark
      -- the letter of a mark is no decimal digit
      have hdecimal : ¬ Spells 10 (mark ++ digits) n := by
        rw [← digits?_eq_some]
        simp only [List.mem_cons, List.not_mem_nil, or_false] at hmem
        rcases hmem with rfl | rfl
        · intro h
          cases h
        · intro h
          cases h
      simp only [digits?_eq_some, hdecimal, false_or]
      constructor
      · intro h
        exact ⟨mark, hmem, digits, rfl, h⟩
      · rintro ⟨mark', hmem', digits', htext, h⟩
        have hother := afterHexMark?_eq_some.2 ⟨mark', hmem', htext⟩
        rw [hmark] at hother
        rwa [Option.some.inj hother]
  | none =>
      simp only [digits?_eq_some]
      refine ⟨Or.inl, fun h => h.resolve_right ?_⟩
      rintro ⟨mark, hmem, digits, rfl, -⟩
      rw [afterHexMark?_eq_some.2 ⟨mark, hmem, rfl⟩] at hmark
      cases hmark

/-- No numeral starts with a sign. -/
theorem DenotesMagnitude.ne_sign {c : Char} {cs : List Char} {n : Nat}
    (h : DenotesMagnitude (c :: cs) n) : c ≠ '+' ∧ c ≠ '-' := by
  rcases h with h | ⟨mark, hmem, digits, htext, -⟩
  · rw [← digits?_eq_some] at h
    constructor
    · rintro rfl
      cases h
    · rintro rfl
      cases h
  · simp only [List.mem_cons, List.not_mem_nil, or_false] at hmem
    rcases hmem with rfl | rfl
    · cases htext
      decide
    · cases htext
      decide

/-- A text starts with a minus, with a plus, or with neither. -/
theorem splitSign_cases (text : List Char) :
    (∃ body, text = '-' :: body ∧ splitSign text = (true, body)) ∨
      (∃ body, text = '+' :: body ∧ splitSign text = (false, body)) ∨
      (∀ body, text ≠ '-' :: body ∧ text ≠ '+' :: body) ∧ splitSign text = (false, text) := by
  unfold splitSign
  split
  · exact Or.inl ⟨_, rfl, rfl⟩
  · exact Or.inr (Or.inl ⟨_, rfl, rfl⟩)
  · next hminus hplus => exact Or.inr (Or.inr ⟨fun body => ⟨hminus body, hplus body⟩, rfl⟩)

theorem denotesNatural_iff {text : List Char} {n : Nat} :
    DenotesNatural text n ↔ ∃ body, splitSign text = (false, body) ∧ DenotesMagnitude body n := by
  unfold DenotesNatural
  obtain ⟨body, rfl, hsplit⟩ | ⟨body, rfl, hsplit⟩ | ⟨hnone, hsplit⟩ := splitSign_cases text
  · rw [hsplit]
    constructor
    · rintro (h | ⟨_, htext, -⟩)
      · exact absurd rfl h.ne_sign.2
      · cases htext
    · rintro ⟨_, hpair, -⟩
      cases hpair
  · rw [hsplit]
    constructor
    · rintro (h | ⟨_, htext, h⟩)
      · exact absurd rfl h.ne_sign.1
      · cases htext
        exact ⟨body, rfl, h⟩
    · rintro ⟨_, hpair, h⟩
      cases hpair
      exact Or.inr ⟨body, rfl, h⟩
  · rw [hsplit]
    constructor
    · rintro (h | ⟨body, htext, -⟩)
      · exact ⟨text, rfl, h⟩
      · exact absurd htext (hnone body).2
    · rintro ⟨_, hpair, h⟩
      cases hpair
      exact Or.inl h

theorem splitSign_eq_true {text body : List Char} (h : splitSign text = (true, body)) :
    text = '-' :: body := by
  obtain ⟨_, rfl, hsplit⟩ | ⟨_, rfl, hsplit⟩ | ⟨-, hsplit⟩ := splitSign_cases text
  all_goals cases hsplit.symm.trans h
  rfl

theorem denotesInteger_iff {text : List Char} {v : Int} :
    DenotesInteger text v ↔ ∃ negative body, ∃ n : Nat, splitSign text = (negative, body) ∧
      DenotesMagnitude body n ∧ v = if negative then -(n : Int) else n := by
  constructor
  · rintro (⟨n, hn, rfl⟩ | ⟨body, n, rfl, hn, rfl⟩)
    · obtain ⟨body, hsplit, hn⟩ := denotesNatural_iff.1 hn
      exact ⟨false, body, n, hsplit, hn, rfl⟩
    · exact ⟨true, body, n, rfl, hn, rfl⟩
  · rintro ⟨negative, body, n, hsplit, hn, rfl⟩
    cases negative with
    | false => exact Or.inl ⟨n, denotesNatural_iff.2 ⟨body, hsplit, hn⟩, rfl⟩
    | true => exact Or.inr ⟨body, n, splitSign_eq_true hsplit, hn, rfl⟩

/-- **A natural number is read exactly if its text denotes it** and it is
below `2 ^ 32`. -/
theorem natural?_eq_some {text : List Char} {n : Nat} :
    natural? text = some n ↔ DenotesNatural text n ∧ n < 2 ^ 32 := by
  rw [denotesNatural_iff]
  unfold natural?
  split
  · next hsplit => simp [hsplit]
  · next body hsplit =>
    simp only [hsplit, Option.filter_eq_some_iff, magnitude?_eq_some, decide_eq_true_eq]
    simp

theorem natural?_lt {text : List Char} {n : Nat} (h : natural? text = some n) : n < 2 ^ 32 :=
  (natural?_eq_some.1 h).2

/-! ## Two's complement -/

section Words

variable {width : Nat} {v w w' : Int}

theorem two_pow_width (hwidth : 0 < width) : (2 : Int) ^ width = 2 * 2 ^ (width - 1) := by
  rw [← pow_succ', Nat.sub_add_cancel hwidth]

/-- A width has one word for an integer. -/
theorem Wraps.unique (hwidth : 0 < width) (h : Wraps width v w) (h' : Wraps width v w') :
    w = w' := by
  obtain ⟨hmod, hlow, hhigh⟩ := h
  obtain ⟨hmod', hlow', hhigh'⟩ := h'
  have hdvd : (2 : Int) ^ width ∣ w - w' := (hmod'.trans hmod.symm).dvd
  have habs : |w - w'| < 2 ^ width := by
    rw [two_pow_width hwidth, abs_lt]
    omega
  have := Int.eq_zero_of_abs_lt_dvd hdvd habs
  omega

theorem wraps_bmod (hwidth : 0 < width) (v : Int) : Wraps width v (v.bmod (2 ^ width)) := by
  have hcast : ((2 ^ width : Nat) : Int) = 2 * 2 ^ (width - 1) := by
    rw [← two_pow_width hwidth]
    exact Nat.cast_pow 2 width
  have hlow := Int.le_bmod (x := v) (Nat.two_pow_pos width)
  have hhigh := Int.bmod_lt (x := v) (Nat.two_pow_pos width)
  refine ⟨?_, ?_, ?_⟩
  · have hmod : v.bmod (2 ^ width) % ((2 ^ width : Nat) : Int) = v % ((2 ^ width : Nat) : Int) :=
      Int.bmod_emod
    rwa [Nat.cast_pow] at hmod
  · omega
  · omega

/-- What a signed word can hold stands for itself. -/
theorem wraps_self (hlow : -2 ^ (width - 1) ≤ v) (hhigh : v < 2 ^ (width - 1)) :
    Wraps width v v :=
  ⟨Int.ModEq.refl v, hlow, hhigh⟩

/-- The value with its sign decides whether a word is read. -/
theorem word?_of_magnitude? (hwidth : 0 < width) {text body : List Char} {negative : Bool} {n : Nat}
    (hsplit : splitSign text = (negative, body)) (hn : magnitude? body = some n)
    (hv : v = if negative then -(n : Int) else n) :
    word? width text =
      if -2 ^ (width - 1) ≤ v ∧ v ≤ 2 ^ width - 1 then some (v.bmod (2 ^ width)) else none := by
  have htwo := two_pow_width hwidth
  have hpos : (0 : Int) < 2 ^ (width - 1) := by positivity
  have hhalf : ((2 ^ (width - 1) : Nat) : Int) = 2 ^ (width - 1) := Nat.cast_pow 2 _
  have hwhole : ((2 ^ width : Nat) : Int) = 2 ^ width := Nat.cast_pow 2 _
  unfold word?
  rw [hsplit]
  simp only [hn]
  cases negative with
  | false =>
      obtain rfl : v = n := hv
      have hrange : n < 2 ^ width ↔ -2 ^ (width - 1) ≤ (n : Int) ∧ (n : Int) ≤ 2 ^ width - 1 := by
        omega
      rw [if_neg Bool.false_ne_true]
      exact if_congr hrange rfl rfl
  | true =>
      obtain rfl : v = -(n : Int) := hv
      have hrange : n ≤ 2 ^ (width - 1) ↔
          -2 ^ (width - 1) ≤ -(n : Int) ∧ -(n : Int) ≤ 2 ^ width - 1 := by
        omega
      rw [if_pos rfl, ← if_congr hrange rfl rfl]
      -- a negative value in range is its own two's complement
      split
      · next hle =>
        have hle : n ≤ 2 ^ (width - 1) := hle
        have hself : Wraps width (-(n : Int)) (-(n : Int)) := wraps_self (by omega) (by omega)
        rw [if_pos hle, (wraps_bmod hwidth _).unique hwidth hself]
      · next hgt => exact (if_neg hgt).symm

/-- **A word is read exactly if its text denotes an integer in range**, as
the two's complement of that. -/
theorem word?_eq_some (hwidth : 0 < width) {text : List Char} :
    word? width text = some w ↔ ∃ v, DenotesWord width text v ∧ Wraps width v w := by
  constructor
  · intro h
    rcases hsplit : splitSign text with ⟨negative, body⟩
    cases hn : magnitude? body with
    | none =>
        simp only [word?, hsplit, hn] at h
        cases h
    | some n =>
        rw [word?_of_magnitude? hwidth hsplit hn rfl, Option.ite_none_right_eq_some] at h
        obtain ⟨hrange, hw⟩ := h
        cases hw
        refine ⟨_, ⟨denotesInteger_iff.2 ?_, hrange⟩, wraps_bmod hwidth _⟩
        exact ⟨negative, body, n, hsplit, magnitude?_eq_some.1 hn, rfl⟩
  · rintro ⟨v, ⟨hdenotes, hrange⟩, hwraps⟩
    obtain ⟨negative, body, n, hsplit, hn, hv⟩ := denotesInteger_iff.1 hdenotes
    rw [word?_of_magnitude? hwidth hsplit (magnitude?_eq_some.2 hn) hv, if_pos hrange,
      (wraps_bmod hwidth v).unique hwidth hwraps]

theorem word?_bounds (hwidth : 0 < width) {text : List Char} (h : word? width text = some w) :
    -2 ^ (width - 1) ≤ w ∧ w < 2 ^ (width - 1) := by
  obtain ⟨_, _, hwraps⟩ := (word?_eq_some hwidth).1 h
  exact hwraps.2

theorem word?_eq_none (hwidth : 0 < width) {text : List Char} :
    word? width text = none ↔ ¬ ∃ v, DenotesWord width text v := by
  rw [Option.eq_none_iff_forall_ne_some]
  constructor
  · rintro hnone ⟨v, hv⟩
    exact hnone _ ((word?_eq_some hwidth).2 ⟨v, hv, wraps_bmod hwidth v⟩)
  · intro hnone w hw
    obtain ⟨v, hv, -⟩ := (word?_eq_some hwidth).1 hw
    exact hnone ⟨v, hv⟩

end Words

end Literal

end WasmText
