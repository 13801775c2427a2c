import WasmText.Source.Character
import Mathlib.Data.List.Forall2
import Mathlib.Data.Nat.Digits.Defs
/-!
# Numerals

A numeral is one or more digits, the highest first, and denotes their
positional value. Digits are told from a table of the characters that stand
for them, letters in either case. Reading digits gives a number exactly if
they are a numeral that denotes it (`digits?_eq_some`).
-/

namespace WasmText

/-- Whether a character stands for a digit of the radix, which is at most
sixteen. -/
def IsDigit (radix : Nat) (c : Char) (d : Nat) : Prop :=
  d < radix ∧ ("0123456789abcdef".toList[d]? = some c ∨ "0123456789ABCDEF".toList[d]? = some c)

/-- Whether characters are digits that denote a number, at least one and
the highest first. -/
def Spells (radix : Nat) (cs : List Char) (n : Nat) : Prop :=
  ∃ digits, digits ≠ [] ∧ List.Forall₂ (IsDigit radix) cs digits ∧
    n = Nat.ofDigits radix digits.reverse

/-- Whether characters are digits that denote a number, after a plus or
without one. -/
def SpellsPlus (radix : Nat) (cs : List Char) (n : Nat) : Prop :=
  Spells radix cs n ∨ ∃ digits, cs = '+' :: digits ∧ Spells radix digits n

/-! ## Digits -/

theorem toNat_le_toNat {c d : Char} : c ≤ d ↔ c.toNat ≤ d.toNat := by
  rw [Char.le_def, UInt32.le_iff_toNat_le]
  rfl

/-- A character that is read as a digit is in the table of digits. -/
theorem isDigit_of_digit? {radix d : Nat} {c : Char} (h : digit? radix c = some d) :
    IsDigit radix c d := by
  obtain ⟨hvalue, hlt⟩ := Option.filter_eq_some_iff.1 h
  refine ⟨of_decide_eq_true hlt, ?_⟩
  rw [← Char.ofNat_toNat c]
  simp only [toNat_le_toNat] at hvalue
  generalize c.toNat = n at hvalue
  split_ifs at hvalue with hdecimal hlower hupper
  · have hall : ∀ n < 58, 48 ≤ n → "0123456789abcdef".toList[n - 48]? = some (Char.ofNat n) := by
      decide
    cases hvalue
    exact Or.inl (hall n (by simpa [Nat.lt_succ_iff] using hdecimal.2) hdecimal.1)
  · have hall : ∀ n < 103, 97 ≤ n →
        "0123456789abcdef".toList[n - 97 + 10]? = some (Char.ofNat n) := by
      decide
    cases hvalue
    exact Or.inl (hall n (Nat.lt_succ_iff.2 hlower.2) hlower.1)
  · have hall : ∀ n < 71, 65 ≤ n →
        "0123456789ABCDEF".toList[n - 65 + 10]? = some (Char.ofNat n) := by
      decide
    cases hvalue
    exact Or.inr (hall n (Nat.lt_succ_iff.2 hupper.2) hupper.1)

/-- A character in the table of digits is read as one. -/
theorem digit?_of_isDigit {radix d : Nat} {c : Char} (h : IsDigit radix c d) :
    digit? radix c = some d := by
  obtain ⟨hlt, htable⟩ := h
  have hall : ∀ d < 16, ("0123456789abcdef".toList[d]?.bind (digit? 16) = some d) ∧
      "0123456789ABCDEF".toList[d]?.bind (digit? 16) = some d := by
    decide
  have hsixteen : digit? 16 c = some d := by
    rcases htable with htable | htable
    · have hd : d < 16 := (List.getElem?_eq_some_iff.1 htable).1
      have hdigit := (hall d hd).1
      rwa [htable] at hdigit
    · have hd : d < 16 := (List.getElem?_eq_some_iff.1 htable).1
      have hdigit := (hall d hd).2
      rwa [htable] at hdigit
  -- the radix only decides which values are kept
  obtain ⟨hvalue, -⟩ := Option.filter_eq_some_iff.1 hsixteen
  exact Option.filter_eq_some_iff.2 ⟨hvalue, decide_eq_true hlt⟩

theorem digit?_eq_some {radix d : Nat} {c : Char} : digit? radix c = some d ↔ IsDigit radix c d :=
  ⟨isDigit_of_digit?, digit?_of_isDigit⟩

/-- What holds of the characters of the table holds of every digit. -/
theorem of_isDigit {p : Char → Bool} {radix d : Nat} {c : Char}
    (hall : ∀ d < radix, "0123456789abcdef".toList[d]?.all p = true ∧
      "0123456789ABCDEF".toList[d]?.all p = true) (h : IsDigit radix c d) : p c = true := by
  obtain ⟨hd, htable | htable⟩ := h
  · have hdigit := (hall d hd).1
    rwa [htable] at hdigit
  · have hdigit := (hall d hd).2
    rwa [htable] at hdigit

/-- A character that is no digit differs from every digit. -/
theorem ne_of_isDigit {radix d : Nat} {c c' : Char} (h : IsDigit radix c d)
    (hnone : digit? radix c' = none) : c ≠ c' := by
  rintro rfl
  rw [digit?_of_isDigit h] at hnone
  cases hnone

/-! ## Sequences of digits -/

theorem exists_isDigit_of_forall₂ {radix : Nat} {cs : List Char} {digits : List Nat}
    (h : List.Forall₂ (IsDigit radix) cs digits) {c : Char} (hc : c ∈ cs) :
    ∃ d, IsDigit radix c d := by
  induction h with
  | nil => cases hc
  | cons hd _ ih =>
      rcases List.mem_cons.1 hc with rfl | hc
      · exact ⟨_, hd⟩
      · exact ih hc

theorem exists_isDigit_of_mem {radix n : Nat} {cs : List Char} (h : Spells radix cs n) {c : Char}
    (hc : c ∈ cs) : ∃ d, IsDigit radix c d := by
  obtain ⟨digits, -, hdigits, -⟩ := h
  exact exists_isDigit_of_forall₂ hdigits hc

/-- Digits are read from the left, each in the place after the last. -/
theorem digits?_eq_foldlM {radix : Nat} {cs : List Char} (h : cs ≠ []) :
    digits? radix cs = cs.foldlM (fun n c => (digit? radix c).map (radix * n + ·)) 0 := by
  unfold digits?
  split
  · exact absurd rfl h
  · rfl

/-- Reading goes digit by digit, from any number on. -/
theorem foldlM_digit?_eq_some {radix : Nat} {cs : List Char} {first n : Nat} :
    cs.foldlM (fun n c => (digit? radix c).map (radix * n + ·)) first = some n ↔
      ∃ digits, List.Forall₂ (IsDigit radix) cs digits ∧
        n = digits.foldl (fun n d => d + radix * n) first := by
  induction cs generalizing first with
  | nil => simp [eq_comm]
  | cons c cs ih =>
      simp only [List.foldlM_cons, Option.bind_eq_bind, Option.bind_eq_some_iff,
        Option.map_eq_some_iff, digit?_eq_some, ih]
      constructor
      · rintro ⟨_, ⟨d, hd, rfl⟩, digits, hdigits, rfl⟩
        refine ⟨d :: digits, .cons hd hdigits, ?_⟩
        rw [List.foldl_cons, Nat.add_comm]
      · rintro ⟨digits, hdigits, rfl⟩
        obtain ⟨d, digits, hd, hrest, rfl⟩ := List.forall₂_cons_left_iff.1 hdigits
        refine ⟨radix * first + d, ⟨d, hd, rfl⟩, digits, hrest, ?_⟩
        rw [List.foldl_cons, Nat.add_comm]

/-- Reading from the left gives the number that the digits are positions
of. -/
theorem foldl_digits (radix : Nat) (digits : List Nat) :
    digits.foldl (fun n d => d + radix * n) 0 = Nat.ofDigits radix digits.reverse := by
  rw [Nat.ofDigits_eq_foldr, List.foldr_reverse]
  simp

/-- **Digits are read exactly if they are a numeral**, and then as the
number it denotes. -/
theorem digits?_eq_some {radix : Nat} {cs : List Char} {n : Nat} :
    digits? radix cs = some n ↔ Spells radix cs n := by
  by_cases hcs : cs = []
  · subst hcs
    simp [digits?, Spells]
  · rw [digits?_eq_foldlM hcs, foldlM_digit?_eq_some]
    refine exists_congr fun digits => ?_
    rw [foldl_digits]
    constructor
    · rintro ⟨hdigits, hn⟩
      refine ⟨?_, hdigits, hn⟩
      rintro rfl
      exact hcs (List.forall₂_nil_right_iff.1 hdigits)
    · rintro ⟨-, hdigits, hn⟩
      exact ⟨hdigits, hn⟩

/-- Digits are read after a plus exactly as without it. -/
theorem plusDigits?_eq_some {radix : Nat} {cs : List Char} {n : Nat} :
    plusDigits? radix cs = some n ↔ SpellsPlus radix cs n := by
  unfold plusDigits? SpellsPlus
  split
  · next digits =>
    rw [digits?_eq_some]
    constructor
    · intro h
      exact Or.inr ⟨digits, rfl, h⟩
    · rintro (h | ⟨_, hcs, h⟩)
      · obtain ⟨d, hd⟩ := exists_isDigit_of_mem h List.mem_cons_self
        exact absurd rfl (ne_of_isDigit hd rfl)
      · cases hcs
        exact h
  · next hplus =>
    rw [digits?_eq_some]
    constructor
    · exact Or.inl
    · rintro (h | ⟨digits, hcs, -⟩)
      · exact h
      · exact absurd hcs (hplus digits)

end WasmText
