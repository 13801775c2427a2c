import WasmText.Proofs.Instruction.Constant
import WasmText.Proofs.Literal.Hexadecimal
/-!
# Float constants

The body of a float literal puts it in one class: a value that is no
number, an infinity, or a finite number. Readers accept no other body,
refuse what is out of range apart from what is invalid, and set the sign
bit by the sign alone, if hexadecimal numbers are read by a lawful reader
(`Classifies`). A payload is digits, but one plus may stand before them
(`payload_after_plus`). A constant instruction compiles exactly if its
operands do and its one argument is read, and what is read stands in its
bytes, the lowest first (`CompilesFloats`).
-/

namespace WasmText

open Literal

/-! ## Classes of literals -/

/-- Whether a body is a payload for a value that is no number, after a plus
or not, and which. -/
def IsPayload (f : FloatFormat) (plus body : List Char) (p : Nat) : Prop :=
  ∃ digits, body = "nan:0x".toList ++ (plus ++ digits) ∧ Spells 16 digits p ∧ 1 ≤ p ∧
    p < 2 ^ f.precision

/-- Nothing or a plus. -/
def pluses : List (List Char) := [[], ['+']]

/-- Digits after a plus or none, with the plus set apart. -/
theorem spellsPlus_iff {radix n : Nat} {cs : List Char} :
    SpellsPlus radix cs n ↔ ∃ plus ∈ pluses, ∃ digits, cs = plus ++ digits ∧
      Spells radix digits n := by
  simp [SpellsPlus, pluses]

/-- A payload leaves the sign alone. -/
theorem IsPayload.lt_signBit {f : FloatFormat} {plus body : List Char} {p : Nat}
    (h : IsPayload f plus body p) : f.infinity + p < f.signBit := by
  obtain ⟨_, -, -, -, hlt⟩ := h
  rw [← FloatFormat.infinity_add_pow]
  exact Nat.add_lt_add_left hlt _

/-- Whether the reader of hexadecimal numbers finds a value in a body, and
which: its sign and the pattern of its magnitude. -/
def IsHexValue [HexReader] (f : FloatFormat) (body : List Char) (negative : Bool) (n : Nat) :
    Prop :=
  IsHexadecimal body ∧ HexReader.read? f (readerText body) = some (negative, n)

/-- Whether a body is a number that does not overflow. -/
def IsInRange [HexReader] (f : FloatFormat) (body : List Char) : Prop :=
  (∃ q, DenotesDecimal body q ∧ q < f.overflow) ∨
    ∃ negative n, IsHexValue f body negative n ∧ n < f.infinity

/-- Whether a body is a number that overflows, or another spelling of
infinity than the literal. -/
def IsOutOfRange [HexReader] (f : FloatFormat) (body : List Char) : Prop :=
  (∃ q, DenotesDecimal body q ∧ f.overflow ≤ q) ∨
    (∃ negative, IsHexValue f body negative f.infinity) ∨
    IsInfinityWord body ∧ body ≠ "inf".toList

/-- Whether a body stands for a float. -/
def IsFloatBody [HexReader] (f : FloatFormat) (body : List Char) : Prop :=
  body = "inf".toList ∨ body = "nan".toList ∨ (∃ plus ∈ pluses, ∃ p, IsPayload f plus body p) ∨
    IsInRange f body

/-- The signs and patterns that a body may stand for. -/
inductive BodyPattern [HexReader] (f : FloatFormat) (body : List Char) : Bool → Nat → Prop where
  | infinity (hbody : body = "inf".toList) : BodyPattern f body false f.infinity
  | quiet (hbody : body = "nan".toList) : BodyPattern f body false f.canonicalNaN
  | payload {plus : List Char} {p : Nat} (hplus : plus ∈ pluses) (hp : IsPayload f plus body p) :
      BodyPattern f body false (f.infinity + p)
  | decimal {q : ℚ} {n : Nat} (hq : DenotesDecimal body q) (hrounding : f.IsRounding q n)
      (hn : n < f.infinity) : BodyPattern f body false n
  | hexadecimal {negative : Bool} {n : Nat} (hvalue : IsHexValue f body negative n)
      (hn : n < f.infinity) : BodyPattern f body negative n

/-- What a reader makes of a literal with a sign and a body. The masks are
those of the sign, of the exponent and of the quiet value that is no
number. -/
structure Classifies [HexReader] (kind : LiteralKind) (f : FloatFormat)
    (sign exponent quiet : Nat) (text : String) (negative : Bool) (body : List Char) (span : Span)
    (result : Except CompileError Nat) : Prop where
  signed : ∀ bits, result = .ok bits →
    bits < 2 ^ f.width ∧ (f.isNegative bits = true ↔ text.toList.head? = some '-')
  nan : ∀ bits, (result = .ok bits ∧ f.IsNaN bits) ↔
    body = "nan".toList ∧ bits = (if negative then sign else 0) ||| quiet ∨
      ∃ plus ∈ pluses, ∃ p, IsPayload f plus body p ∧
        bits = (if negative then sign else 0) ||| exponent ||| p
  infinite : ∀ bits, (result = .ok bits ∧ f.IsInfinite bits) ↔
    body = "inf".toList ∧ bits = (if negative then sign else 0) ||| exponent
  finite : (∃ bits, result = .ok bits ∧ f.IsFinite bits) ↔ IsInRange f body
  /-- The value of a hexadecimal number is the one that its reader finds. -/
  hexadecimal : ∀ negative' n, IsHexValue f body negative' n → n < f.infinity →
    result = .ok ((if negative then sign else 0) ||| n)
  refuses : ∀ e, result = .error e ↔
    e = .malformed .constantOutOfRange span ∧ IsOutOfRange f body ∨
      e = .invalidLiteral kind text span ∧ ¬ IsFloatBody f body ∧ ¬ IsOutOfRange f body
  message : ∀ e, result = .error e → IsOutOfRange f body →
    e.render = "constant out of range at " ++ span.render
  /-- A number too large for the format is refused, as out of range unless
  its reader finds no number in it. -/
  large : ∀ q, DenotesDecimal body q ∨ DenotesHexadecimal body q → f.overflow ≤ q →
    result = .error (.malformed .constantOutOfRange span) ∨
      IsHexadecimal body ∧ (∀ negative' n, IsHexValue f body negative' n → f.infinity < n) ∧
        result = .error (.invalidLiteral kind text span)
  payloads : ∀ plus ∈ pluses, ∀ digits p, body = "nan:0x".toList ++ (plus ++ digits) →
    Spells 16 digits p → p = 0 ∨ 2 ^ f.precision ≤ p →
    result = .error (.invalidLiteral kind text span)

/-- That a reader so classifies every literal that is a sign, or none, and a
body without one. -/
def ClassifiesFloats [HexReader] (kind : LiteralKind) (f : FloatFormat)
    (sign exponent quiet : Nat) (read : String → Span → Except CompileError Nat) : Prop :=
  ∀ text negative body span, IsSigned text.toList negative body →
    Classifies kind f sign exponent quiet text negative body span (read text span)

/-! ## Readers -/

section Readers

variable [HexReader] {f : FloatFormat} {kind : LiteralKind} {text : String} {span : Span}
  {negative : Bool} {body : List Char} (h : IsSigned text.toList negative body)

include h

theorem readFloat_inf (hbody : body = "inf".toList) :
    readFloat kind f text span = .ok (f.withSign negative f.infinity) := by
  subst hbody
  rw [readFloat, float_inf h]

theorem readFloat_nan (hbody : body = "nan".toList) :
    readFloat kind f text span = .ok (f.withSign negative f.canonicalNaN) := by
  subst hbody
  rw [readFloat, float_nan h]

/-- A payload is read as the significand of what is no number. -/
theorem readFloat_payload {plus : List Char} {p : Nat} (hplus : plus ∈ pluses)
    (hp : IsPayload f plus body p) :
    readFloat kind f text span = .ok (f.withSign negative (f.infinity + p)) := by
  obtain ⟨digits, rfl, hdigits, hpos, hlt⟩ := hp
  have hspelled := spellsPlus_iff.2 ⟨plus, hplus, digits, rfl, hdigits⟩
  rw [readFloat, float_payload h, payload?_eq_some.2 ⟨hspelled, hpos, hlt⟩]
  rfl

/-- A decimal number in range is rounded to the nearest pattern, before
infinity. -/
theorem readFloat_decimal (hf : f.Usual) {q : ℚ} (hq : DenotesDecimal body q)
    (hlt : q < f.overflow) :
    ∃ n < f.infinity, readFloat kind f text span = .ok (f.withSign negative n) ∧
      f.IsRounding q n := by
  obtain ⟨n, hread, hrounding⟩ := float_of_decimal hf h hq
  have hn := (hrounding.lt_infinity_iff hf).2 hlt
  refine ⟨n, hn, ?_, hrounding⟩
  rw [readFloat, hread, if_pos hn]

/-- A hexadecimal number is read as its reader says, with the sign in
front. -/
theorem readFloat_hexadecimal {negative' : Bool} {n : Nat} (hvalue : IsHexValue f body negative' n)
    (hn : n < f.infinity) :
    readFloat kind f text span = .ok (f.withSign (negative != negative') n) := by
  rw [readFloat, float_of_hexadecimal h hvalue.1, hvalue.2]
  simp only [Option.elim, if_pos hn]

/-- A number beyond the range is refused as such. -/
theorem readFloat_outOfRange (hf : f.Usual) (hbody : IsOutOfRange f body) :
    readFloat kind f text span = .error (.malformed .constantOutOfRange span) := by
  rcases hbody with ⟨q, hq, hle⟩ | ⟨negative', hvalue⟩ | ⟨hword, hinf⟩
  · obtain ⟨n, hread, hrounding⟩ := float_of_decimal hf h hq
    rw [readFloat, hread, if_neg (mt (hrounding.lt_infinity_iff hf).1 (not_lt.2 hle))]
  · rw [readFloat, float_of_hexadecimal h hvalue.1, hvalue.2]
    simp only [Option.elim, lt_irrefl, if_false, if_true]
  · obtain ⟨hdecimal, hhex⟩ := hword.not_number
    obtain ⟨c, cs, rfl, hc⟩ := hword.first
    have hnan : c :: cs ≠ "nan".toList := by
      intro hbody
      cases hbody
      exact absurd hc (by decide)
    have hpayload : ¬ "nan:0x".toList <+: c :: cs := by
      rintro ⟨digits, hbody⟩
      cases hbody
      exact absurd hc (by decide)
    rcases finiteBits_of_other (f := f) h.2 hhex hdecimal with ⟨hread, -⟩ | ⟨-, hnot⟩
    · rw [readFloat, float_finite h hinf hnan hpayload, hread]
      rfl
    · exact absurd hword hnot

theorem readFloat_invalid (hbody : ¬ IsFloatBody f body) (hrange : ¬ IsOutOfRange f body) :
    readFloat kind f text span = .error (.invalidLiteral kind text span) := by
  obtain ⟨hinf, hnan, hpayload, hnumber⟩ : body ≠ "inf".toList ∧ body ≠ "nan".toList ∧
      (∀ plus ∈ pluses, ∀ p, ¬ IsPayload f plus body p) ∧ ¬ IsInRange f body := by
    simpa [IsFloatBody] using hbody
  by_cases hmark : "nan:0x".toList <+: body
  · obtain ⟨digits, rfl⟩ := hmark
    have hnone : payload? f digits = none := by
      refine Option.eq_none_iff_forall_ne_some.2 fun p hp => ?_
      obtain ⟨hspelled, hpos, hlt⟩ := payload?_eq_some.1 hp
      obtain ⟨plus, hplus, spelled, rfl, hspells⟩ := spellsPlus_iff.1 hspelled
      exact hpayload plus hplus p ⟨spelled, rfl, hspells, hpos, hlt⟩
    rw [readFloat, float_payload h, hnone]
    rfl
  by_cases hhex : IsHexadecimal body
  · rw [readFloat, float_of_hexadecimal h hhex]
    cases hread : HexReader.read? f (readerText body) with
    | none => rfl
    | some r =>
        -- neither finite nor infinite, so what is read is no number
        have hlt : ¬ r.2 < f.infinity := fun hlt => hnumber (.inr ⟨r.1, r.2, ⟨hhex, hread⟩, hlt⟩)
        have hne : ¬ r.2 = f.infinity := fun heq =>
          hrange (.inr (.inl ⟨r.1, hhex, by rw [hread, ← heq]⟩))
        simp only [Option.elim, if_neg hlt, if_neg hne]
  · have hdecimal : ∀ q, ¬ DenotesDecimal body q := by
      intro q hq
      rcases lt_or_ge q f.overflow with hlt | hle
      · exact hnumber (.inl ⟨q, hq, hlt⟩)
      · exact hrange (.inl ⟨q, hq, hle⟩)
    rcases finiteBits_of_other (f := f) h.2 hhex hdecimal with ⟨-, hword⟩ | ⟨hread, -⟩
    · exact absurd (.inr (.inr ⟨hword, hinf⟩)) hrange
    · rw [readFloat, float_finite h hinf hnan hmark, hread]
      rfl

/-- A body that stands for a float is read as the pattern of its class, with
the sign. -/
theorem exists_readFloat (hf : f.Usual) (hbody : IsFloatBody f body) :
    ∃ negative' n, n < f.signBit ∧
      readFloat kind f text span = .ok (f.withSign (negative != negative') n) ∧
      BodyPattern f body negative' n := by
  have hinfinity := f.infinity_lt_signBit
  have hkept : (negative != false) = negative := Bool.bne_false negative
  rcases hbody with hinf | hnan | ⟨plus, hplus, p, hp⟩ | ⟨q, hq, hlt⟩ | ⟨negative', n, hvalue, hn⟩
  · exact ⟨false, _, hinfinity, hkept.symm ▸ readFloat_inf h hinf, .infinity hinf⟩
  · exact ⟨false, _, (FloatFormat.canonicalNaN_bounds hf).2, hkept.symm ▸ readFloat_nan h hnan,
      .quiet hnan⟩
  · exact ⟨false, _, hp.lt_signBit, hkept.symm ▸ readFloat_payload h hplus hp, .payload hplus hp⟩
  · obtain ⟨n, hn, hread, hrounding⟩ := readFloat_decimal h hf hq hlt
    exact ⟨false, n, lt_trans hn hinfinity, hkept.symm ▸ hread, .decimal hq hrounding hn⟩
  · exact ⟨negative', n, lt_trans hn hinfinity, readFloat_hexadecimal h hvalue hn,
      .hexadecimal hvalue hn⟩

/-- **A literal is refused** exactly if its body is out of range or stands
for nothing. -/
theorem readFloat_eq_error (hf : f.Usual) {e : CompileError} :
    readFloat kind f text span = .error e ↔
      e = .malformed .constantOutOfRange span ∧ IsOutOfRange f body ∨
        e = .invalidLiteral kind text span ∧ ¬ IsFloatBody f body ∧ ¬ IsOutOfRange f body := by
  constructor
  · intro hread
    by_cases hrange : IsOutOfRange f body
    · rw [readFloat_outOfRange h hf hrange] at hread
      cases hread
      exact Or.inl ⟨rfl, hrange⟩
    · by_cases hbody : IsFloatBody f body
      · obtain ⟨_, n, -, hok, -⟩ := exists_readFloat h hf hbody
        rw [hok] at hread
        cases hread
      · rw [readFloat_invalid h hbody hrange] at hread
        cases hread
        exact Or.inr ⟨rfl, hbody, hrange⟩
  · rintro (⟨rfl, hrange⟩ | ⟨rfl, hbody, hrange⟩)
    · exact readFloat_outOfRange h hf hrange
    · exact readFloat_invalid h hbody hrange

/-- **What is accepted is in one class**, and has its sign and the pattern
of its class. -/
theorem readFloat_cases (hf : f.Usual) {bits : Nat}
    (hread : readFloat kind f text span = .ok bits) :
    ∃ negative' n, n < f.signBit ∧ bits = f.withSign (negative != negative') n ∧
      BodyPattern f body negative' n := by
  by_cases hbody : IsFloatBody f body
  · obtain ⟨negative', n, hn, hok, hpattern⟩ := exists_readFloat h hf hbody
    rw [hok] at hread
    cases hread
    exact ⟨negative', n, hn, rfl, hpattern⟩
  · by_cases hrange : IsOutOfRange f body
    · rw [readFloat_outOfRange h hf hrange] at hread
      cases hread
    · rw [readFloat_invalid h hbody hrange] at hread
      cases hread

/-! ## Lawful readers of hexadecimal numbers -/

section Lawful

variable (hlaws : HexReader.Lawful)

include hlaws

omit h in
/-- A body without a sign stands for a value without one. -/
theorem BodyPattern.unsigned (hf : f.Usual) {negative' : Bool} {n : Nat}
    (hpattern : BodyPattern f body negative' n) : negative' = false := by
  cases hpattern with
  | infinity | quiet | payload | decimal => rfl
  | hexadecimal hvalue hn =>
      exact hlaws.unsigned f _ _ n hf hvalue.1.isUnsigned_readerText hvalue.2 (Nat.le_of_lt hn)

/-- With a lawful reader the sign is that of the literal. -/
theorem readFloat_lawful (hf : f.Usual) {bits : Nat}
    (hread : readFloat kind f text span = .ok bits) :
    ∃ n < f.signBit, bits = f.withSign negative n ∧ BodyPattern f body false n := by
  obtain ⟨negative', n, hn, rfl, hpattern⟩ := readFloat_cases h hf hread
  obtain rfl := hpattern.unsigned hlaws hf
  exact ⟨n, hn, by rw [Bool.bne_false], hpattern⟩

/-- The texts of what is no number are `nan`, with a payload or without. -/
theorem readFloat_isNaN_iff (hf : f.Usual) {bits : Nat} :
    (readFloat kind f text span = .ok bits ∧ f.IsNaN bits) ↔
      body = "nan".toList ∧ bits = (if negative then f.signBit else 0) ||| f.canonicalNaN ∨
        ∃ plus ∈ pluses, ∃ p, IsPayload f plus body p ∧
          bits = (if negative then f.signBit else 0) ||| f.infinity ||| p := by
  obtain ⟨hquiet, hsign⟩ := FloatFormat.canonicalNaN_bounds hf
  constructor
  · rintro ⟨hread, hnan⟩
    obtain ⟨n, hn, rfl, hpattern⟩ := readFloat_lawful h hlaws hf hread
    rw [FloatFormat.isNaN_withSign hn] at hnan
    rw [FloatFormat.withSign_eq_or hn]
    cases hpattern with
    | infinity => omega
    | quiet hbody => exact Or.inl ⟨hbody, rfl⟩
    | @payload plus p hplus hp =>
        obtain ⟨_, -, -, -, hlt⟩ := id hp
        rw [FloatFormat.infinity_add_eq_or hlt]
        exact Or.inr ⟨plus, hplus, p, hp, (Nat.or_assoc _ _ _).symm⟩
    | decimal hq hrounding hlt => omega
    | hexadecimal hvalue hlt => omega
  · rintro (⟨hbody, rfl⟩ | ⟨plus, hplus, p, hp, rfl⟩)
    · rw [← FloatFormat.withSign_eq_or hsign, FloatFormat.isNaN_withSign hsign]
      exact ⟨readFloat_nan h hbody, hquiet⟩
    · have hbits := hp.lt_signBit
      obtain ⟨_, -, -, hpos, hlt⟩ := id hp
      rw [Nat.or_assoc, ← FloatFormat.infinity_add_eq_or hlt, ← FloatFormat.withSign_eq_or hbits,
        FloatFormat.isNaN_withSign hbits]
      exact ⟨readFloat_payload h hplus hp, Nat.lt_add_of_pos_right hpos⟩

/-- The only text of infinity is `inf`, with its sign. -/
theorem readFloat_isInfinite_iff (hf : f.Usual) {bits : Nat} :
    (readFloat kind f text span = .ok bits ∧ f.IsInfinite bits) ↔
      body = "inf".toList ∧ bits = (if negative then f.signBit else 0) ||| f.infinity := by
  have hsign := f.infinity_lt_signBit
  constructor
  · rintro ⟨hread, hinf⟩
    obtain ⟨n, hn, rfl, hpattern⟩ := readFloat_lawful h hlaws hf hread
    rw [FloatFormat.isInfinite_withSign hn] at hinf
    rw [FloatFormat.withSign_eq_or hn, hinf]
    cases hpattern with
    | infinity hbody => exact ⟨hbody, rfl⟩
    | quiet hbody =>
        have hquiet := (FloatFormat.canonicalNaN_bounds hf).1
        omega
    | payload hplus hp =>
        obtain ⟨_, -, -, hpos, -⟩ := hp
        omega
    | decimal hq hrounding hlt => omega
    | hexadecimal hvalue hlt => omega
  · rintro ⟨hbody, rfl⟩
    rw [← FloatFormat.withSign_eq_or hsign, FloatFormat.isInfinite_withSign hsign]
    exact ⟨readFloat_inf h hbody, rfl⟩

/-- The texts of finite numbers are those in range. -/
theorem readFloat_isFinite_iff (hf : f.Usual) :
    (∃ bits, readFloat kind f text span = .ok bits ∧ f.IsFinite bits) ↔ IsInRange f body := by
  constructor
  · rintro ⟨bits, hread, hfinite⟩
    obtain ⟨n, hn, rfl, hpattern⟩ := readFloat_lawful h hlaws hf hread
    rw [FloatFormat.isFinite_withSign hn] at hfinite
    cases hpattern with
    | infinity => omega
    | quiet hbody =>
        have hquiet := (FloatFormat.canonicalNaN_bounds hf).1
        omega
    | payload hplus hp => omega
    | decimal hq hrounding hlt =>
        exact .inl ⟨_, hq, (hrounding.lt_infinity_iff hf).1 hlt⟩
    | hexadecimal hvalue hlt => exact .inr ⟨_, _, hvalue, hlt⟩
  · rintro (⟨q, hq, hlt⟩ | ⟨negative', n, hvalue, hn⟩)
    · obtain ⟨n, hn, hread, -⟩ := readFloat_decimal h hf hq hlt
      have hsign := lt_trans hn f.infinity_lt_signBit
      exact ⟨_, hread, (FloatFormat.isFinite_withSign hsign).2 hn⟩
    · have hsign := lt_trans hn f.infinity_lt_signBit
      exact ⟨_, readFloat_hexadecimal h hvalue hn, (FloatFormat.isFinite_withSign hsign).2 hn⟩

/-- **A number too large for the format is refused.** -/
theorem readFloat_large (hf : f.Usual) {q : ℚ}
    (hq : DenotesDecimal body q ∨ DenotesHexadecimal body q) (hle : f.overflow ≤ q) :
    readFloat kind f text span = .error (.malformed .constantOutOfRange span) ∨
      IsHexadecimal body ∧ (∀ negative' n, IsHexValue f body negative' n → f.infinity < n) ∧
        readFloat kind f text span = .error (.invalidLiteral kind text span) := by
  rcases hq with hq | hq
  · exact .inl (readFloat_outOfRange h hf (.inl ⟨q, hq, hle⟩))
  by_cases hinfinite : ∃ negative', IsHexValue f body negative' f.infinity
  · exact .inl (readFloat_outOfRange h hf (.inr (.inl hinfinite)))
  have hhex := hq.isHexadecimal
  have hnan : ∀ negative' n, IsHexValue f body negative' n → f.infinity < n := by
    intro negative' n hvalue
    refine lt_of_le_of_ne (hlaws.large f _ q negative' n hf hq.readerText hle hvalue.2) ?_
    rintro rfl
    exact hinfinite ⟨negative', hvalue⟩
  refine .inr ⟨hhex, hnan, ?_⟩
  rw [readFloat, float_of_hexadecimal h hhex]
  cases hread : HexReader.read? f (readerText body) with
  | none => rfl
  | some r =>
      have hgt := hnan r.1 r.2 ⟨hhex, hread⟩
      simp only [Option.elim, if_neg (Nat.lt_asymm hgt), if_neg (Nat.ne_of_gt hgt)]

omit hlaws in
theorem readFloat_of_payload {plus digits : List Char} {p : Nat} (hplus : plus ∈ pluses)
    (hbody : body = "nan:0x".toList ++ (plus ++ digits)) (hdigits : Spells 16 digits p)
    (hp : p = 0 ∨ 2 ^ f.precision ≤ p) :
    readFloat kind f text span = .error (.invalidLiteral kind text span) := by
  subst hbody
  have hspelled := spellsPlus_iff.2 ⟨plus, hplus, digits, rfl, hdigits⟩
  have hnone : payload? f (plus ++ digits) = none := by
    rw [payload?, plusDigits?_eq_some.2 hspelled, Option.filter_some, if_neg]
    simp only [Bool.and_eq_true, decide_eq_true_eq, Nat.pow_eq]
    omega
  rw [readFloat, float_payload h, hnone]
  rfl

/-- Every reader of floats classifies its literals as its format says. -/
theorem classifies (hf : f.Usual) :
    Classifies kind f f.signBit f.infinity f.canonicalNaN text negative body span
      (readFloat kind f text span) where
  signed bits hread := by
    obtain ⟨n, hn, rfl, -⟩ := readFloat_lawful h hlaws hf hread
    rw [FloatFormat.isNegative_withSign hn, h.negative_iff]
    exact ⟨FloatFormat.withSign_lt hn negative, Iff.rfl⟩
  nan bits := readFloat_isNaN_iff h hlaws hf
  infinite bits := readFloat_isInfinite_iff h hlaws hf
  finite := readFloat_isFinite_iff h hlaws hf
  hexadecimal negative' n hvalue hn := by
    have hsign := lt_trans hn f.infinity_lt_signBit
    obtain rfl := (BodyPattern.hexadecimal hvalue hn).unsigned hlaws hf
    rw [readFloat_hexadecimal h hvalue hn, Bool.bne_false, FloatFormat.withSign_eq_or hsign]
  refuses e := readFloat_eq_error h hf
  message e hread hrange := by
    rw [readFloat_outOfRange h hf hrange] at hread
    cases hread
    rfl
  large q hq hle := readFloat_large h hlaws hf hq hle
  payloads plus hplus digits p hbody hdigits hp := readFloat_of_payload h hplus hbody hdigits hp

end Lawful

end Readers

/-! ## Constants -/

/-- What the compiler makes of constants: an instruction compiles exactly
if its operands do and its one argument is read, and has the fault of the
argument if that is not. What is read stands in the bytes after that of the
opcode, the lowest first. -/
structure CompilesFloats [HexReader] (name : String) (byte : UInt8) (count : Nat)
    (read : String → Span → Except CompileError Nat) (constant : Nat → Instr) : Prop where
  compiles : ∀ env head children t t' instrs, head.instr = name →
    (compileExpr env (.node head children) t = .ok instrs t' ↔
      ∃ operands p text bits, compileAll env children t = .ok operands t' ∧
        head.arguments = [p] ∧ p.arg.numeric? = some text ∧ read text p.span = .ok bits ∧
        instrs = operands ++ [constant bits])
  refuses : ∀ env head children t t' operands p text e, head.instr = name →
    compileAll env children t = .ok operands t' → head.arguments = [p] →
    p.arg.numeric? = some text → read text p.span = .error e →
    compileExpr env (.node head children) t = .error e t'
  encodes : ∀ bits < 256 ^ count, ∃ bytes, (constant bits).encode = byte :: bytes ∧
    bytes.length = count ∧ Nat.ofDigits 256 (bytes.map UInt8.toNat) = bits

theorem Binary.length_littleEndian (count n : Nat) : (littleEndian count n).length = count := by
  induction count generalizing n with
  | zero => rfl
  | succ count ih => rw [littleEndian, List.length_cons, ih]

/-- The bytes are the digits of the number, if there are enough. -/
theorem Binary.ofDigits_littleEndian {count n : Nat} (h : n < 256 ^ count) :
    Nat.ofDigits 256 ((littleEndian count n).map UInt8.toNat) = n := by
  induction count generalizing n with
  | zero =>
      have hn : n = 0 := by simpa using h
      rw [hn]
      rfl
  | succ count ih =>
      have hhigh : n / 256 < 256 ^ count := by
        rw [Nat.pow_succ'] at h
        exact Nat.div_lt_of_lt_mul h
      rw [littleEndian, List.map_cons, Nat.ofDigits_cons, ih hhigh,
        Leb128.toNat_ofNat_of_lt (Nat.mod_lt _ (by omega))]
      exact Nat.mod_add_div n 256

theorem compilesFloats [HexReader] (op : Opcode) (hop : Opcode.ofName? op.name = some op)
    (hplain : op.shape.IsPlain) {count : Nat} {read : String → Span → Except CompileError Nat}
    {immediateOf : Nat → Immediate}
    (hshape : ∀ env head, immediate env op.shape head = do
      return immediateOf (← constantArgument read head))
    (hencode : ∀ bits < 256 ^ count, (immediateOf bits).encode = Binary.littleEndian count bits) :
    CompilesFloats op.name op.byte count read fun bits => .op op (immediateOf bits) where
  compiles env head children t t' instrs hname := by
    rw [compileExpr_plain_eq_ok (hname ▸ hop) hplain]
    simp only [hshape, bind_eq_ok, pure_eq_ok, constantArgument_iff]
    constructor
    · rintro ⟨operands, _, hoperands, ⟨bits, ⟨p, text, hp, htext, hread⟩, rfl⟩, rfl⟩
      exact ⟨operands, p, text, bits, hoperands, hp, htext, hread, rfl⟩
    · rintro ⟨operands, p, text, bits, hoperands, hp, htext, hread, rfl⟩
      exact ⟨operands, _, hoperands, ⟨bits, ⟨p, text, hp, htext, hread⟩, rfl⟩, rfl⟩
  refuses env head children t t' operands p text e hname hoperands hp htext hread := by
    rw [compileExpr_plain (hname ▸ hop) hplain, Typing.bind_of_ok hoperands, hshape,
      constantArgument_of_numeric hp htext, hread]
    rfl
  encodes bits hbits := by
    refine ⟨Binary.littleEndian count bits, congrArg (op.byte :: ·) (hencode bits hbits),
      Binary.length_littleEndian count bits, Binary.ofDigits_littleEndian hbits⟩

/-- **Float literals fall in classes by their body**, whatever lawful reader
hexadecimal numbers are read by. A literal that is accepted is no number
exactly if its body is `nan` or a payload that fits the significand, after a
plus or not, infinite exactly if its body is `inf`, and finite exactly if its
body is a number that does not overflow; its sign bit is set exactly by a
minus. A number that overflows is out of range, and every other body is
invalid, an empty payload and one that does not fit among them. The constants
compile exactly with an argument that is read, and their bytes are the bits
read, the lowest first. -/
theorem float_literals_classified [HexReader] (hlaws : HexReader.Lawful) :
    ClassifiesFloats .f32 .single 0x80000000 0x7F800000 0x7FC00000 readF32 ∧
      ClassifiesFloats .f64 .double 0x8000000000000000 0x7FF0000000000000 0x7FF8000000000000
        readF64 ∧
      CompilesFloats "f32.const" 0x43 4 readF32
        (fun bits => .op ⟨"f32.const", 0x43, .f32⟩ (.f32 (.ofNat 32 bits))) ∧
      CompilesFloats "f64.const" 0x44 8 readF64
        (fun bits => .op ⟨"f64.const", 0x44, .f64⟩ (.f64 (.ofNat 64 bits))) := by
  refine ⟨?_, ?_, ?_, ?_⟩
  · intro text negative body span h
    exact classifies h hlaws FloatFormat.usual_single
  · intro text negative body span h
    exact classifies h hlaws FloatFormat.usual_double
  · refine compilesFloats ⟨"f32.const", 0x43, .f32⟩ (by decide) ⟨by decide, by decide⟩
      (fun _ _ => rfl) fun bits hbits => ?_
    rw [Immediate.encode, BitVec.toNat_ofNat, Nat.mod_eq_of_lt (by omega)]
  · refine compilesFloats ⟨"f64.const", 0x44, .f64⟩ (by decide) ⟨by decide, by decide⟩
      (fun _ _ => rfl) fun bits hbits => ?_
    rw [Immediate.encode, BitVec.toNat_ofNat, Nat.mod_eq_of_lt (by omega)]

theorem float_literals_classified_payloads :
    (readF32 "-nan:0x7fffff" .zero = .ok 0xFFFFFFFF ∧ FloatFormat.single.IsNaN 0xFFFFFFFF) ∧
      readF64 "nan:0x10000000000000" .zero =
        .error (.invalidLiteral .f64 "nan:0x10000000000000" .zero) := by
  have hsingle : IsSigned "-nan:0x7fffff".toList true "nan:0x7fffff".toList :=
    ⟨Or.inr (Or.inr ⟨rfl, rfl⟩), fun c hc => by cases hc; decide⟩
  have hpayload : IsPayload .single [] "nan:0x7fffff".toList 0x7FFFFF :=
    ⟨"7fffff".toList, rfl, digits?_eq_some.1 (by decide), by decide, by decide⟩
  have hdouble : IsSigned "nan:0x10000000000000".toList false "nan:0x10000000000000".toList :=
    ⟨Or.inl ⟨rfl, rfl⟩, fun c hc => by cases hc; decide⟩
  have hdigits : Spells 16 "10000000000000".toList (2 ^ 52) := digits?_eq_some.1 (by decide)
  obtain ⟨hclassifies, hclassifies', -⟩ := float_literals_classified hexReader_lawful
  refine ⟨((hclassifies _ _ _ .zero hsingle).nan _).2
    (Or.inr ⟨[], by decide, _, hpayload, by decide⟩), ?_⟩
  exact (hclassifies' _ _ _ .zero hdouble).payloads [] (by decide) _ _ rfl hdigits
    (Or.inr (le_refl _))

/-- A plus before the digits of a payload is read over, though it is no
digit. -/
theorem payload_after_plus :
    readF64 "nan:0x+8000000000000" .zero = .ok 0x7FF8000000000000 ∧
      ∀ p, ¬ Spells 16 "+8000000000000".toList p := by
  refine ⟨by decide +kernel, fun p hp => ?_⟩
  obtain ⟨d, hd⟩ := exists_isDigit_of_mem hp (c := '+') (by decide)
  exact ne_of_isDigit hd (by decide) rfl

end WasmText
