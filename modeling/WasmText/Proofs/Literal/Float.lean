import WasmText.Literal.Hexadecimal
import WasmText.Proofs.Literal.Decimal
import WasmText.Proofs.Literal.FloatPattern
import WasmText.Proofs.Literal.Rounding
/-!
# What float literals denote

A float literal is a sign or none and a body: a word for infinity or for a
value that is no number, a hexadecimal number, which starts with a mark, or
a decimal one. Reading puts the sign on the pattern of the body. A decimal
number that does not overflow the format has the pattern of the nearest
value (`RoundsDecimal`). What a hexadecimal body stands for is up to its
reader. A lawful one finds no sign where none is written, and nothing finite
for a number too large for the format (`HexReader.Lawful`).
-/

namespace WasmText

namespace Literal

variable {f : FloatFormat} {text body : List Char} {negative : Bool} {q : ℚ} {n : Nat}

/-! ## Signs and bodies -/

/-- Whether a text starts with no sign. -/
def IsUnsigned (text : List Char) : Prop := ∀ c ∈ text.head?, c ≠ '+' ∧ c ≠ '-'

/-- Whether a text is a sign, or none, and a body that starts with none. -/
def IsSigned (text : List Char) (negative : Bool) (body : List Char) : Prop :=
  (text = body ∧ negative = false ∨ text = '+' :: body ∧ negative = false ∨
    text = '-' :: body ∧ negative = true) ∧ IsUnsigned body

/-- Whether a body starts with a mark for hexadecimal digits. -/
def IsHexadecimal (body : List Char) : Prop :=
  ∃ mark ∈ ["0x".toList, "0X".toList], ∃ digits, body = mark ++ digits

/-- Whether a text is a word for infinity, in any case of letters. -/
def IsInfinityWord (text : List Char) : Prop :=
  text.map Char.toLower = "inf".toList ∨ text.map Char.toLower = "infinity".toList

theorem IsUnsigned.splitSign_eq (h : IsUnsigned body) : splitSign body = (false, body) := by
  obtain ⟨rest, rfl, -⟩ | ⟨rest, rfl, -⟩ | ⟨-, hsplit⟩ := splitSign_cases body
  · exact absurd rfl (h '-' rfl).2
  · exact absurd rfl (h '+' rfl).1
  · exact hsplit

theorem IsSigned.splitSign_eq (h : IsSigned text negative body) :
    splitSign text = (negative, body) := by
  obtain ⟨⟨rfl, rfl⟩ | ⟨rfl, rfl⟩ | ⟨rfl, rfl⟩, hbody⟩ := h
  · exact hbody.splitSign_eq
  · rfl
  · rfl

theorem IsSigned.negative_iff (h : IsSigned text negative body) :
    negative = true ↔ text.head? = some '-' := by
  obtain ⟨⟨rfl, rfl⟩ | ⟨rfl, rfl⟩ | ⟨rfl, rfl⟩, hbody⟩ := h
  · simpa using fun hhead => (hbody '-' hhead).2 rfl
  · simp
  · simp

/-! ## Bodies -/

theorem isHexadecimal_iff : IsHexadecimal body ↔ (afterHexMark? body).isSome = true := by
  rw [Option.isSome_iff_exists]
  constructor
  · rintro ⟨mark, hmark, digits, htext⟩
    exact ⟨digits, afterHexMark?_eq_some.2 ⟨mark, hmark, htext⟩⟩
  · rintro ⟨digits, h⟩
    obtain ⟨mark, hmark, htext⟩ := afterHexMark?_eq_some.1 h
    exact ⟨mark, hmark, digits, htext⟩

/-- A mark starts with a zero. -/
theorem IsHexadecimal.first (h : IsHexadecimal body) : ∃ cs, body = '0' :: cs := by
  obtain ⟨mark, hmark, digits, rfl⟩ := h
  simp only [List.mem_cons, List.not_mem_nil, or_false] at hmark
  rcases hmark with rfl | rfl
  · exact ⟨_, rfl⟩
  · exact ⟨_, rfl⟩

/-- The letter of a mark stands where an exponent would. -/
theorem IsHexadecimal.not_denotesDecimal (h : IsHexadecimal body) : ¬ DenotesDecimal body q := by
  intro hdecimal
  obtain ⟨m, e, hread, -⟩ := decimal?_iff.1 hdecimal
  obtain ⟨mark, hmark, digits, rfl⟩ := h
  simp only [List.mem_cons, List.not_mem_nil, or_false] at hmark
  rcases hmark with rfl | rfl
  · cases hread
  · cases hread

theorem DenotesDecimal.first (h : DenotesDecimal body q) :
    ∃ c cs, body = c :: cs ∧ c ≠ 'n' ∧ c.toLower ≠ 'i' := by
  obtain ⟨whole, point, fraction, tail, x, e, rfl, hpoint, ⟨ws, fs, hws, hfs, hne, -⟩, -⟩ := h
  cases hws with
  | cons hd =>
      have hfirst := of_isDigit (p := fun c => c != 'n' && c.toLower != 'i') (by decide) hd
      exact ⟨_, _, rfl, by simpa using hfirst⟩
  | nil =>
      rcases hpoint with rfl | ⟨rfl, rfl⟩
      · exact ⟨'.', _, rfl, by decide⟩
      · cases hfs
        exact absurd rfl hne

/-- **A number starts with a digit or a point**, and no word for another
value does. -/
theorem first_of_number (h : (∃ q, DenotesDecimal body q) ∨ IsHexadecimal body) :
    ∃ c cs, body = c :: cs ∧ c ≠ 'n' ∧ c.toLower ≠ 'i' := by
  rcases h with ⟨q, hq⟩ | hhex
  · exact hq.first
  · obtain ⟨cs, rfl⟩ := hhex.first
    exact ⟨'0', cs, rfl, by decide⟩

theorem IsInfinityWord.first (h : IsInfinityWord body) :
    ∃ c cs, body = c :: cs ∧ c.toLower = 'i' := by
  cases body with
  | nil => rcases h with h | h <;> cases h
  | cons c cs =>
      refine ⟨c, cs, rfl, ?_⟩
      rcases h with h | h
      · exact (List.cons.inj h).1
      · exact (List.cons.inj h).1

/-- No word for infinity is a number. -/
theorem IsInfinityWord.not_number (hword : IsInfinityWord body) :
    (∀ q, ¬ DenotesDecimal body q) ∧ ¬ IsHexadecimal body := by
  rw [← not_exists, ← not_or]
  intro h
  obtain ⟨c, cs, rfl, -, hc⟩ := first_of_number h
  obtain ⟨_, _, hbody, hi⟩ := hword.first
  cases hbody
  exact hc hi

/-! ## Numbers -/

theorem decimalBits_of_word (hbody : IsUnsigned body) (hword : IsInfinityWord body) :
    decimalBits f body = .error .outOfRange := by
  unfold IsInfinityWord at hword
  simp only [decimalBits, hbody.splitSign_eq, if_pos hword]

theorem decimalBits_of_not_word (hbody : IsUnsigned body) (hword : ¬ IsInfinityWord body) :
    decimalBits f body = (decimal? body).elim (.error .invalid)
      fun p => .ok (false, f.nearestScaled 10 p.1 p.2) := by
  unfold IsInfinityWord at hword
  simp only [decimalBits, hbody.splitSign_eq, if_neg hword]
  cases decimal? body with
  | none => rfl
  | some p => rfl

/-- **A decimal number is read** as a finite pattern, that of the nearest
value, if it does not overflow, and is out of range if it does. -/
theorem finiteBits_of_decimal [HexReader] (hf : f.Usual) (hbody : IsUnsigned body)
    (h : DenotesDecimal body q) :
    ∃ n, finiteBits f body = (if n < f.infinity then .ok (false, n) else .error .outOfRange) ∧
      f.IsRounding q n := by
  have hmark : ¬ (afterHexMark? body).isSome = true :=
    fun hmark => (isHexadecimal_iff.2 hmark).not_denotesDecimal h
  have hword : ¬ IsInfinityWord body := fun hword => hword.not_number.1 q h
  obtain ⟨m, e, hread, rfl⟩ := decimal?_iff.1 h
  have hrounding : f.IsRounding (m * 10 ^ e) (f.nearestScaled 10 m e) := by
    exact_mod_cast FloatFormat.isRounding_nearestScaled hf (by norm_num) m e
  refine ⟨f.nearestScaled 10 m e, ?_, hrounding⟩
  rw [finiteBits, if_neg hmark, decimalBits_of_not_word hbody hword, hread]
  rfl

/-- **A hexadecimal number is read** by its reader. -/
theorem finiteBits_of_hexadecimal [HexReader] (h : IsHexadecimal body) :
    finiteBits f body = (HexReader.read? f (readerText body)).elim (.error .invalid) fun r =>
      if r.2 < f.infinity then .ok r
      else if r.2 = f.infinity then .error .outOfRange else .error .invalid := by
  rw [finiteBits, if_pos (isHexadecimal_iff.1 h), hexadecimalBits]
  cases HexReader.read? f (readerText body) with
  | none => rfl
  | some r =>
      obtain ⟨negative, bits⟩ := r
      dsimp only [Option.elim]
      rcases Nat.lt_trichotomy bits f.infinity with hlt | heq | hgt
      · rw [if_pos hlt, if_pos (Nat.le_of_lt hlt)]
        exact if_pos hlt
      · have hnot : ¬ bits < f.infinity := Nat.not_lt_of_ge (Nat.le_of_eq heq.symm)
        rw [if_pos (Nat.le_of_eq heq), if_neg hnot, if_pos heq]
        exact if_neg hnot
      · rw [if_neg (Nat.not_le_of_gt hgt), if_neg (Nat.lt_asymm hgt), if_neg (Nat.ne_of_gt hgt)]
        rfl

theorem finiteBits_of_other [HexReader] (hbody : IsUnsigned body) (hhex : ¬ IsHexadecimal body)
    (hdecimal : ∀ q, ¬ DenotesDecimal body q) :
    finiteBits f body = .error .outOfRange ∧ IsInfinityWord body ∨
      finiteBits f body = .error .invalid ∧ ¬ IsInfinityWord body := by
  have hread : decimal? body = none := by
    refine Option.eq_none_iff_forall_ne_some.2 fun p hp => ?_
    exact hdecimal _ (decimal?_iff.2 ⟨p.1, p.2, hp, rfl⟩)
  rw [finiteBits, if_neg (mt isHexadecimal_iff.2 hhex)]
  by_cases hword : IsInfinityWord body
  · rw [decimalBits_of_word hbody hword]
    exact Or.inl ⟨rfl, hword⟩
  · rw [decimalBits_of_not_word hbody hword, hread]
    exact Or.inr ⟨rfl, hword⟩

/-! ## All floats -/

theorem payload?_eq_some {digits : List Char} {p : Nat} :
    payload? f digits = some p ↔ SpellsPlus 16 digits p ∧ 0 < p ∧ p < 2 ^ f.precision := by
  simp [payload?, Option.filter_eq_some_iff, plusDigits?_eq_some]

theorem float_inf [HexReader] (h : IsSigned text negative "inf".toList) :
    float f text = .ok (f.withSign negative f.infinity) := by
  simp only [float, h.splitSign_eq]
  cases negative with
  | false => rfl
  | true => rfl

theorem float_nan [HexReader] (h : IsSigned text negative "nan".toList) :
    float f text = .ok (f.withSign negative f.canonicalNaN) := by
  simp only [float, h.splitSign_eq]
  cases negative with
  | false => rfl
  | true => rfl

theorem float_payload [HexReader] {digits : List Char}
    (h : IsSigned text negative ("nan:0x".toList ++ digits)) :
    float f text = (payload? f digits).elim (.error .invalid)
      fun p => .ok (f.withSign negative (f.infinity + p)) := by
  have hmark : "nan:0x".toList.isPrefixOf ("nan:0x".toList ++ digits) = true :=
    List.isPrefixOf_iff_prefix.2 (List.prefix_append _ _)
  have hdrop : ("nan:0x".toList ++ digits).drop 6 = digits := rfl
  rw [float, h.splitSign_eq]
  dsimp only
  rw [if_neg (by intro hinf; cases hinf), if_neg (by intro hnan; cases hnan), if_pos hmark, hdrop]
  cases payload? f digits with
  | none => rfl
  | some p =>
      cases negative with
      | false => rfl
      | true => rfl

/-- Every other text is read as a number. -/
theorem float_finite [HexReader] (h : IsSigned text negative body) (hinf : body ≠ "inf".toList)
    (hnan : body ≠ "nan".toList) (hpayload : ¬ "nan:0x".toList <+: body) :
    float f text = (finiteBits f body).map fun r => f.withSign (negative != r.1) r.2 := by
  rw [← List.isPrefixOf_iff_prefix] at hpayload
  simp only [float, h.splitSign_eq, if_neg hinf, if_neg hnan, if_neg hpayload]
  cases finiteBits f body with
  | error fault => rfl
  | ok r => rfl

/-- A number is none of the words. -/
theorem float_of_number [HexReader] (h : IsSigned text negative body)
    (hnumber : (∃ q, DenotesDecimal body q) ∨ IsHexadecimal body) :
    float f text = (finiteBits f body).map fun r => f.withSign (negative != r.1) r.2 := by
  obtain ⟨c, cs, rfl, hn, hi⟩ := first_of_number hnumber
  refine float_finite h ?_ ?_ ?_
  · intro hbody
    cases hbody
    exact hi rfl
  · intro hbody
    cases hbody
    exact hn rfl
  · rintro ⟨digits, hbody⟩
    cases hbody
    exact hn rfl

/-- **A decimal number with a sign** is read as its finite pattern with the
sign, or is out of range. -/
theorem float_of_decimal [HexReader] (hf : f.Usual) (h : IsSigned text negative body)
    (hq : DenotesDecimal body q) :
    ∃ n, float f text =
        (if n < f.infinity then .ok (f.withSign negative n) else .error .outOfRange) ∧
      f.IsRounding q n := by
  obtain ⟨n, hread, hrounding⟩ := finiteBits_of_decimal hf h.2 hq
  refine ⟨n, ?_, hrounding⟩
  rw [float_of_number h (.inl ⟨q, hq⟩), hread]
  split_ifs with hlt
  · rw [Except.map, Bool.bne_false]
  · rfl

/-- **A hexadecimal number with a sign** is read as its reader has it. -/
theorem float_of_hexadecimal [HexReader] (h : IsSigned text negative body)
    (hhex : IsHexadecimal body) :
    float f text = (HexReader.read? f (readerText body)).elim (.error .invalid) fun r =>
      if r.2 < f.infinity then .ok (f.withSign (negative != r.1) r.2)
      else if r.2 = f.infinity then .error .outOfRange else .error .invalid := by
  rw [float_of_number h (.inr hhex), finiteBits_of_hexadecimal hhex]
  cases HexReader.read? f (readerText body) with
  | none => rfl
  | some r =>
      dsimp only [Option.elim]
      split_ifs
      · rfl
      · rfl
      · rfl

/-! ## Decimal floats -/

/-- What reading a decimal number with a sign gives: the pattern with the
sign and the nearest value, the even one of two, if the number is below a
limit. From the limit on, which is where rounding leaves the finite
patterns, the number is out of range. -/
structure RoundsDecimal (f : FloatFormat) (limit q : ℚ) (negative : Bool) (span : Span)
    (result : Except CompileError Nat) : Prop where
  accepts : ∀ bits, result = .ok bits ↔
    q < limit ∧ bits < 2 ^ f.width ∧ f.isNegative bits = negative ∧
      f.Rounds (FloatFormat.signFactor negative * q) bits
  refuses : ∀ e, result = .error e ↔ limit ≤ q ∧ e = .malformed .constantOutOfRange span
  message : ∀ e, result = .error e → e.render = "constant out of range at " ++ span.render
  overflows : ∃ n, f.IsNearest q n ∧ (f.infinity ≤ n ↔ limit ≤ q)

theorem DenotesDecimal.nonneg (h : DenotesDecimal body q) : 0 ≤ q := by
  obtain ⟨m, e, -, rfl⟩ := decimal?_iff.1 h
  positivity

theorem roundsDecimal [HexReader] (hf : f.Usual) (kind : LiteralKind) {text : String} (span : Span)
    (h : IsSigned text.toList negative body) (hq : DenotesDecimal body q) :
    RoundsDecimal f f.overflow q negative span (readFloat kind f text span) := by
  obtain ⟨n, hread, hrounding⟩ := float_of_decimal hf h hq
  have hfinite := hrounding.lt_infinity_iff hf
  obtain ⟨k, hk⟩ := FloatFormat.exists_isNearest hf hq.nonneg
  have hoverflows := hk.infinity_le_iff hf
  by_cases hlt : q < f.overflow
  · have hresult : readFloat kind f text span = .ok (f.withSign negative n) := by
      rw [readFloat, hread, if_pos (hfinite.2 hlt)]
    have hnearest := hrounding.nearest hlt
    refine ⟨fun bits => ?_, fun e => ?_, fun e he => ?_, k, hk, hoverflows⟩
    · rw [hresult, ← FloatFormat.eq_withSign_iff hf hq.nonneg hlt hnearest]
      simp [hlt, eq_comm]
    · rw [hresult]
      simp [hlt]
    · rw [hresult] at he
      cases he
  · have hresult : readFloat kind f text span = .error (.malformed .constantOutOfRange span) := by
      rw [readFloat, hread, if_neg (mt hfinite.1 hlt)]
    refine ⟨fun bits => ?_, fun e => ?_, fun e he => ?_, k, hk, hoverflows⟩
    · rw [hresult]
      simp [hlt]
    · rw [hresult]
      simp [not_lt.1 hlt, eq_comm]
    · rw [hresult] at he
      cases he
      rfl

/-- **Decimal floats are rounded once.** A decimal number, with a sign or
without, is read as the pattern of its own format that is nearest to the
number the text denotes, the even one of two, with the sign it has, even on
zero. It is out of range exactly if rounding leaves the finite patterns:
from `2 ^ 128 - 2 ^ 103` on for the single format, and from
`2 ^ 1024 - 2 ^ 970` on for the double. -/
theorem decimal_floats_round [HexReader] {text : String} {negative : Bool} {body : List Char}
    {q : ℚ} (h : IsSigned text.toList negative body) (hq : DenotesDecimal body q) (span : Span) :
    RoundsDecimal .single (2 ^ 128 - 2 ^ 103) q negative span (readF32 text span) ∧
      RoundsDecimal .double (2 ^ 1024 - 2 ^ 970) q negative span (readF64 text span) := by
  rw [← FloatFormat.overflow_single, ← FloatFormat.overflow_double]
  exact ⟨roundsDecimal FloatFormat.usual_single .f32 span h hq,
    roundsDecimal FloatFormat.usual_double .f64 span h hq⟩

/-- The number lies just under the middle of two single patterns, and its
double pattern on the middle: rounded twice, it would be `0xBF800002`. -/
theorem decimal_floats_round_once :
    FloatFormat.single.Rounds
        (FloatFormat.signFactor true * (100000017881393432617187499 * 10 ^ (-26 : Int)))
        0xBF800001 ∧
      readF32 "-1.00000017881393432617187499" .zero = .ok 0xBF800001 := by
  have hread : readF32 "-1.00000017881393432617187499" .zero = .ok 0xBF800001 := by decide +kernel
  have hsigned : IsSigned "-1.00000017881393432617187499".toList true
      "1.00000017881393432617187499".toList :=
    ⟨Or.inr (Or.inr ⟨rfl, rfl⟩), fun c hc => by cases hc; decide⟩
  have hdecimal : DenotesDecimal "1.00000017881393432617187499".toList
      (100000017881393432617187499 * 10 ^ (-26 : Int)) :=
    decimal?_iff.2 ⟨100000017881393432617187499, -26, by decide +kernel, rfl⟩
  obtain ⟨-, -, -, hrounds⟩ := ((decimal_floats_round hsigned hdecimal .zero).1.accepts _).1 hread
  exact ⟨hrounds, hread⟩

/-! ## Hexadecimal floats -/

/-- Whether a text is a binary exponent after its mark, or nothing. -/
def IsBinaryScaled (text : List Char) (e : Int) : Prop :=
  text = [] ∧ e = 0 ∨
    ∃ mark ∈ ['p', 'P'], ∃ body, text = mark :: body ∧ DenotesExponent body e

/-- Whether a text is a hexadecimal number without a sign, and which: digits
after a mark, with a point among or around them or none, and a binary
exponent or none. -/
def DenotesHexadecimal (text : List Char) (q : ℚ) : Prop :=
  ∃ mark ∈ ["0x".toList, "0X".toList], ∃ whole point fraction tail x e,
    text = mark ++ (whole ++ point ++ tail) ∧ IsPointed point fraction ∧
      SpellsFraction 16 whole fraction x ∧ IsBinaryScaled tail e ∧ q = x * 2 ^ e

theorem DenotesHexadecimal.isHexadecimal (h : DenotesHexadecimal body q) : IsHexadecimal body := by
  obtain ⟨mark, hmark, whole, point, fraction, tail, x, e, rfl, -⟩ := h
  exact ⟨mark, hmark, _, rfl⟩

theorem IsHexadecimal.isUnsigned_readerText (h : IsHexadecimal body) :
    IsUnsigned (readerText body) := by
  obtain ⟨cs, rfl⟩ := h.first
  intro c hc
  obtain rfl : '0' = c := by
    simp only [readerText] at hc
    split at hc
    · exact Option.some.inj hc
    · exact Option.some.inj hc
  decide

theorem isDigit_toLower {radix d : Nat} {c : Char} (h : IsDigit radix c d) :
    IsDigit radix c.toLower d := by
  have hall : ∀ d < 16, ("0123456789abcdef".toList[d]?.all fun c =>
      "0123456789abcdef".toList[d]? == some c.toLower) = true ∧
      ("0123456789ABCDEF".toList[d]?.all fun c =>
        "0123456789abcdef".toList[d]? == some c.toLower) = true := by
    decide
  obtain ⟨hd, htable⟩ := h
  have hlt : d < 16 := by
    rcases htable with htable | htable
    · exact (List.getElem?_eq_some_iff.1 htable).1
    · exact (List.getElem?_eq_some_iff.1 htable).1
  refine ⟨hd, .inl ?_⟩
  rcases htable with htable | htable
  · have hlower := (hall d hlt).1
    rw [htable] at hlower ⊢
    exact congrArg some (by simpa using hlower)
  · have hlower := (hall d hlt).2
    rw [htable] at hlower
    simpa using hlower

theorem forall₂_isDigit_toLower {radix : Nat} {cs : List Char} {ds : List Nat}
    (h : List.Forall₂ (IsDigit radix) cs ds) :
    List.Forall₂ (IsDigit radix) (cs.map Char.toLower) ds := by
  rw [List.forall₂_map_left_iff]
  exact h.imp fun _ _ hd => isDigit_toLower hd

/-- The characters of an exponent have no case. -/
theorem DenotesExponent.map_toLower {e : Int} (h : DenotesExponent text e) :
    DenotesExponent (text.map Char.toLower) e := by
  have hdigits : ∀ {digits : List Char} {n : Nat}, Spells 10 digits n →
      Spells 10 (digits.map Char.toLower) n := by
    rintro digits n ⟨ds, hne, hds, rfl⟩
    exact ⟨ds, hne, forall₂_isDigit_toLower hds, rfl⟩
  rcases h with ⟨n, hn, rfl⟩ | ⟨digits, n, rfl, hn, rfl⟩ | ⟨digits, n, rfl, hn, rfl⟩
  · exact .inl ⟨n, hdigits hn, rfl⟩
  · exact .inr (.inl ⟨_, n, rfl, hdigits hn, rfl⟩)
  · exact .inr (.inr ⟨_, n, rfl, hdigits hn, rfl⟩)

theorem IsPointed.map_toLower {point fraction : List Char} (h : IsPointed point fraction) :
    IsPointed (point.map Char.toLower) (fraction.map Char.toLower) := by
  rcases h with rfl | ⟨rfl, rfl⟩
  · exact .inl rfl
  · exact .inr ⟨rfl, rfl⟩

theorem SpellsFraction.map_toLower {radix : Nat} {whole fraction : List Char} {x : ℚ}
    (h : SpellsFraction radix whole fraction x) :
    SpellsFraction radix (whole.map Char.toLower) (fraction.map Char.toLower) x := by
  obtain ⟨ws, fs, hws, hfs, hne, rfl⟩ := h
  exact ⟨ws, fs, forall₂_isDigit_toLower hws, forall₂_isDigit_toLower hfs, hne, rfl⟩

/-- No significand holds the mark of an exponent. -/
theorem not_mem_significand {whole point fraction : List Char} {x : ℚ}
    (hpoint : IsPointed point fraction) (hx : SpellsFraction 16 whole fraction x) {c : Char}
    (hnone : digit? 16 c = none) (hc : c ≠ '.') : c ∉ whole ++ point := by
  obtain ⟨ws, fs, hws, hfs, -⟩ := hx
  have hdigits : ∀ {cs : List Char} {ds : List Nat}, List.Forall₂ (IsDigit 16) cs ds → c ∉ cs := by
    intro cs ds h hmem
    obtain ⟨d, hd⟩ := exists_isDigit_of_forall₂ h hmem
    exact ne_of_isDigit hd hnone rfl
  rw [List.mem_append, not_or]
  refine ⟨hdigits hws, ?_⟩
  rcases hpoint with rfl | ⟨rfl, -⟩
  · rw [List.mem_cons, not_or]
    exact ⟨hc, hdigits hfs⟩
  · exact List.not_mem_nil

/-- **A reader is given the number that the body denotes.** -/
theorem DenotesHexadecimal.readerText (h : DenotesHexadecimal body q) :
    DenotesHexadecimal (readerText body) q := by
  obtain ⟨mark, hmark, whole, point, fraction, tail, x, e, rfl, hpoint, hx, htail, rfl⟩ := h
  have hlower : mark.map Char.toLower = ['0', 'x'] := by
    simp only [List.mem_cons, List.not_mem_nil, or_false] at hmark
    rcases hmark with rfl | rfl <;> rfl
  have hsignificand := not_mem_significand hpoint.map_toLower hx.map_toLower
    (c := 'p') (by decide) (by decide)
  rw [Literal.readerText]
  simp only [List.map_append, hlower]
  rcases htail with ⟨rfl, rfl⟩ | ⟨p, hp, exponent, rfl, hexponent⟩
  · rw [List.map_nil, List.append_nil, if_neg (by simpa using hsignificand), List.append_assoc]
    exact ⟨_, List.mem_cons_self, _, _, _, ['p', '0'], x, 0, rfl, hpoint.map_toLower,
      hx.map_toLower, .inr ⟨'p', by decide, ['0'], rfl, .inl ⟨0, digits?_eq_some.1 rfl, rfl⟩⟩, rfl⟩
  · have hmap : (p :: exponent).map Char.toLower = 'p' :: exponent.map Char.toLower := by
      simp only [List.mem_cons, List.not_mem_nil, or_false] at hp
      rcases hp with rfl | rfl <;> rfl
    rw [hmap, if_pos (by simp)]
    exact ⟨_, List.mem_cons_self, _, _, _, _, x, e, rfl, hpoint.map_toLower, hx.map_toLower,
      .inr ⟨'p', by decide, _, rfl, hexponent.map_toLower⟩, rfl⟩

end Literal

open Literal

/-- The laws of a reader. A value that it finds in a text without a sign
has none, if it is a number, and a number too large for the format is not
read as a finite one. -/
structure HexReader.Lawful [HexReader] : Prop where
  unsigned : ∀ (f : FloatFormat) (text : List Char) (negative : Bool) (bits : Nat), f.Usual →
    IsUnsigned text → read? f text = some (negative, bits) → bits ≤ f.infinity → negative = false
  large : ∀ (f : FloatFormat) (text : List Char) (q : ℚ) (negative : Bool) (bits : Nat), f.Usual →
    DenotesHexadecimal text q → f.overflow ≤ q → read? f text = some (negative, bits) →
    f.infinity ≤ bits

end WasmText
