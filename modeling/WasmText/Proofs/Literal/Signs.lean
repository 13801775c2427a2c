import WasmText.Proofs.Instruction.FloatConstant
import WasmText.Proofs.Tree.StringLiteral
/-!
# Signs and digits of literals

An integer that is read is at most one sign and digits of its radix. The
digits of a payload and of a code point are hexadecimal, but one plus may
stand before them. A float has at most one sign before its first digit or
letter, except that a decimal number may have two, of which the second is
read with the number (`digits_and_signs`). So neither a payload nor a code
point need be digits only (`plus_before_digits`).
-/

namespace WasmText

namespace Literal

/-! ## Readers -/

/-- The readers of words, by their widths. -/
def wordReaders : List (Nat × (String → Span → Except CompileError Int)) :=
  [(32, readI32), (64, readI64)]

/-- The readers of floats, by their formats. -/
def floatReaders [HexReader] : List (FloatFormat × (String → Span → Except CompileError Nat)) :=
  [(.single, readF32), (.double, readF64)]

/-- What a reader of words accepts denotes an integer. -/
theorem denotesInteger_of_wordReaders {r : Nat × (String → Span → Except CompileError Int)}
    (hr : r ∈ wordReaders) {text : String} {span : Span} {w : Int} (h : r.2 text span = .ok w) :
    ∃ v, DenotesInteger text.toList v ∧ Wraps r.1 v w := by
  have hread : ∀ {width : Nat}, 0 < width → word? width text.toList = some w →
      ∃ v, DenotesInteger text.toList v ∧ Wraps width v w := by
    intro width hwidth hword
    obtain ⟨v, hv, hwraps⟩ := (word?_eq_some hwidth).1 hword
    exact ⟨v, hv.1, hwraps⟩
  simp only [wordReaders, List.mem_cons, List.not_mem_nil, or_false] at hr
  rcases hr with rfl | rfl
  · exact hread (by decide) (orInvalid_eq_ok.1 h)
  · exact hread (by decide) (orInvalid_eq_ok.1 h)

/-- A reader of floats goes by a format of the usual kind. -/
theorem exists_of_floatReaders [HexReader]
    {r : FloatFormat × (String → Span → Except CompileError Nat)}
    (hr : r ∈ floatReaders) : r.1.Usual ∧ ∃ kind, r.2 = readFloat kind r.1 := by
  simp only [floatReaders, List.mem_cons, List.not_mem_nil, or_false] at hr
  rcases hr with rfl | rfl
  · exact ⟨FloatFormat.usual_single, .f32, rfl⟩
  · exact ⟨FloatFormat.usual_double, .f64, rfl⟩

/-! ## Counting signs -/

def isSign (c : Char) : Bool := c == '+' || c == '-'

/-- How many signs stand before the first digit or letter of a text. -/
def leadingSigns (text : List Char) : Nat := (text.takeWhile (!·.isAlphanum)).countP isSign

theorem isSign_iff {c : Char} : isSign c = true ↔ c = '+' ∨ c = '-' := by
  rw [isSign, Bool.or_eq_true, beq_iff_eq, beq_iff_eq]

theorem leadingSigns_sign {c : Char} (h : isSign c = true) (text : List Char) :
    leadingSigns (c :: text) = leadingSigns text + 1 := by
  have hmark : (!c.isAlphanum) = true := by
    rcases isSign_iff.1 h with rfl | rfl <;> rfl
  rw [leadingSigns, List.takeWhile_cons, if_pos hmark, List.countP_cons_of_pos h]
  rfl

/-- Signs lead only up to the first letter or digit. -/
theorem leadingSigns_alphanum {c : Char} (h : c.isAlphanum = true) (text : List Char) :
    leadingSigns (c :: text) = 0 := by
  rw [leadingSigns, List.takeWhile_cons, h]
  rfl

theorem leadingSigns_digit {radix d : Nat} {c : Char} (hradix : radix ≤ 16) (h : IsDigit radix c d)
    (text : List Char) : leadingSigns (c :: text) = 0 := by
  have hdigit : IsDigit 16 c d := ⟨Nat.lt_of_lt_of_le h.1 hradix, h.2⟩
  exact leadingSigns_alphanum (of_isDigit (by decide) hdigit) text

theorem leadingSigns_point (text : List Char) : leadingSigns ('.' :: text) = leadingSigns text := by
  rw [leadingSigns, List.takeWhile_cons, if_pos (show (!Char.isAlphanum '.') = true from rfl),
    List.countP_cons_of_neg (by decide)]
  rfl

/-- A text starts with no sign, or with one. -/
theorem sign_cases (text : List Char) :
    IsUnsigned text ∨ ∃ s rest, text = s :: rest ∧ isSign s = true := by
  cases text with
  | nil => exact .inl fun c hc => by cases hc
  | cons s rest =>
      by_cases hs : isSign s = true
      · exact .inr ⟨s, rest, rfl, hs⟩
      · refine .inl fun c hc => ?_
        obtain rfl := Option.some.inj hc
        exact not_or.1 fun h => hs (isSign_iff.2 h)

/-- One sign before a body without any makes a signed text. -/
theorem isSigned_of_sign {s : Char} {body : List Char} (hs : isSign s = true)
    (hbody : IsUnsigned body) : IsSigned (s :: body) (s == '-') body := by
  rcases isSign_iff.1 hs with rfl | rfl
  · exact ⟨.inr (.inl ⟨rfl, rfl⟩), hbody⟩
  · exact ⟨.inr (.inr ⟨rfl, rfl⟩), hbody⟩

/-! ## Integers -/

/-- Whether characters are digits of a radix, at least one. -/
def AreDigits (radix : Nat) (cs : List Char) : Prop := cs ≠ [] ∧ ∀ c ∈ cs, ∃ d, IsDigit radix c d

/-- Whether a text is a sign or none and digits, after their mark if they
are hexadecimal. -/
def IsIntegerText (text : List Char) : Prop :=
  ∃ sign ∈ [[], ['+'], ['-']], ∃ form ∈ [(10, []), (16, "0x".toList), (16, "0X".toList)],
    ∃ digits, text = sign ++ (form.2 ++ digits) ∧ AreDigits form.1 digits

/-- A numeral is made of digits. -/
theorem areDigits_of_spells {radix n : Nat} {cs : List Char} (h : Spells radix cs n) :
    AreDigits radix cs := by
  refine ⟨?_, fun c hc => exists_isDigit_of_mem h hc⟩
  rintro rfl
  obtain ⟨digits, hne, hdigits, -⟩ := h
  exact hne (List.forall₂_nil_left_iff.1 hdigits)

theorem exists_form_of_denotesMagnitude {text : List Char} {n : Nat} (h : DenotesMagnitude text n) :
    ∃ form ∈ [(10, []), (16, "0x".toList), (16, "0X".toList)], ∃ digits,
      text = form.2 ++ digits ∧ AreDigits form.1 digits := by
  rcases h with h | ⟨mark, hmark, digits, rfl, h⟩
  · exact ⟨(10, []), List.mem_cons_self, text, rfl, areDigits_of_spells h⟩
  · refine ⟨(16, mark), List.mem_cons_of_mem _ ?_, digits, rfl, areDigits_of_spells h⟩
    exact List.mem_map.2 ⟨mark, hmark, rfl⟩

/-- A magnitude has no sign in front. -/
theorem leadingSigns_of_denotesMagnitude {text : List Char} {n : Nat}
    (h : DenotesMagnitude text n) : leadingSigns text = 0 := by
  rcases h with h | ⟨mark, hmark, digits, rfl, -⟩
  · obtain ⟨hne, hdigits⟩ := areDigits_of_spells h
    obtain ⟨c, cs, rfl⟩ := List.exists_cons_of_ne_nil hne
    obtain ⟨d, hd⟩ := hdigits c List.mem_cons_self
    exact leadingSigns_digit (by decide) hd cs
  · simp only [List.mem_cons, List.not_mem_nil, or_false] at hmark
    rcases hmark with rfl | rfl
    · exact leadingSigns_alphanum rfl _
    · exact leadingSigns_alphanum rfl _

/-- **The text of an integer** is a sign or none and digits only. -/
theorem isIntegerText_of_denotes {text : List Char} {v : Int} (h : DenotesInteger text v) :
    IsIntegerText text ∧ leadingSigns text ≤ 1 := by
  obtain ⟨negative, body, n, hsplit, hbody, -⟩ := denotesInteger_iff.1 h
  obtain ⟨form, hform, digits, hdigits, hall⟩ := exists_form_of_denotesMagnitude hbody
  have hnone := leadingSigns_of_denotesMagnitude hbody
  obtain ⟨rest, rfl, hrest⟩ | ⟨rest, rfl, hrest⟩ | ⟨-, hrest⟩ := splitSign_cases text
  · cases hsplit.symm.trans hrest
    refine ⟨⟨['-'], by simp, form, hform, digits, congrArg ('-' :: ·) hdigits, hall⟩, ?_⟩
    rw [leadingSigns_sign rfl, hnone]
  · cases hsplit.symm.trans hrest
    refine ⟨⟨['+'], by simp, form, hform, digits, congrArg ('+' :: ·) hdigits, hall⟩, ?_⟩
    rw [leadingSigns_sign rfl, hnone]
  · cases hsplit.symm.trans hrest
    refine ⟨⟨[], by simp, form, hform, digits, hdigits, hall⟩, ?_⟩
    rw [hnone]
    exact Nat.zero_le 1

/-! ## Floats with one sign -/

variable {f : FloatFormat} {body : List Char}

/-- A decimal number has no sign in front. -/
theorem leadingSigns_of_denotesDecimal {q : ℚ} (h : DenotesDecimal body q) :
    leadingSigns body = 0 := by
  obtain ⟨whole, point, fraction, tail, x, e, rfl, hpoint, ⟨ws, fs, hws, hfs, hne, -⟩, -⟩ := h
  cases hws with
  | cons hd => exact leadingSigns_digit (by decide) hd _
  | nil =>
      -- without digits before the point there are some after it
      cases hfs with
      | nil => exact absurd rfl hne
      | cons hd =>
          rcases hpoint with rfl | ⟨-, hfraction⟩
          · exact (leadingSigns_point _).trans (leadingSigns_digit (by decide) hd _)
          · cases hfraction

/-- The body of a float has no sign in front. -/
theorem leadingSigns_of_bodyPattern [HexReader] {negative : Bool} {n : Nat}
    (h : BodyPattern f body negative n) : leadingSigns body = 0 := by
  cases h with
  | infinity hbody =>
      subst hbody
      rfl
  | quiet hbody =>
      subst hbody
      rfl
  | payload hplus hp =>
      obtain ⟨digits, rfl, -⟩ := hp
      exact leadingSigns_alphanum rfl _
  | decimal hq hrounding hn => exact leadingSigns_of_denotesDecimal hq
  | hexadecimal hvalue hn =>
      obtain ⟨cs, rfl⟩ := hvalue.1.first
      exact leadingSigns_alphanum rfl cs

/-! ## Floats with two signs -/

/-- After two signs, only a finite number is read, and the signs multiply.
-/
theorem float_sign_sign [HexReader] {s s' : Char} (hs : isSign s = true) (hs' : isSign s' = true) :
    float f (s :: s' :: body) =
      (finiteBits f (s' :: body)).map fun r => f.withSign ((s == '-') != r.1) r.2 := by
  have hbody : s' :: body ≠ "inf".toList ∧ s' :: body ≠ "nan".toList ∧
      "nan:0x".toList.isPrefixOf (s' :: body) = false := by
    rcases isSign_iff.1 hs' with rfl | rfl
    · exact ⟨by rintro ⟨⟩, by rintro ⟨⟩, rfl⟩
    · exact ⟨by rintro ⟨⟩, by rintro ⟨⟩, rfl⟩
  have hsplit : splitSign (s :: s' :: body) = (s == '-', s' :: body) := by
    rcases isSign_iff.1 hs with rfl | rfl <;> rfl
  obtain ⟨hinf, hnan, hpayload⟩ := hbody
  simp only [float, hsplit, if_neg hinf, if_neg hnan, hpayload]
  cases finiteBits f (s' :: body) with
  | error fault => rfl
  | ok r => rfl

/-- A body with a sign is no hexadecimal number, so it is read as a decimal
one. -/
theorem finiteBits_sign [HexReader] {s : Char} (hs : isSign s = true) :
    finiteBits f (s :: body) = (do
      let r ← decimalBits f (s :: body)
      if r.2 < f.infinity then return r else throw .outOfRange) := by
  have hmark : afterHexMark? (s :: body) = none := by
    rcases isSign_iff.1 hs with rfl | rfl <;> rfl
  simp only [finiteBits, hmark, Option.isSome_none, Bool.false_eq_true, if_false]

/-- One sign is read with a decimal number. -/
theorem decimalBits_sign {s : Char} (hs : isSign s = true) (hword : ¬ IsInfinityWord body) :
    decimalBits f (s :: body) = (decimal? body).elim (.error .invalid)
      fun p => .ok (s == '-', f.nearestScaled 10 p.1 p.2) := by
  have hsplit : splitSign (s :: body) = (s == '-', body) := by
    rcases isSign_iff.1 hs with rfl | rfl <;> rfl
  unfold IsInfinityWord at hword
  simp only [decimalBits, hsplit, if_neg hword]
  cases decimal? body with
  | none => rfl
  | some p => rfl

/-- **A second sign is read with a decimal number**, and with nothing else. -/
theorem finiteBits_sign_eq_ok [HexReader] (hf : f.Usual) {s : Char} (hs : isSign s = true) :
    (∃ r, finiteBits f (s :: body) = .ok r) ↔ ∃ q, DenotesDecimal body q ∧ q < f.overflow := by
  have hrounds : ∀ (m : Nat) (e : Int),
      f.nearestScaled 10 m e < f.infinity ↔ (m * 10 ^ e : ℚ) < f.overflow := by
    intro m e
    have hrounding : f.IsRounding (m * 10 ^ e) (f.nearestScaled 10 m e) := by
      exact_mod_cast FloatFormat.isRounding_nearestScaled hf (by norm_num) m e
    exact hrounding.lt_infinity_iff hf
  rw [finiteBits_sign hs]
  by_cases hword : IsInfinityWord body
  · have hnone : ∀ q, ¬ DenotesDecimal body q := fun q hq =>
      hword.not_number.1 q hq
    have hout : decimalBits f (s :: body) = .error .outOfRange := by
      have hsplit : splitSign (s :: body) = (s == '-', body) := by
        rcases isSign_iff.1 hs with rfl | rfl <;> rfl
      unfold IsInfinityWord at hword
      simp only [decimalBits, hsplit, if_pos hword]
    rw [hout]
    constructor
    · rintro ⟨r, hr⟩
      cases hr
    · rintro ⟨q, hq, -⟩
      exact absurd hq (hnone q)
  · rw [decimalBits_sign hs hword]
    constructor
    · rintro ⟨r, hr⟩
      obtain ⟨r', hdecimal, hr⟩ := bind_eq_ok.1 hr
      cases hread : decimal? body with
      | none =>
          rw [hread] at hdecimal
          cases hdecimal
      | some p =>
          rw [hread] at hdecimal
          obtain rfl := Except.ok.inj hdecimal
          split at hr
          next hlt =>
            exact ⟨_, decimal?_iff.2 ⟨p.1, p.2, hread, rfl⟩, (hrounds p.1 p.2).1 hlt⟩
          next => exact absurd hr throw_ne_ok
    · rintro ⟨q, hq, hlt⟩
      obtain ⟨m, e, hread, rfl⟩ := decimal?_iff.1 hq
      rw [hread]
      exact ⟨(s == '-', f.nearestScaled 10 m e),
        bind_eq_ok.2 ⟨_, rfl, if_pos ((hrounds m e).2 hlt)⟩⟩

/-! ## How readers treat signs -/

/-- How a reader of floats of a format treats the signs of a text. If it
accepts the text, there is at most one before the first digit or letter, or
there are two before a decimal number. With two it accepts decimal numbers
in range and nothing else, and as a payload hexadecimal digits in range,
after a plus or none. -/
structure TreatsSigns (f : FloatFormat) (text : String) (result : Except CompileError Nat) :
    Prop where
  few : ∀ bits, result = .ok bits → leadingSigns text.toList ≤ 1 ∨
    leadingSigns text.toList = 2 ∧ ∃ s s' body q, text.toList = s :: s' :: body ∧
      isSign s = true ∧ isSign s' = true ∧ DenotesDecimal body q
  twice : ∀ s s' body, text.toList = s :: s' :: body → isSign s = true → isSign s' = true →
    ((∃ bits, result = .ok bits) ↔ ∃ q, DenotesDecimal body q ∧ q < f.overflow)
  payload : ∀ negative digits, IsSigned text.toList negative ("nan:0x".toList ++ digits) →
    ((∃ bits, result = .ok bits) ↔ ∃ plus spelled p,
      digits = StringLiteral.Piece.signedDigits plus spelled ∧ Spells 16 spelled p ∧ 1 ≤ p ∧
        p < 2 ^ f.precision)

variable {kind : LiteralKind} {text : String} {span : Span}

/-- Two signs are read before a decimal number in range, and before nothing
else. -/
theorem readFloat_twice [HexReader] (hf : f.Usual) {s s' : Char}
    (htext : text.toList = s :: s' :: body) (hs : isSign s = true) (hs' : isSign s' = true) :
    (∃ bits, readFloat kind f text span = .ok bits) ↔
      ∃ q, DenotesDecimal body q ∧ q < f.overflow := by
  rw [← finiteBits_sign_eq_ok hf hs']
  simp only [readFloat_eq_ok, htext, float_sign_sign hs hs']
  cases finiteBits f (s' :: body) with
  | error fault => simp [Except.map, Except.toOption]
  | ok r => simp [Except.map, Except.toOption]

theorem exists_signedDigits {digits : List Char} {p : Nat} :
    SpellsPlus 16 digits p ↔ ∃ plus spelled,
      digits = StringLiteral.Piece.signedDigits plus spelled ∧ Spells 16 spelled p := by
  rw [← plusDigits?_eq_some]
  constructor
  · exact StringLiteral.spells_of_plusDigits?
  · rintro ⟨plus, spelled, rfl, h⟩
    exact StringLiteral.plusDigits?_signedDigits plus h

/-- After its word a payload is all that is read. -/
theorem readFloat_payload_iff [HexReader] {negative : Bool} {digits : List Char}
    (h : IsSigned text.toList negative ("nan:0x".toList ++ digits)) :
    (∃ bits, readFloat kind f text span = .ok bits) ↔
      ∃ p, SpellsPlus 16 digits p ∧ 1 ≤ p ∧ p < 2 ^ f.precision := by
  have hspelled : (∃ p, SpellsPlus 16 digits p ∧ 1 ≤ p ∧ p < 2 ^ f.precision) ↔
      ∃ p, payload? f digits = some p := exists_congr fun _ => payload?_eq_some.symm
  rw [hspelled]
  simp only [readFloat_eq_ok, float_payload h]
  cases payload? f digits with
  | none => simp [Except.toOption]
  | some p => simp [Except.toOption]

/-- Every reader of floats treats signs the same way. -/
theorem treatsSigns_readFloat [HexReader] (hf : f.Usual) (kind : LiteralKind) (text : String)
    (span : Span) :
    TreatsSigns f text (readFloat kind f text span) where
  few bits hread := by
    have hnone : ∀ {negative body}, IsSigned text.toList negative body → leadingSigns body = 0 := by
      intro negative body h
      obtain ⟨_, _, -, -, hpattern⟩ := readFloat_cases h hf hread
      exact leadingSigns_of_bodyPattern hpattern
    rcases sign_cases text.toList with hunsigned | ⟨s, rest, htext, hs⟩
    · rw [hnone ⟨.inl ⟨rfl, rfl⟩, hunsigned⟩]
      exact .inl (Nat.zero_le 1)
    rcases sign_cases rest with hunsigned | ⟨s', body, rfl, hs'⟩
    · rw [htext, leadingSigns_sign hs, hnone (htext ▸ isSigned_of_sign hs hunsigned)]
      exact .inl (Nat.le_refl 1)
    · obtain ⟨q, hq, -⟩ := (readFloat_twice hf htext hs hs').1 ⟨bits, hread⟩
      refine .inr ⟨?_, s, s', body, q, htext, hs, hs', hq⟩
      rw [htext, leadingSigns_sign hs, leadingSigns_sign hs', leadingSigns_of_denotesDecimal hq]
  twice s s' body htext hs hs' := readFloat_twice hf htext hs hs'
  payload negative digits h := by
    rw [readFloat_payload_iff h]
    constructor
    · rintro ⟨p, hp, hpos, hlt⟩
      obtain ⟨plus, spelled, rfl, hspells⟩ := exists_signedDigits.1 hp
      exact ⟨plus, spelled, p, rfl, hspells, hpos, hlt⟩
    · rintro ⟨plus, spelled, p, rfl, hspells, hpos, hlt⟩
      exact ⟨p, exists_signedDigits.2 ⟨plus, spelled, rfl, hspells⟩, hpos, hlt⟩

end Literal

/-! ## Code points -/

namespace StringLiteral

/-- **A code point in braces** is read exactly if hexadecimal digits spell
it, after a plus or none. -/
theorem escape_codePoint_iff {cs : List Char} {bytes : List UInt8} {n : Nat} :
    escape ('u' :: cs) = .ok (bytes, n) ↔ ∃ plus digits c rest,
      cs = '{' :: (Piece.signedDigits plus digits ++ '}' :: rest) ∧ Spells 16 digits c.toNat ∧
        bytes = String.utf8EncodeChar c ∧ n = (Piece.signedDigits plus digits).length + 3 := by
  constructor
  · intro h
    obtain hnil | ⟨p, rest, hpiece⟩ | ⟨fault, -, hfault⟩ := escape_cases ('u' :: cs)
    · cases hnil
    · cases p with
      | plain c hquote hescape =>
          cases hpiece
          exact absurd rfl hescape
      | mark c value hmark =>
          cases hpiece
          simp [marks] at hmark
      | byte first second high low hhigh =>
          cases hpiece
          exact absurd rfl (ne_of_isDigit hhigh rfl)
      | codePoint plus digits c hdigits =>
          have hcs : cs = '{' :: (Piece.signedDigits plus digits ++ '}' :: rest) := by
            simpa [Piece.text] using hpiece
          rw [hcs, escape_codePoint plus hdigits rest] at h
          obtain ⟨rfl, rfl⟩ := Prod.mk.inj (Except.ok.inj h)
          exact ⟨plus, digits, c, rest, hcs, hdigits, rfl, rfl⟩
    · rw [hfault] at h
      cases h
  · rintro ⟨plus, digits, c, rest, rfl, hdigits, rfl, rfl⟩
    exact escape_codePoint plus hdigits rest

end StringLiteral

open Literal StringLiteral

/-- **Digit sequences are digits, up to a plus before them.** A text that is
read as an integer, as a number or as a word, is a sign or none and digits
of its radix only. A reader of floats takes a second sign before a decimal
number alone, and one plus before the digits of a payload (`TreatsSigns`). A
text after the letter of an escape is a code point in braces exactly if
hexadecimal digits spell it, after a plus or none. -/
theorem digits_and_signs [HexReader] (text : String) (span : Span) :
    (∀ n, readNatural text span = .ok n →
      IsIntegerText text.toList ∧ leadingSigns text.toList ≤ 1) ∧
    (∀ r ∈ wordReaders, ∀ w, r.2 text span = .ok w →
      IsIntegerText text.toList ∧ leadingSigns text.toList ≤ 1) ∧
    (∀ r ∈ floatReaders, TreatsSigns r.1 text (r.2 text span)) ∧
    ∀ bytes n, escape ('u' :: text.toList) = .ok (bytes, n) ↔ ∃ plus digits c rest,
      text.toList = '{' :: (Piece.signedDigits plus digits ++ '}' :: rest) ∧
        Spells 16 digits c.toNat ∧ bytes = String.utf8EncodeChar c ∧
        n = (Piece.signedDigits plus digits).length + 3 := by
  refine ⟨fun n h => ?_, fun r hr w h => ?_, fun r hr => ?_, fun bytes n => escape_codePoint_iff⟩
  · have hdenotes := (natural?_eq_some.1 (readNatural_eq_ok.1 h)).1
    exact isIntegerText_of_denotes (.inl ⟨n, hdenotes, rfl⟩)
  · obtain ⟨v, hv, -⟩ := denotesInteger_of_wordReaders hr h
    exact isIntegerText_of_denotes hv
  · obtain ⟨hf, kind, hread⟩ := exists_of_floatReaders hr
    rw [hread]
    exact treatsSigns_readFloat hf kind text span

theorem digits_and_signs_read :
    readI32 "-0x1F" .zero = .ok (-31) ∧ IsIntegerText "-0x1F".toList ∧
      readF64 "+-.5" .zero = .ok 0xBFE0000000000000 ∧ leadingSigns "+-.5".toList = 2 ∧
      ∃ q, DenotesDecimal ".5".toList q ∧ q < FloatFormat.double.overflow := by
  have hword : readI32 "-0x1F" .zero = .ok (-31) := by decide +kernel
  have hfloat : readF64 "+-.5" .zero = .ok 0xBFE0000000000000 := by decide +kernel
  obtain ⟨-, hwords, -⟩ := digits_and_signs "-0x1F" .zero
  obtain ⟨-, -, hfloats, -⟩ := digits_and_signs "+-.5" .zero
  obtain ⟨hinteger, -⟩ := hwords (32, readI32) List.mem_cons_self (-31) hword
  have hdouble := hfloats (.double, readF64) (List.mem_cons_of_mem _ List.mem_cons_self)
  dsimp only at hdouble
  exact ⟨hword, hinteger, hfloat, by decide,
    (hdouble.twice '+' '-' ".5".toList rfl rfl rfl).1 ⟨_, hfloat⟩⟩

/-- A plus before the digits of a payload, a second sign before a number,
and a plus before the digits of a code point. -/
theorem plus_before_digits :
    readF32 "nan:0x+1" .zero = .ok 0x7F800001 ∧ digit? 16 '+' = none ∧
      readF32 "--1.5" .zero = .ok 0x3FC00000 ∧ leadingSigns "--1.5".toList = 2 ∧
      escape ['u', '{', '+', '4', '1', '}'] = .ok ([0x41], 6) := by
  decide +kernel

end WasmText
