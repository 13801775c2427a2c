import WasmText.Proofs.Literal.Signs
import WasmText.Proofs.Tree.Heads
/-!
# Digit separators

A tree holds numbers without their separators. Taken out of a token, these
leave a text of the same class, so that a decimal number is read as one.
The exception are separators inside the mark of hexadecimal digits: such a
token is a decimal number to the lexer, and what is left of it is
hexadecimal (`separators_taken_out`, `split_mark_read`).
-/

namespace WasmText

open Literal

/-! ## Numbers as the lexer sees them -/

namespace Lexer

/-- Whether a word for a number may start with a character. -/
def StartsNumeral (c : Char) : Prop := c.isDigit = true ∨ c = 'i' ∨ c = 'n'

theorem exists_mark_of_startsHex {body : List Char} (h : startsHex body = true) :
    ∃ digits, body = "0x".toList ++ digits ∨ body = "0X".toList ++ digits ∨
      body = "nan:0x".toList ++ digits := by
  simp only [startsHex, Bool.or_eq_true, List.isPrefixOf_iff_prefix] at h
  rcases h with (⟨digits, rfl⟩ | ⟨digits, rfl⟩) | ⟨digits, rfl⟩
  · exact ⟨digits, .inl rfl⟩
  · exact ⟨digits, .inr (.inl rfl)⟩
  · exact ⟨digits, .inr (.inr rfl)⟩

theorem exists_of_startsHex {body : List Char} (h : startsHex body = true) :
    ∃ c rest, body = c :: rest ∧ StartsNumeral c := by
  obtain ⟨digits, rfl | rfl | rfl⟩ := exists_mark_of_startsHex h
  · exact ⟨'0', _, rfl, .inl rfl⟩
  · exact ⟨'0', _, rfl, .inl rfl⟩
  · exact ⟨'n', _, rfl, .inr (.inr rfl)⟩

theorem startsNumber_iff {body : List Char} :
    startsNumber body = true ↔
      (∃ c rest, body = c :: rest ∧ c.isDigit = true) ∨ body = "inf".toList ∨ body = "nan".toList := by
  rw [startsNumber, Bool.or_eq_true, Bool.or_eq_true, beq_iff_eq, beq_iff_eq, or_assoc]
  refine or_congr_left ?_
  cases body with
  | nil => simp
  | cons c rest => simp

theorem exists_of_startsNumber {body : List Char} (h : startsNumber body = true) :
    ∃ c rest, body = c :: rest ∧ StartsNumeral c := by
  rcases startsNumber_iff.1 h with ⟨c, rest, rfl, hc⟩ | rfl | rfl
  · exact ⟨c, rest, rfl, .inl hc⟩
  · exact ⟨'i', _, rfl, .inr (.inl rfl)⟩
  · exact ⟨'n', _, rfl, .inr (.inr rfl)⟩

theorem StartsNumeral.ne {c d : Char} (h : StartsNumeral c) (hdigit : d.isDigit = false)
    (hi : d ≠ 'i') (hn : d ≠ 'n') : c ≠ d := by
  rintro rfl
  rcases h with h | h | h
  · rw [h] at hdigit
    cases hdigit
  · exact hi h
  · exact hn h

theorem StartsNumeral.isUnsigned {c : Char} (h : StartsNumeral c) (rest : List Char) :
    IsUnsigned (c :: rest) := by
  intro d hd
  obtain rfl := Option.some.inj hd
  exact ⟨h.ne rfl (by decide) (by decide), h.ne rfl (by decide) (by decide)⟩

theorem dropSign_of_isSigned {text body : List Char} {negative : Bool}
    (h : IsSigned text negative body) : (dropSign text).1 = body := by
  obtain ⟨⟨rfl, -⟩ | ⟨rfl, -⟩ | ⟨rfl, -⟩, hbody⟩ := h
  · unfold dropSign
    split
    · exact absurd rfl (hbody '+' rfl).1
    · exact absurd rfl (hbody '-' rfl).2
    · rfl
  · rfl
  · rfl

/-- The class of a number goes by what follows its sign. -/
theorem atomKind_eq_hex {text body : List Char} {negative : Bool} (h : IsSigned text negative body)
    (hhex : startsHex body = true) : atomKind text = .hex := by
  rw [atomKind]
  simp [dropSign_of_isSigned h, hhex]

theorem atomKind_eq_number {text body : List Char} {negative : Bool}
    (h : IsSigned text negative body) (hhex : startsHex body = false)
    (hnumber : startsNumber body = true) : atomKind text = .number := by
  rw [atomKind]
  simp [dropSign_of_isSigned h, hhex, hnumber]

theorem exists_sign (text : List Char) :
    ∃ negative, text = (dropSign text).1 ∧ negative = false ∨
      text = '+' :: (dropSign text).1 ∧ negative = false ∨
      text = '-' :: (dropSign text).1 ∧ negative = true := by
  unfold dropSign
  split
  · exact ⟨false, .inr (.inl ⟨rfl, rfl⟩)⟩
  · exact ⟨true, .inr (.inr ⟨rfl, rfl⟩)⟩
  · exact ⟨false, .inl ⟨rfl, rfl⟩⟩

/-- **What the lexer takes for a number** is a sign or none and a body that
starts like one. -/
theorem exists_of_atomKind {text : List Char} (h : atomKind text = .number ∨ atomKind text = .hex) :
    ∃ negative c rest, IsSigned text negative (c :: rest) ∧ StartsNumeral c ∧
      (atomKind text = .hex ∧ startsHex (c :: rest) = true ∨
        atomKind text = .number ∧ startsHex (c :: rest) = false ∧
          startsNumber (c :: rest) = true) := by
  obtain ⟨negative, hsign⟩ := exists_sign text
  have hkind : atomKind text = .hex ∧ startsHex (dropSign text).1 = true ∨
      atomKind text = .number ∧ startsHex (dropSign text).1 = false ∧
        startsNumber (dropSign text).1 = true := by
    rw [atomKind] at h ⊢
    dsimp only at h ⊢
    split_ifs at h ⊢ with hhex hnumber hword
    · simp [hhex]
    · simp [hhex, hnumber]
    · simp at h
    · simp at h
  have hbody : ∃ c rest, (dropSign text).1 = c :: rest ∧ StartsNumeral c := by
    rcases hkind with ⟨-, hhex⟩ | ⟨-, -, hnumber⟩
    · exact exists_of_startsHex hhex
    · exact exists_of_startsNumber hnumber
  obtain ⟨c, rest, hbody, hc⟩ := hbody
  rw [hbody] at hsign hkind
  exact ⟨negative, c, rest, ⟨hsign, hc.isUnsigned rest⟩, hc, hkind⟩

end Lexer

/-- A number is one token, of the class of its word. -/
theorem Token.lexesAs_numeral {text : List Char} {negative : Bool} {c : Char} {rest : List Char}
    (h : IsSigned text negative (c :: rest)) (hc : Lexer.StartsNumeral c)
    (hword : ∀ d ∈ text, isIdentifier d = true) :
    LexesAs (Lexer.atomKind text) (String.ofList text) := by
  -- the first character is a sign or starts the number, and no keyword starts with either
  have hfirst : ∃ d ds, text = d :: ds ∧ d ≠ '$' ∧ d ≠ '=' ∧
      ∀ key : Keyword, key.word.toList.head? ≠ some d := by
    have hkeys : ∀ d, d ≠ 'o' → d ≠ 'a' → d ≠ 's' → d ≠ 'f' →
        ∀ key : Keyword, key.word.toList.head? ≠ some d := by
      rintro d ho ha hs hf key hkey
      cases key
      · exact ho (Option.some.inj hkey).symm
      · exact ha (Option.some.inj hkey).symm
      · exact hs (Option.some.inj hkey).symm
      · exact hf (Option.some.inj hkey).symm
    have hne : ∀ {d : Char}, d.isDigit = false → d ≠ 'i' → d ≠ 'n' → c ≠ d := hc.ne
    obtain ⟨⟨rfl, -⟩ | ⟨rfl, -⟩ | ⟨rfl, -⟩, -⟩ := h
    · refine ⟨c, rest, rfl, hne rfl ?_ ?_, hne rfl ?_ ?_, hkeys c (hne rfl ?_ ?_) (hne rfl ?_ ?_)
        (hne rfl ?_ ?_) (hne rfl ?_ ?_)⟩
      all_goals decide
    · exact ⟨'+', _, rfl, by decide, by decide, hkeys '+' (by decide) (by decide) (by decide)
        (by decide)⟩
    · exact ⟨'-', _, rfl, by decide, by decide, hkeys '-' (by decide) (by decide) (by decide)
        (by decide)⟩
  obtain ⟨d, ds, rfl, hsign, hequals, hkeys⟩ := hfirst
  refine lexesAs_atom hword hsign (Option.eq_none_iff_forall_ne_some.2 fun n hn => ?_)
  obtain ⟨key, hkey⟩ := exists_keyword hn
  refine hkeys key ?_
  rw [← hkey, List.takeWhile_cons, if_pos (bne_iff_ne.2 hequals)]
  rfl

/-! ## Taking separators out -/

/-- Whether a text starts with the letter of a mark. -/
def startsMark (text : List Char) : Bool := text.head?.any fun c => c == 'x' || c == 'X'

/-- Whether separators stand inside the mark of hexadecimal digits, between
its zero and its letter. -/
def splitsMark (text : List Char) : Bool :=
  let body := (splitSign text).2
  body.head? == some '0' && body.tail.head? == some '_' &&
    startsMark (body.tail.dropWhile (· == '_'))

theorem head?_filter_separator (text : List Char) :
    (text.filter (· != '_')).head? = (text.dropWhile (· == '_')).head? := by
  induction text with
  | nil => rfl
  | cons c rest ih =>
      by_cases hc : c = '_'
      · subst hc
        exact ih
      · simp [hc]

/-- A digit starts a hexadecimal number if it is zero and the letter of a
mark follows it. -/
theorem Lexer.startsHex_digit {c : Char} (hc : c.isDigit = true) (rest : List Char) :
    startsHex (c :: rest) = (c == '0' && startsMark rest) := by
  have hn : 'n' ≠ c := by
    rintro rfl
    cases hc
  by_cases hzero : c = '0'
  · subst hzero
    cases rest with
    | nil => rfl
    | cons d rest =>
        simp [startsHex, startsMark, List.isPrefixOf, BEq.comm]
  · simp [startsHex, List.isPrefixOf, beq_eq_false_iff_ne.2 hzero,
      beq_eq_false_iff_ne.2 (Ne.symm hzero), beq_eq_false_iff_ne.2 hn]

section

variable {text : List Char} {negative : Bool} {c : Char} {rest : List Char}

theorem isSigned_filter (h : IsSigned text negative (c :: rest)) (hc : Lexer.StartsNumeral c) :
    IsSigned (text.filter (· != '_')) negative (c :: rest.filter (· != '_')) := by
  have hkept : (c :: rest).filter (· != '_') = c :: rest.filter (· != '_') := by
    have hne : c ≠ '_' := hc.ne rfl (by decide) (by decide)
    simp [hne]
  refine ⟨?_, hc.isUnsigned _⟩
  obtain ⟨⟨rfl, hnegative⟩ | ⟨rfl, hnegative⟩ | ⟨rfl, hnegative⟩, -⟩ := h
  · exact .inl ⟨hkept, hnegative⟩
  · exact .inr (.inl ⟨congrArg ('+' :: ·) hkept, hnegative⟩)
  · exact .inr (.inr ⟨congrArg ('-' :: ·) hkept, hnegative⟩)

theorem splitsMark_of_isSigned (h : IsSigned text negative (c :: rest)) :
    splitsMark text =
      (c == '0' && rest.head? == some '_' && startsMark (rest.dropWhile (· == '_'))) := by
  rw [splitsMark, h.splitSign_eq]
  rfl

/-- **Separators make a hexadecimal number of a decimal one** exactly if
they stand inside a mark. -/
theorem startsHex_filter (h : IsSigned text negative (c :: rest)) (hc : c.isDigit = true)
    (hhex : Lexer.startsHex (c :: rest) = false) :
    Lexer.startsHex (c :: rest.filter (· != '_')) = splitsMark text := by
  have hmark : startsMark (rest.filter (· != '_')) = startsMark (rest.dropWhile (· == '_')) :=
    congrArg (Option.any _) (head?_filter_separator rest)
  rw [Lexer.startsHex_digit hc] at hhex ⊢
  rw [splitsMark_of_isSigned h, hmark, Bool.and_assoc]
  cases hzero : c == '0' with
  | false => rfl
  | true =>
      rw [hzero, Bool.true_and] at hhex
      rw [Bool.true_and, Bool.true_and]
      by_cases hsplit : rest.head? = some '_'
      · rw [hsplit, beq_self_eq_true, Bool.true_and]
      · -- without a separator there is no letter of a mark either
        have hsame : rest.dropWhile (· == '_') = rest := by
          cases rest with
          | nil => rfl
          | cons d rest => exact List.dropWhile_cons_of_neg (by simpa using hsplit)
        rw [hsame, hhex, Bool.and_false]

/-- The class of a decimal number without its separators. -/
theorem atomKind_filter_number (h : IsSigned text negative (c :: rest)) (hc : Lexer.StartsNumeral c)
    (hhex : Lexer.startsHex (c :: rest) = false) (hnumber : Lexer.startsNumber (c :: rest) = true) :
    Lexer.startsHex (c :: rest.filter (· != '_')) = splitsMark text ∧
      Lexer.atomKind (text.filter (· != '_')) = if splitsMark text then .hex else .number := by
  have hsigned := isSigned_filter h hc
  have hstarts : Lexer.startsHex (c :: rest.filter (· != '_')) = splitsMark text ∧
      Lexer.startsNumber (c :: rest.filter (· != '_')) = true := by
    rcases Lexer.startsNumber_iff.1 hnumber with ⟨d, rest', hbody, hd⟩ | hbody | hbody
    · cases hbody
      exact ⟨startsHex_filter h hd hhex, Lexer.startsNumber_iff.2 (.inl ⟨c, _, rfl, hd⟩)⟩
    · cases hbody
      rw [splitsMark_of_isSigned h]
      exact ⟨rfl, rfl⟩
    · cases hbody
      rw [splitsMark_of_isSigned h]
      exact ⟨rfl, rfl⟩
  refine ⟨hstarts.1, ?_⟩
  cases hsplit : splitsMark text with
  | true => exact Lexer.atomKind_eq_hex hsigned (hstarts.1.trans hsplit)
  | false => exact Lexer.atomKind_eq_number hsigned (hstarts.1.trans hsplit) hstarts.2

/-- A hexadecimal number stays one. -/
theorem atomKind_filter_hex (h : IsSigned text negative (c :: rest)) (hc : Lexer.StartsNumeral c)
    (hhex : Lexer.startsHex (c :: rest) = true) :
    splitsMark text = false ∧ Lexer.atomKind (text.filter (· != '_')) = .hex := by
  have hsigned := isSigned_filter h hc
  rw [splitsMark_of_isSigned h]
  obtain ⟨digits, hbody | hbody | hbody⟩ := Lexer.exists_mark_of_startsHex hhex
  all_goals
    cases hbody
    exact ⟨rfl, Lexer.atomKind_eq_hex hsigned rfl⟩

end

/-! ## How a text is read -/

namespace Literal

/-- That every reader that accepts a text takes it for a sign, or none, and
a body: an integer of some kind, or a pattern of some kind. -/
structure ReadAs [HexReader] (integer : List Char → Nat → Prop)
    (pattern : FloatFormat → Bool → List Char → Nat → Prop) (text : String) : Prop where
  natural : ∀ span n, readNatural text span = .ok n →
    ∃ body, IsSigned text.toList false body ∧ integer body n
  word : ∀ r ∈ wordReaders, ∀ span w, r.2 text span = .ok w →
    ∃ negative body n, IsSigned text.toList negative body ∧ integer body n ∧
      Wraps r.1 (if negative then -(n : Int) else n) w
  float : ∀ r ∈ floatReaders, ∀ span bits, r.2 text span = .ok bits →
    ∃ negative body, IsSigned text.toList negative body ∧ pattern r.1 negative body bits

/-- The pattern of a word for a special value, or one that a decimal number
is rounded to, with the sign. -/
def DecimalPattern (f : FloatFormat) (negative : Bool) (body : List Char) (bits : Nat) : Prop :=
  ∃ n, bits = f.withSign negative n ∧
    (body = "inf".toList ∧ n = f.infinity ∨ body = "nan".toList ∧ n = f.canonicalNaN ∨
      ∃ q, DenotesDecimal body q ∧ f.IsRounding q n)

/-- Digits after a mark, and the number that they denote. -/
def MarkedInteger (body : List Char) (n : Nat) : Prop :=
  ∃ mark ∈ ["0x".toList, "0X".toList], ∃ digits, body = mark ++ digits ∧ Spells 16 digits n

/-- The finite value that the reader of hexadecimal numbers finds, with the
sign. -/
def MarkedPattern [HexReader] (f : FloatFormat) (negative : Bool) (body : List Char)
    (bits : Nat) : Prop :=
  ∃ negative' n, IsHexValue f body negative' n ∧ n < f.infinity ∧
    bits = f.withSign (negative != negative') n

/-- That a text is read as decimal, if at all. -/
def ReadInDecimal [HexReader] (text : String) : Prop := ReadAs (Spells 10) DecimalPattern text

/-- That a text is read as hexadecimal, if at all. -/
def ReadInHexadecimal [HexReader] (text : String) : Prop :=
  ReadAs MarkedInteger MarkedPattern text

variable [HexReader] {text : String} {negative : Bool} {body : List Char}

/-- What readers make of a text with a known sign and body. -/
theorem readAs_of_isSigned {integer : List Char → Nat → Prop}
    {pattern : FloatFormat → Bool → List Char → Nat → Prop}
    (h : IsSigned text.toList negative body)
    (hinteger : ∀ n, DenotesMagnitude body n → integer body n)
    (hpattern : ∀ f negative' n, BodyPattern f body negative' n →
      pattern f negative body (f.withSign (negative != negative') n)) :
    ReadAs integer pattern text where
  natural span n hread := by
    obtain ⟨body', hsplit, hn⟩ := denotesNatural_iff.1 (natural?_eq_some.1 (readNatural_eq_ok.1 hread)).1
    cases h.splitSign_eq.symm.trans hsplit
    exact ⟨body, h, hinteger n hn⟩
  word r hr span w hread := by
    obtain ⟨v, hv, hwraps⟩ := denotesInteger_of_wordReaders hr hread
    obtain ⟨negative', body', n, hsplit, hn, rfl⟩ := denotesInteger_iff.1 hv
    cases h.splitSign_eq.symm.trans hsplit
    exact ⟨negative, body, n, h, hinteger n hn, hwraps⟩
  float r hr span bits hread := by
    obtain ⟨hf, kind, hreader⟩ := exists_of_floatReaders hr
    rw [hreader] at hread
    obtain ⟨negative', n, -, rfl, hclass⟩ := readFloat_cases h hf hread
    exact ⟨negative, body, h, hpattern r.1 negative' n hclass⟩

/-- **Without a mark a number is read as decimal.** -/
theorem readInDecimal_of_isSigned (h : IsSigned text.toList negative body)
    (hhex : Lexer.startsHex body = false) : ReadInDecimal text := by
  have hnone : ∀ mark ∈ ["0x".toList, "0X".toList], ∀ digits, body ≠ mark ++ digits := by
    rintro mark hmark digits rfl
    simp only [List.mem_cons, List.not_mem_nil, or_false] at hmark
    rcases hmark with rfl | rfl <;> cases hhex
  have hkept : (negative != false) = negative := Bool.bne_false negative
  refine readAs_of_isSigned h (fun n hn => ?_) fun f negative' n hclass => ?_
  · rcases hn with hn | ⟨mark, hmark, digits, hbody, -⟩
    · exact hn
    · exact absurd hbody (hnone mark hmark digits)
  · cases hclass with
    | infinity hbody => exact ⟨_, congrArg (f.withSign · _) hkept, .inl ⟨hbody, rfl⟩⟩
    | quiet hbody => exact ⟨_, congrArg (f.withSign · _) hkept, .inr (.inl ⟨hbody, rfl⟩)⟩
    | payload hplus hp =>
        obtain ⟨digits, rfl, -⟩ := hp
        cases hhex
    | decimal hq hrounding hn =>
        exact ⟨n, congrArg (f.withSign · n) hkept, .inr (.inr ⟨_, hq, hrounding⟩)⟩
    | hexadecimal hvalue hn =>
        obtain ⟨mark, hmark, digits, hbody⟩ := hvalue.1
        exact absurd hbody (hnone mark hmark digits)

omit [HexReader] in
theorem exists_afterHexMark {rest : List Char} (h : Lexer.startsHex ('0' :: rest) = true) :
    ∃ digits, afterHexMark? ('0' :: rest) = some digits := by
  obtain ⟨digits, hbody | hbody | hbody⟩ := Lexer.exists_mark_of_startsHex h
  all_goals cases hbody
  · exact ⟨digits, rfl⟩
  · exact ⟨digits, rfl⟩

/-- **After a mark a number is read as hexadecimal.** -/
theorem readInHexadecimal_of_isSigned (h : IsSigned text.toList negative body)
    (hmark : ∃ digits, afterHexMark? body = some digits) : ReadInHexadecimal text := by
  obtain ⟨digits, hmark⟩ := hmark
  obtain ⟨mark, hmem, rfl⟩ := afterHexMark?_eq_some.1 hmark
  have hhex : IsHexadecimal (mark ++ digits) := ⟨mark, hmem, digits, rfl⟩
  obtain ⟨cs, hfirst⟩ := hhex.first
  refine readAs_of_isSigned h (fun n hn => ?_) fun f negative' n hclass => ?_
  · rw [← magnitude?_eq_some, magnitude?, hmark] at hn
    exact ⟨mark, hmem, digits, rfl, digits?_eq_some.1 hn⟩
  · cases hclass with
    | infinity hbody => cases hfirst.symm.trans hbody
    | quiet hbody => cases hfirst.symm.trans hbody
    | payload hplus hp =>
        obtain ⟨payload, hbody, -⟩ := hp
        cases hfirst.symm.trans hbody
    | decimal hq hrounding hn => exact absurd hq hhex.not_denotesDecimal
    | hexadecimal hvalue hn => exact ⟨negative', n, hvalue, hn, rfl⟩

end Literal

/-! ## Numbers of a tree -/

namespace Token

/-- Whether a text is one token, of the given class and with that text. -/
def IsAlone (kind : Kind) (text : String) : Prop :=
  (scan text).map (fun t => (t.kind, t.text)) = [(kind, text), (.eof, "")]

theorem LexesAs.isAlone {kind : Kind} {text : String} (h : LexesAs kind text) :
    IsAlone kind text := by
  have htexts := Lexer.texts_tokensFrom .start text.toList
  rw [LexesAs, scan, List.map_append] at h
  obtain ⟨t, ht, rfl⟩ := List.map_eq_singleton_iff.1 (List.append_inj_left' h rfl)
  rw [ht, List.flatMap_singleton, String.toList_inj] at htexts
  rw [IsAlone, scan, ht, ← htexts]
  rfl

/-- The tokens of numbers are words of a class of their own. -/
theorem eq_atomKind {source : String} {t : Token} (h : t ∈ scan source)
    (hkind : t.kind = .number ∨ t.kind = .hex) :
    t.kind = Lexer.atomKind t.text.toList ∧ ∀ c ∈ t.text.toList, isIdentifier c = true := by
  have hmem : t ∈ Lexer.tokensFrom .start source.toList := by
    refine (List.mem_append.1 h).resolve_right fun hend => ?_
    obtain rfl := List.mem_singleton.1 hend
    rcases hkind with hkind | hkind <;> cases hkind
  have htrivia : t.kind.isTrivia = false := by rcases hkind with hkind | hkind <;> rw [hkind] <;> rfl
  have hvalid : t.kind ≠ .invalid := by rcases hkind with hkind | hkind <;> rw [hkind] <;> decide
  obtain ⟨-, -, c, cs, htext, hcut⟩ := isWord_of_mem hmem htrivia hvalid
  rw [htext, String.toList_ofList]
  generalize t.kind = kind at hcut hkind ⊢
  generalize hlength : cs.length = length at hcut
  cases hcut with
  | atom hc =>
      have hrun : cs.takeWhile isIdentifier = cs :=
        (List.takeWhile_prefix _).eq_of_length hlength.symm
      rw [hrun]
      exact ⟨rfl, List.forall_mem_cons.2 ⟨hc, List.takeWhile_eq_self_iff.1 hrun⟩⟩
  | whitespace | line | block | unclosedBlock | leftParen | rightParen | string | unclosedString
  | bareSign | label | keyword | other =>
      rcases hkind with hkind | hkind <;> cases hkind

/-- What a tree keeps of a number: its text without separators. This is a
token of the same class, and a decimal number is read as one. Separators
inside a mark are the exception: they hide from the lexer that the number is
hexadecimal. -/
structure Keeps [HexReader] (t : Token) (text : String) : Prop where
  text_eq : text = Parser.dropSeparators t.text
  same : splitsMark t.text.toList = false →
    IsAlone t.kind text ∧ (t.kind = .number → ReadInDecimal text)
  split : splitsMark t.text.toList = true →
    t.kind = .number ∧ IsAlone .hex text ∧ ReadInHexadecimal text

/-- **Separators are taken out of a number.** -/
theorem keeps_dropSeparators [HexReader] {source : String} {t : Token} (h : t ∈ scan source)
    (hkind : t.kind = .number ∨ t.kind = .hex) : t.Keeps (Parser.dropSeparators t.text) := by
  obtain ⟨hatom, hword⟩ := eq_atomKind h hkind
  rw [hatom] at hkind
  obtain ⟨negative, c, rest, hsigned, hc, hclass⟩ := Lexer.exists_of_atomKind hkind
  have hplain := isSigned_filter hsigned hc
  have hlexes := (lexesAs_numeral hplain hc fun d hd => hword d (List.mem_of_mem_filter hd)).isAlone
  rcases hclass with ⟨hhex, hstarts⟩ | ⟨hnumber, hhex, hstarts⟩
  · obtain ⟨hsplit, hsame⟩ := atomKind_filter_hex hsigned hc hstarts
    rw [hsame] at hlexes
    refine ⟨rfl, fun _ => ⟨?_, fun hnumber => ?_⟩, fun hsplit' => ?_⟩
    · rw [hatom, hhex]
      exact hlexes
    · rw [hatom, hhex] at hnumber
      cases hnumber
    · rw [hsplit] at hsplit'
      cases hsplit'
  · obtain ⟨hmark, hsame⟩ := atomKind_filter_number hsigned hc hhex hstarts
    rw [hsame] at hlexes
    have hstext : IsSigned (Parser.dropSeparators t.text).toList negative
        (c :: rest.filter (· != '_')) := by
      rw [Parser.dropSeparators, String.toList_ofList]
      exact hplain
    refine ⟨rfl, fun hsplit => ?_, fun hsplit => ?_⟩
    · rw [hsplit, if_neg Bool.false_ne_true] at hlexes
      rw [hatom, hnumber]
      exact ⟨hlexes, fun _ => readInDecimal_of_isSigned hstext (hmark.trans hsplit)⟩
    · rw [hsplit, if_pos rfl] at hlexes
      have hzero : c = '0' := by
        rw [splitsMark_of_isSigned hsigned, Bool.and_eq_true, Bool.and_eq_true] at hsplit
        exact beq_iff_eq.1 hsplit.1.1
      subst hzero
      exact ⟨hatom.trans hnumber, hlexes,
        readInHexadecimal_of_isSigned hstext (exists_afterHexMark (hmark.trans hsplit))⟩

end Token

/-- The number that an argument holds, and the classes of the tokens that
it may come from. -/
def Argument.literal? : Argument → Option (List Token.Kind × String)
  | .number text => some ([.number], text)
  | .hex text => some ([.hex], text)
  | .keyword _ (some text) => some ([.number, .hex], text)
  | _ => none

/-- A number among the parameters comes from a token of its class. -/
theorem Grammar.Parameter.exists_literal {p : Param} {own : List Token} (h : Parameter p own)
    {kinds : List Token.Kind} {text : String} (hliteral : p.arg.literal? = some (kinds, text)) :
    ∃ t ∈ own, t.kind ∈ kinds ∧ (t.kind = .number ∨ t.kind = .hex) ∧
      text = Parser.dropSeparators t.text := by
  -- the value of a number is its text
  have hvalue : ∀ {t : Token}, t.kind = .number ∨ t.kind = .hex → t.value = t.text := by
    intro t ht
    rw [Token.value]
    rcases ht with ht | ht <;> rw [ht]
  cases h with
  | @number t hkind =>
      cases hliteral
      exact ⟨t, List.mem_singleton_self t, List.mem_singleton.2 hkind, .inl hkind,
        congrArg _ (hvalue (.inl hkind))⟩
  | @hex t hkind =>
      cases hliteral
      exact ⟨t, List.mem_singleton_self t, List.mem_singleton.2 hkind, .inr hkind,
        congrArg _ (hvalue (.inr hkind))⟩
  | string => cases hliteral
  | label => cases hliteral
  | keyword => cases hliteral
  | @setting t v key _ _ _ hkind =>
      cases hliteral
      exact ⟨v, by simp, by simpa using hkind, hkind, congrArg _ (hvalue hkind)⟩

/-- The numbers that the forms of a module hold. -/
def Node.literals (n : Node) : List (List Token.Kind × String) :=
  (n.toExpr.heads.flatMap (·.params)).filterMap (·.arg.literal?)

/-- **A number in a tree is its token without separators.** It is again one
token of that class, and what the lexer takes for decimal is read as decimal,
unless the separators stood inside the mark of hexadecimal digits. -/
theorem separators_taken_out [HexReader] {source : String} {n : Node} (h : parse source = .ok n) :
    ∀ l ∈ n.literals, ∃ t ∈ Token.scan source, t.kind ∈ l.1 ∧ t.Keeps l.2 := by
  rintro ⟨kinds, text⟩ hl
  obtain ⟨p, hp, hliteral⟩ := List.mem_filterMap.1 hl
  obtain ⟨head, hhead, hp⟩ := List.mem_flatMap.1 hp
  obtain ⟨ts, hts, hmodule⟩ := Grammar.exists_module_of_parse h
  obtain ⟨hchildren, hparams⟩ := hmodule.accounts
  have hown : ∃ own, own <:+: ts ∧ Grammar.Parameter p own := by
    rw [Node.toExpr, Expr.heads_node] at hhead
    rcases List.mem_cons.1 hhead with rfl | hhead
    · exact hparams p hp
    · exact (hchildren head hhead).params p hp
  obtain ⟨own, hin, hparam⟩ := hown
  obtain ⟨t, ht, hkinds, hkind, rfl⟩ := hparam.exists_literal hliteral
  have hscan : t ∈ Token.scan source := by
    have hmem := hin.subset ht
    rw [← hts] at hmem
    exact List.mem_of_mem_filter hmem
  exact ⟨t, hscan, hkinds, Token.keeps_dropSeparators hscan hkind⟩

/-- Separators among decimal digits, also in a value after an equals sign,
and after a mark. -/
def groupedSource : String :=
  "(memory 1_0) (func (drop (i32.load offset=1_6 (i32.const -0x_f_f))))"

theorem separators_taken_out_grouped :
    ∃ n, parse groupedSource = .ok n ∧
      n.literals = [([.number], "10"), ([.number, .hex], "16"), ([.hex], "-0xff")] ∧
      ∀ l ∈ n.literals, ∃ t ∈ Token.scan groupedSource, t.kind ∈ l.1 ∧ t.Keeps l.2 := by
  obtain ⟨n, hparse⟩ : ∃ n, parse groupedSource = .ok n := exists_of_isOk (by decide +kernel)
  have hliterals : (parse groupedSource).toOption.map Node.literals =
      some [([.number], "10"), ([.number, .hex], "16"), ([.hex], "-0xff")] := by decide +kernel
  rw [hparse] at hliterals
  exact ⟨n, hparse, Option.some.inj hliterals, separators_taken_out hparse⟩

/-- A separator between the zero of a mark and its letter. -/
def splitSource : String := "(func (drop (i32.const 0_x10)))"

theorem split_mark_read :
    ((Token.scan splitSource).filter (·.kind == .number)).map (·.text) = ["0_x10"] ∧
      (parse splitSource).toOption.map Node.literals = some [([.number], "0x10")] ∧
      Token.LexesAs .hex "0x10" ∧ readI32 "0x10" .zero = .ok 16 ∧
      compile splitSource = .ok [0x00, 0x61, 0x73, 0x6D, 0x01, 0x00, 0x00, 0x00, 1, 4, 1, 0x60, 0, 0,
        3, 2, 1, 0, 10, 7, 1, 5, 0, 0x41, 16, 0x1A, 0x0B] := by
  decide +kernel

end WasmText
