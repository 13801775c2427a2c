import WasmText.Tree.StringLiteral
import WasmText.Proofs.Source.Numeral
import WasmText.Proofs.Steps
import WasmText.Proofs.Token.Tiling
/-!
# The pieces of a string

The text between the quotes of a string is a sequence of pieces: characters
that stand for themselves, and escapes. Piece by piece, the lexer goes on
past the text and the decoder gives the bytes, so both agree where the
string ends (`stringEnd?_pieces`, `decode_pieces`). Conversely the lexer
ends a string only where no escape is open, and what the decoder accepts
there are pieces, one after the other (`Closed.decode_cases`).
-/

namespace WasmText

namespace StringLiteral

open Lexer

/-! ## Pieces -/

/-- The characters that stand for one byte after a backslash. -/
def marks : List (Char × UInt8) :=
  [('t', 0x09), ('n', 0x0A), ('r', 0x0D), ('"', 0x22), ('\'', 0x27), ('\\', 0x5C)]

/-- What the text of a string is made of: characters, marks, bytes in two
hexadecimal digits, and code points in braces, with a plus or without. -/
inductive Piece where
  | plain (c : Char) (hquote : c ≠ '"') (hescape : c ≠ '\\')
  | mark (c : Char) (value : UInt8) (h : (c, value) ∈ marks)
  | byte (first second : Char) (high low : Nat) (hhigh : IsDigit 16 first high)
    (hlow : IsDigit 16 second low)
  | codePoint (plus : Bool) (digits : List Char) (c : Char) (h : Spells 16 digits c.toNat)

namespace Piece

/-- The digits of a code point with the sign before them. -/
def signedDigits (plus : Bool) (digits : List Char) : List Char :=
  if plus then '+' :: digits else digits

/-- How a piece is written. -/
def text : Piece → List Char
  | plain c _ _ => [c]
  | mark c _ _ => ['\\', c]
  | byte first second _ _ _ _ => ['\\', first, second]
  | codePoint plus digits _ _ => '\\' :: 'u' :: '{' :: (signedDigits plus digits ++ ['}'])

/-- The bytes that a piece denotes, in UTF-8 for characters and code
points. -/
def bytes : Piece → List UInt8
  | plain c _ _ => String.utf8EncodeChar c
  | mark _ value _ => [value]
  | byte _ _ high low _ _ => [UInt8.ofNat (16 * high + low)]
  | codePoint _ _ c _ => String.utf8EncodeChar c

theorem text_length_pos (p : Piece) : 0 < p.text.length := by
  cases p <;> simp [text]

end Piece

/-- Pieces as they are written between the quotes. -/
def written (pieces : List Piece) : List Char := pieces.flatMap Piece.text

/-- The bytes that pieces denote. -/
def denoted (pieces : List Piece) : List UInt8 := pieces.flatMap Piece.bytes

/-! ## Digits delimit nothing -/

/-- Nothing between the braces of a code point delimits. -/
theorem ne_of_mem_signedDigits {plus : Bool} {digits : List Char} {n : Nat}
    (h : Spells 16 digits n) {c : Char} (hc : c ∈ Piece.signedDigits plus digits) :
    c ≠ '"' ∧ c ≠ '\\' ∧ c ≠ '}' := by
  have hdigit : ∀ c ∈ digits, c ≠ '"' ∧ c ≠ '\\' ∧ c ≠ '}' := by
    intro c hc
    obtain ⟨d, hd⟩ := exists_isDigit_of_mem h hc
    exact ⟨ne_of_isDigit hd rfl, ne_of_isDigit hd rfl, ne_of_isDigit hd rfl⟩
  cases plus with
  | false => exact hdigit c hc
  | true =>
      rcases List.mem_cons.1 hc with rfl | hc
      · decide
      · exact hdigit c hc

/-! ## The lexer -/

/-- Characters that neither close nor escape are gone past. -/
theorem stringEnd?_append {cs : List Char} (h : ∀ c ∈ cs, c ≠ '"' ∧ c ≠ '\\') (rest : List Char) :
    stringEnd? (cs ++ rest) = (stringEnd? rest).map (· + cs.length) := by
  induction cs with
  | nil => simp
  | cons c cs ih =>
      obtain ⟨⟨hquote, hescape⟩, hcs⟩ := List.forall_mem_cons.1 h
      rw [List.cons_append, stringEnd?, ih hcs, Option.map_map]
      · rfl
      · exact hquote
      · intro _ _ hc
        exact absurd hc hescape

/-- **The lexer goes past a piece** to what follows it. -/
theorem stringEnd?_piece (p : Piece) (rest : List Char) :
    stringEnd? (p.text ++ rest) = (stringEnd? rest).map (· + p.text.length) := by
  cases p with
  | plain c hquote hescape =>
      exact stringEnd?_append (List.forall_mem_singleton.2 ⟨hquote, hescape⟩) rest
  | mark c value h =>
      rw [Piece.text, List.cons_append, List.singleton_append, stringEnd?]
      rfl
  | byte first second high low hhigh hlow =>
      have hsecond : ∀ c ∈ [second], c ≠ '"' ∧ c ≠ '\\' :=
        List.forall_mem_singleton.2 ⟨ne_of_isDigit hlow rfl, ne_of_isDigit hlow rfl⟩
      have hrest := stringEnd?_append hsecond rest
      rw [Piece.text, List.cons_append, List.cons_append, stringEnd?, hrest, Option.map_map]
      rfl
  | codePoint plus digits c h =>
      have hinner : ∀ c ∈ '{' :: (Piece.signedDigits plus digits ++ ['}']), c ≠ '"' ∧ c ≠ '\\' := by
        intro c hc
        rcases List.mem_cons.1 hc with rfl | hc
        · decide
        · rcases List.mem_append.1 hc with hc | hc
          · obtain ⟨hquote, hescape, -⟩ := ne_of_mem_signedDigits h hc
            exact ⟨hquote, hescape⟩
          · rw [List.mem_singleton.1 hc]
            decide
      have hrest := stringEnd?_append hinner rest
      rw [Piece.text, List.cons_append, List.cons_append, stringEnd?, hrest, Option.map_map]
      rfl

/-- The lexer ends a string behind its pieces. -/
theorem stringEnd?_pieces (pieces : List Piece) (rest : List Char) :
    stringEnd? (written pieces ++ '"' :: rest) = some ((written pieces).length + 1) := by
  induction pieces with
  | nil => rfl
  | cons p pieces ih =>
      rw [written, List.flatMap_cons, ← written, List.append_assoc, stringEnd?_piece, ih]
      simp only [Option.map_some, List.length_append, Option.some.injEq]
      omega

/-! ## The decoder -/

theorem decode_plain {c : Char} (hc : c ≠ '\\') (cs : List Char) :
    decode (c :: cs) = do return String.utf8EncodeChar c ++ (← decode cs) := by
  rw [decode, if_neg hc]

theorem decode_escape (cs : List Char) :
    decode ('\\' :: cs) = do
      let escaped ← escape cs
      return escaped.1 ++ (← decode (cs.drop escaped.2)) := by
  rw [decode, if_pos rfl]

theorem escape_mark {c : Char} {value : UInt8} (h : (c, value) ∈ marks) (rest : List Char) :
    escape (c :: rest) = .ok ([value], 1) := by
  simp only [marks, List.mem_cons, Prod.mk.injEq, List.not_mem_nil, or_false] at h
  rcases h with ⟨rfl, rfl⟩ | ⟨rfl, rfl⟩ | ⟨rfl, rfl⟩ | ⟨rfl, rfl⟩ | ⟨rfl, rfl⟩ | ⟨rfl, rfl⟩ <;> rfl

theorem escape_byte {first second : Char} {high low : Nat} (hhigh : IsDigit 16 first high)
    (hlow : IsDigit 16 second low) (rest : List Char) :
    escape (first :: second :: rest) = .ok ([UInt8.ofNat (16 * high + low)], 2) := by
  rw [escape]
  · simp [digit?_of_isDigit hhigh, digit?_of_isDigit hlow]
  -- no digit is a mark or starts a code point
  · exact ne_of_isDigit hhigh rfl
  · exact ne_of_isDigit hhigh rfl
  · exact ne_of_isDigit hhigh rfl
  · exact ne_of_isDigit hhigh rfl
  · exact ne_of_isDigit hhigh rfl
  · exact ne_of_isDigit hhigh rfl
  · intro _ hfirst
    exact absurd hfirst (ne_of_isDigit hhigh rfl)
  · exact ne_of_isDigit hhigh rfl

theorem plusDigits?_signedDigits (plus : Bool) {digits : List Char} {n : Nat}
    (h : Spells 16 digits n) : plusDigits? 16 (Piece.signedDigits plus digits) = some n := by
  cases plus with
  | true => exact plusDigits?_eq_some.2 (Or.inr ⟨digits, rfl, h⟩)
  | false => exact plusDigits?_eq_some.2 (Or.inl h)

/-- The characters before the first closing brace. -/
theorem takeWhile_brace {inner : List Char} (h : '}' ∉ inner) (rest : List Char) :
    (inner ++ '}' :: rest).takeWhile (· != '}') = inner := by
  have hinner : ∀ d ∈ inner, (d != '}') = true := by
    intro d hd
    exact bne_iff_ne.2 (ne_of_mem_of_not_mem hd h)
  rw [List.takeWhile_append_of_pos hinner]
  simp

theorem escape_codePoint (plus : Bool) {digits : List Char} {c : Char}
    (h : Spells 16 digits c.toNat) (rest : List Char) :
    escape ('u' :: '{' :: (Piece.signedDigits plus digits ++ '}' :: rest)) =
      .ok (String.utf8EncodeChar c, (Piece.signedDigits plus digits).length + 3) := by
  have hinner : '}' ∉ Piece.signedDigits plus digits :=
    fun hmem => (ne_of_mem_signedDigits h hmem).2.2 rfl
  have htake := takeWhile_brace hinner rest
  have hclose : (Piece.signedDigits plus digits ++ '}' :: rest).contains '}' = true := by simp
  have hcode : (plusDigits? 16 (Piece.signedDigits plus digits)).filter Nat.isValidChar =
      some c.toNat := by
    rw [plusDigits?_signedDigits plus h, Option.filter_some]
    exact if_pos (decide_eq_true c.valid)
  rw [escape]
  simp only [htake, hclose, hcode, if_true, Char.ofNat_toNat]

/-- **The decoder takes a piece** as its bytes and goes on behind it. -/
theorem decode_piece (p : Piece) (rest : List Char) :
    decode (p.text ++ rest) = do return p.bytes ++ (← decode rest) := by
  cases p with
  | plain c hquote hescape => exact decode_plain hescape rest
  | mark c value h =>
      have hstep := decode_escape (c :: rest)
      rw [escape_mark h rest] at hstep
      exact hstep
  | byte first second high low hhigh hlow =>
      have hstep := decode_escape (first :: second :: rest)
      rw [escape_byte hhigh hlow rest] at hstep
      exact hstep
  | codePoint plus digits c h =>
      have hstep := decode_escape ('u' :: '{' :: (Piece.signedDigits plus digits ++ '}' :: rest))
      have hdrop : ('u' :: '{' :: (Piece.signedDigits plus digits ++ '}' :: rest)).drop
          ((Piece.signedDigits plus digits).length + 3) = rest := by
        simp [List.drop_append]
      rw [escape_codePoint plus h rest] at hstep
      change _ = (decode (List.drop _ _) >>= _) at hstep
      rw [hdrop] at hstep
      have htext : (Piece.codePoint plus digits c h).text ++ rest =
          '\\' :: 'u' :: '{' :: (Piece.signedDigits plus digits ++ '}' :: rest) := by
        simp [Piece.text]
      rw [htext]
      exact hstep

/-- The decoder takes all pieces as their bytes. -/
theorem decode_pieces (pieces : List Piece) : decode (written pieces) = .ok (denoted pieces) := by
  induction pieces with
  | nil => rw [written, List.flatMap_nil, decode]; rfl
  | cons p pieces ih =>
      rw [written, List.flatMap_cons, ← written, decode_piece, ih]
      rfl

/-! ## Where strings end -/

/-- Whether the lexer ends a string behind a text, when a quote and the
rest follow it. -/
def Closed (rest body : List Char) : Prop :=
  stringEnd? (body ++ '"' :: rest) = some (body.length + 1)

namespace Closed

variable {rest body : List Char}

theorem of_piece {p : Piece} (h : Closed rest (p.text ++ body)) : Closed rest body := by
  unfold Closed at h
  rw [List.append_assoc, stringEnd?_piece] at h
  obtain ⟨n, hn, hlength⟩ := Option.map_eq_some_iff.1 h
  rw [Closed, hn]
  simp only [List.length_append] at hlength
  congr 1
  omega

/-- No string ends behind an open escape: its quote is escaped. -/
theorem not_backslash : ¬ Closed rest ['\\'] := by
  intro h
  obtain ⟨n, hn, hlength⟩ := Option.map_eq_some_iff.1 h
  obtain ⟨body, -, -, rfl, -⟩ := exists_of_stringEnd? hn
  simp at hlength

theorem ne_quote {c : Char} (h : Closed rest (c :: body)) : c ≠ '"' := by
  rintro rfl
  have hlength := Option.some.inj h
  simp at hlength

end Closed

/-- Digits that are read have a plus before them or not. -/
theorem spells_of_plusDigits? {cs : List Char} {n : Nat} (h : plusDigits? 16 cs = some n) :
    ∃ plus digits, cs = Piece.signedDigits plus digits ∧ Spells 16 digits n := by
  rcases plusDigits?_eq_some.1 h with hspells | ⟨digits, rfl, hspells⟩
  · exact ⟨false, cs, rfl, hspells⟩
  · exact ⟨true, digits, rfl, hspells⟩

/-- What follows a backslash is nothing, or makes a piece with it, or is
refused for what it is. -/
theorem escape_cases (cs : List Char) :
    cs = [] ∨ (∃ (p : Piece) (rest : List Char), '\\' :: cs = p.text ++ rest) ∨
      ∃ fault ≠ EscapeFault.unterminated, escape cs = .error fault := by
  fun_cases escape cs with
  | case1 => exact Or.inl rfl
  | case2 cs => exact Or.inr (Or.inl ⟨.mark 't' 0x09 (by simp [marks]), cs, rfl⟩)
  | case3 cs => exact Or.inr (Or.inl ⟨.mark 'n' 0x0A (by simp [marks]), cs, rfl⟩)
  | case4 cs => exact Or.inr (Or.inl ⟨.mark 'r' 0x0D (by simp [marks]), cs, rfl⟩)
  | case5 cs => exact Or.inr (Or.inl ⟨.mark '"' 0x22 (by simp [marks]), cs, rfl⟩)
  | case6 cs => exact Or.inr (Or.inl ⟨.mark '\'' 0x27 (by simp [marks]), cs, rfl⟩)
  | case7 cs => exact Or.inr (Or.inl ⟨.mark '\\' 0x5C (by simp [marks]), cs, rfl⟩)
  | case8 cs digits hclose code hcode =>
      obtain ⟨inner, rest, rfl, hinner⟩ := List.eq_append_cons_of_mem (List.contains_iff_mem.1 hclose)
      obtain ⟨hdigits, hvalid⟩ := Option.filter_eq_some_iff.1 hcode
      rw [show digits = inner from takeWhile_brace hinner rest] at hdigits
      obtain ⟨plus, spelled, rfl, hspells⟩ := spells_of_plusDigits? hdigits
      have hvalid := of_decide_eq_true hvalid
      refine Or.inr (Or.inl ⟨.codePoint plus spelled (Char.ofNatAux code hvalid) hspells, rest, ?_⟩)
      simp [Piece.text]
  | case9 => exact Or.inr (Or.inr ⟨_, by simp, rfl⟩)
  | case10 => exact Or.inr (Or.inr ⟨_, by simp, rfl⟩)
  | case11 => exact Or.inr (Or.inr ⟨_, by simp, rfl⟩)
  | case12 c cs _ _ _ _ _ _ _ _ high low hlow hhigh =>
      obtain ⟨second, hsecond, hlow⟩ := Option.bind_eq_some_iff.1 hlow
      obtain ⟨rest, rfl⟩ := List.head?_eq_some_iff.1 hsecond
      exact Or.inr (Or.inl ⟨.byte c second high low (isDigit_of_digit? hhigh)
        (isDigit_of_digit? hlow), rest, rfl⟩)
  | case13 => exact Or.inr (Or.inr ⟨_, by simp, rfl⟩)
  | case14 => exact Or.inr (Or.inr ⟨_, by simp, rfl⟩)

/-- **One step of the decoder** in a string that the lexer ended: it takes
a piece, or fails with a fault other than an open escape. -/
theorem Closed.step {rest : List Char} {c : Char} {cs : List Char} (h : Closed rest (c :: cs)) :
    (∃ (p : Piece) (body : List Char), c :: cs = p.text ++ body) ∨
      ∃ fault ≠ EscapeFault.unterminated, decode (c :: cs) = .error fault := by
  by_cases hc : c = '\\'
  · subst hc
    rcases escape_cases cs with rfl | hpiece | ⟨fault, hne, hfault⟩
    · exact absurd h not_backslash
    · exact Or.inl hpiece
    · refine Or.inr ⟨fault, hne, ?_⟩
      rw [decode_escape, hfault]
      rfl
  · exact Or.inl ⟨.plain c h.ne_quote hc, cs, rfl⟩

/-- **The decoder on a whole string** that the lexer ended: the text is
pieces and gives their bytes, or some escape in it is not one of them. -/
theorem Closed.decode_cases {rest body : List Char} (h : Closed rest body) :
    (∃ pieces, body = written pieces ∧ decode body = .ok (denoted pieces)) ∨
      ∃ fault ≠ EscapeFault.unterminated, decode body = .error fault := by
  -- the text shortens by a piece at each step
  induction hlength : body.length using Nat.strong_induction_on generalizing body with
  | _ n ih =>
      cases body with
      | nil => exact Or.inl ⟨[], rfl, decode_pieces []⟩
      | cons c cs =>
          rcases h.step with ⟨p, body, hsplit⟩ | hfault
          · rw [hsplit] at h hlength ⊢
            have hshorter : body.length < n := by
              rw [← hlength, List.length_append]
              have := p.text_length_pos
              omega
            rcases ih _ hshorter h.of_piece rfl with ⟨pieces, rfl, -⟩ | ⟨fault, hne, hfault⟩
            · exact Or.inl ⟨p :: pieces, rfl, decode_pieces (p :: pieces)⟩
            · refine Or.inr ⟨fault, hne, ?_⟩
              rw [decode_piece, hfault]
              rfl
          · exact Or.inr hfault

/-! ## Strings in a source -/

theorem value_of_text {t : Token} {body : List Char} (hkind : t.kind = .string)
    (htext : t.text.toList = '"' :: body ++ ['"']) : t.value.toList = body := by
  simp [Token.value, hkind, htext]

theorem ofToken_of_ok {t : Token} {bytes : List UInt8} (h : decode t.value.toList = .ok bytes) :
    ofToken t = .ok bytes := by
  rw [ofToken, h]

theorem ofToken_of_error {t : Token} {fault : EscapeFault}
    (h : decode t.value.toList = .error fault) : ofToken t = .error ⟨.escape fault, t.span⟩ := by
  rw [ofToken, h]

/-- A string is cut off behind the quote that closes it. -/
theorem tokensFrom_string {rest body : List Char} (h : Closed rest body) (p : Position) :
    ∃ t : Token, tokensFrom p ('"' :: (body ++ '"' :: rest)) =
        t :: tokensFrom (p.after t.text.toList) rest ∧
      t.kind = .string ∧ t.text.toList = '"' :: body ++ ['"'] ∧
      t.span = Span.between p (p.after t.text.toList) := by
  have hcut := (Cut.string h).eq
  have hlexeme : lexeme '"' (body ++ '"' :: rest) = '"' :: body ++ ['"'] := by
    simp [lexeme, hcut, List.take_append, List.take_of_length_le]
  have hrest : (body ++ '"' :: rest).drop (body.length + 1) = rest := by
    simp [List.drop_append]
  rw [tokensFrom_cons, hlexeme, hcut, hrest]
  refine ⟨⟨.string, String.ofList ('"' :: body ++ ['"']),
    Span.between p (p.after ('"' :: body ++ ['"']))⟩, ?_, rfl, String.toList_ofList, ?_⟩
  · rw [String.toList_ofList]
  · rw [String.toList_ofList]

/-- Every string of a source is a text in quotes that the lexer ended. -/
theorem exists_closed_of_mem_scan {source : String} {t : Token} (h : t ∈ Token.scan source)
    (hkind : t.kind = .string) :
    ∃ rest body, Closed rest body ∧ t.text.toList = '"' :: body ++ ['"'] := by
  rcases List.mem_append.1 h with h | h
  · obtain ⟨first, c, cs, -, rfl⟩ := mem_tokensFrom [] h
    have hcut := cut_spec c cs
    rw [show (cut c cs).1 = .string from hkind] at hcut
    obtain ⟨rfl, hend⟩ := hcut.string_end
    obtain ⟨body, rest, rfl, hlength, -⟩ := exists_of_stringEnd? hend
    rw [hlength] at hend
    refine ⟨rest, body, hend, ?_⟩
    rw [String.toList_ofList, lexeme, hlength]
    simp [List.take_append, List.take_of_length_le]
  · rw [List.mem_singleton.1 h] at hkind
    cases hkind

/-- A string of a source is pieces in quotes and gives their bytes, or
some escape in it is refused for what it is. -/
theorem ofToken_cases {source : String} {t : Token} (h : t ∈ Token.scan source)
    (hkind : t.kind = .string) :
    (∃ pieces, t.text.toList = '"' :: written pieces ++ ['"'] ∧
      t.value.toList = written pieces ∧ ofToken t = .ok (denoted pieces)) ∨
    ∃ fault ≠ EscapeFault.unterminated, ofToken t = .error ⟨.escape fault, t.span⟩ := by
  obtain ⟨rest, body, hclosed, htext⟩ := exists_closed_of_mem_scan h hkind
  have hvalue := value_of_text hkind htext
  rcases hclosed.decode_cases with ⟨pieces, rfl, hbytes⟩ | ⟨fault, hne, hfault⟩
  · exact Or.inl ⟨pieces, htext, hvalue, ofToken_of_ok (hvalue ▸ hbytes)⟩
  · exact Or.inr ⟨fault, hne, ofToken_of_error (hvalue ▸ hfault)⟩

/-- **The lexer and the decoder agree on strings.** A text of pieces in
quotes, wherever it stands and whatever follows it, is one token, and its
value decodes to the bytes of the pieces. Conversely the string tokens of
any source have no open escape at their end, and they decode to some bytes
exactly if they are pieces of these bytes in quotes. -/
theorem pieces_between_quotes :
    (∀ (pieces : List Piece) (p : Position) (rest : List Char), ∃ t : Token,
      tokensFrom p ('"' :: (written pieces ++ '"' :: rest)) =
        t :: tokensFrom (p.after t.text.toList) rest ∧
      t.kind = .string ∧ t.text.toList = '"' :: written pieces ++ ['"'] ∧
      t.span = Span.between p (p.after t.text.toList) ∧
      ofToken t = .ok (denoted pieces)) ∧
    ∀ (source : String) (t : Token), t ∈ Token.scan source → t.kind = .string →
      (∀ e, ofToken t = .error e → e.cause ≠ .escape .unterminated) ∧
      ∀ bytes, ofToken t = .ok bytes ↔
        ∃ pieces, t.text.toList = '"' :: written pieces ++ ['"'] ∧
          t.value.toList = written pieces ∧ bytes = denoted pieces := by
  constructor
  · intro pieces p rest
    have hclosed : Closed rest (written pieces) := stringEnd?_pieces pieces rest
    obtain ⟨t, htokens, hkind, htext, hspan⟩ := tokensFrom_string hclosed p
    refine ⟨t, htokens, hkind, htext, hspan, ofToken_of_ok ?_⟩
    rw [value_of_text hkind htext, decode_pieces]
  · intro source t ht hkind
    have hcases := ofToken_cases ht hkind
    refine ⟨fun e he => ?_, fun bytes => ⟨fun h => ?_, ?_⟩⟩
    · rcases hcases with ⟨pieces, -, -, hok⟩ | ⟨fault, hne, herror⟩
      · rw [hok] at he
        cases he
      · rw [herror] at he
        obtain rfl := Except.error.inj he
        exact fun hcause => hne (ParseError.Cause.escape.inj hcause)
    · rcases hcases with ⟨pieces, htext, hvalue, hok⟩ | ⟨fault, -, herror⟩
      · rw [hok] at h
        exact ⟨pieces, htext, hvalue, (Except.ok.inj h).symm⟩
      · rw [herror] at h
        cases h
    · rintro ⟨pieces, -, hvalue, rfl⟩
      exact ofToken_of_ok (by rw [hvalue, decode_pieces])

/-- One piece of each kind: an escaped quote between a character and a byte
in digits, and a code point behind them. -/
def mixedPieces : List Piece :=
  [.plain 'a' (by decide) (by decide), .mark '"' 0x22 (by simp [marks]),
    .byte '4' 'F' 4 15 (isDigit_of_digit? (by decide)) (isDigit_of_digit? (by decide)),
    .codePoint true ['0', 'e', '9'] 'é' (digits?_eq_some.1 (by decide))]

/-- The pieces in quotes with another string behind them: the first token
is theirs, its escapes are closed, and it has their bytes. -/
theorem pieces_between_quotes_mixed :
    ∃ t ∈ Token.scan "\"a\\\"\\4F\\u\x7b+0e9\x7d\" \"b\"",
      t.value = "a\\\"\\4F\\u\x7b+0e9\x7d" ∧ ofToken t = .ok [0x61, 0x22, 0x4F, 0xC3, 0xA9] ∧
      (∀ e, ofToken t = .error e → e.cause ≠ .escape .unterminated) := by
  obtain ⟨t, htokens, hkind, htext, -, hok⟩ :=
    pieces_between_quotes.1 mixedPieces .start " \"b\"".toList
  have hmem : t ∈ Token.scan "\"a\\\"\\4F\\u\x7b+0e9\x7d\" \"b\"" := by
    refine List.mem_append_left _ ?_
    rw [show "\"a\\\"\\4F\\u\x7b+0e9\x7d\" \"b\"".toList =
      '"' :: (written mixedPieces ++ '"' :: " \"b\"".toList) from by decide, htokens]
    exact List.mem_cons_self
  refine ⟨t, hmem, ?_, ?_, (pieces_between_quotes.2 _ t hmem hkind).1⟩
  · rw [← String.toList_inj, value_of_text hkind htext]
    decide
  · rw [hok]
    decide

end StringLiteral

end WasmText
