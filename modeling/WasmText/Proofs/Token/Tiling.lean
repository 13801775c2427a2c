import WasmText.Proofs.Token.Lexeme
import Mathlib.Data.List.Chain
/-!
# Tokens tile the source

Every token is the lexeme that the rules cut off at some place
(`mem_tokensFrom`). So what holds of every lexeme holds of every token,
and only the order of the tokens takes an induction: each starts where the
one before it ends. Places are compared with a count from scratch
(`Position.reached`), which knows nothing of the lexemes before.
-/

namespace WasmText

/-! ## Places -/

namespace Position

/-- The place just after a text at the start of a source: its bytes, its
line feeds, and the characters after the last of these. -/
def reached (before : List Char) : Position where
  offset := (String.ofList before).utf8ByteSize
  line := 1 + before.count '\n'
  column := 1 + (before.reverse.takeWhile (· != '\n')).length

theorem after_append (p : Position) (first second : List Char) :
    p.after (first ++ second) = (p.after first).after second :=
  List.foldl_append

theorem next_reached (before : List Char) (c : Char) :
    (reached before).next c = reached (before ++ [c]) := by
  have hoffset : (String.ofList (before ++ [c])).utf8ByteSize =
      (String.ofList before).utf8ByteSize + c.utf8Size := by
    rw [String.ofList_append, String.utf8ByteSize_append, String.ofList_cons]
    simp
  by_cases hc : c = '\n'
  · rw [next, if_pos hc, reached, reached, hoffset]
    simp [hc, Nat.add_assoc]
  · rw [next, if_neg hc, reached, reached, hoffset]
    simp [hc, Nat.add_comm]

/-- Reading step by step counts what a count from scratch does. -/
theorem after_reached (before text : List Char) :
    (reached before).after text = reached (before ++ text) := by
  induction text generalizing before with
  | nil => rw [List.append_nil]; rfl
  | cons c cs ih =>
      change ((reached before).next c).after cs = _
      rw [next_reached, ih, List.append_assoc]
      rfl

theorem after_start (text : List Char) : start.after text = reached text :=
  after_reached [] text

/-- Each character brings at most one more line or column. -/
theorem reached_le {before : List Char} {source : String} (h : before <+: source.toList) :
    (reached before).line ≤ source.length + 1 ∧ (reached before).column ≤ source.length + 1 := by
  have hle : before.length ≤ source.length := h.length_le.trans_eq String.length_toList
  have hfeeds : before.count '\n' ≤ before.length := List.count_le_length
  have hlast := (List.takeWhile_sublist (· != '\n') (l := before.reverse)).length_le
  rw [List.length_reverse] at hlast
  simp only [reached]
  omega

end Position

namespace Token

/-! ## One token -/

/-- Whether the value of a token is its text, less the quotes of a string
or the sign of a label. -/
def ValueIsText (t : Token) : Prop :=
  match t.kind with
  | .string => t.text = "\"" ++ t.value ++ "\""
  | .label => t.text = "$" ++ t.value
  | _ => t.value = t.text

/-- Whether the text of a token stands in a source where its span says. -/
def StandsIn (t : Token) (source : String) : Prop :=
  ∃ before after, source.toList = before ++ t.text.toList ++ after ∧
    t.span = Span.between (.reached before) (.reached (before ++ t.text.toList))

/-- The ends of a token's span lie between characters. -/
theorem StandsIn.isValid {t : Token} {source : String} (h : t.StandsIn source) :
    String.Pos.Raw.IsValid source ⟨t.span.start⟩ ∧ String.Pos.Raw.IsValid source ⟨t.span.stop⟩ := by
  obtain ⟨before, after, htext, hspan⟩ := h
  have hends : ∀ first second, source.toList = first ++ second →
      String.Pos.Raw.IsValid source ⟨(Position.reached first).offset⟩ := by
    intro first second hsplit
    refine String.Pos.Raw.isValid_iff_exists_append.2
      ⟨String.ofList first, String.ofList second, ?_, rfl⟩
    rw [← String.toList_inj, hsplit, String.toList_append, String.toList_ofList,
      String.toList_ofList]
  rw [hspan]
  exact ⟨hends before (t.text.toList ++ after) (by rw [htext, List.append_assoc]),
    hends (before ++ t.text.toList) after htext⟩

end Token

namespace Lexer

/-- The class of a word is one of four. -/
theorem atomKind_mem (atom : List Char) :
    atomKind atom ∈ [Token.Kind.hex, .number, .instr, .invalid] := by
  unfold atomKind
  dsimp only
  split_ifs <;> decide

theorem ne_atomKind {kind : Token.Kind} (h : kind ∉ [Token.Kind.hex, .number, .instr, .invalid])
    (atom : List Char) : kind ≠ atomKind atom := by
  rintro rfl
  exact h (atomKind_mem atom)

namespace Cut

variable {c : Char} {cs : List Char} {kind : Token.Kind} {n : Nat}

/-- No lexeme is the end of the source. -/
theorem kind_ne_eof (h : Cut c cs kind n) : kind ≠ .eof := by
  intro hkind
  cases h with
  | atom => exact ne_atomKind (by decide) _ hkind.symm
  | _ => cases hkind

/-- A lexeme of the class of strings starts with a quote and ends as strings
do. -/
theorem string_end (h : Cut c cs .string n) : c = '"' ∧ stringEnd? cs = some n := by
  generalize hkind : Token.Kind.string = kind at h
  cases h with
  | string h => exact ⟨rfl, h⟩
  | atom => exact absurd hkind (ne_atomKind (by decide) _)
  | _ => cases hkind

/-- A lexeme of the class of strings is a text in quotes. -/
theorem string_text (h : Cut c cs .string n) : ∃ body, c :: cs.take n = '"' :: body ++ ['"'] := by
  obtain ⟨rfl, hend⟩ := h.string_end
  obtain ⟨body, rest, rfl, rfl, -⟩ := exists_of_stringEnd? hend
  exact ⟨body, by simp [List.take_append, List.take_of_length_le]⟩

/-- A lexeme of the class of labels starts with the sign. -/
theorem label_char (h : Cut c cs .label n) : c = '$' := by
  generalize hkind : Token.Kind.label = kind at h
  cases h with
  | label => rfl
  | atom => exact absurd hkind (ne_atomKind (by decide) _)
  | _ => cases hkind

end Cut

/-- The value of a token cut off by the rules is its text. -/
theorem valueIsText_of_cut (c : Char) (cs : List Char) (span : Span) :
    Token.ValueIsText ⟨(cut c cs).1, String.ofList (lexeme c cs), span⟩ := by
  have h := cut_spec c cs
  unfold Token.ValueIsText
  dsimp only
  split
  · next hkind =>
    rw [hkind] at h
    obtain ⟨body, hbody⟩ := h.string_text
    rw [← String.toList_inj]
    simp only [Token.value, hkind, lexeme, hbody, String.toList_ofList, String.toList_append]
    simp
  · next hkind =>
    rw [hkind] at h
    obtain rfl := h.label_char
    rw [← String.toList_inj]
    simp only [Token.value, hkind, lexeme, String.toList_ofList, String.toList_append]
    simp
  · next hstring hlabel =>
    unfold Token.value
    split
    · exact absurd ‹_› hstring
    · exact absurd ‹_› hlabel
    · rfl

/-! ## All tokens -/

/-- **Every token is a lexeme** that the rules cut off at some place. -/
theorem mem_tokensFrom (before : List Char) {text : List Char} {t : Token}
    (h : t ∈ tokensFrom (.reached before) text) :
    ∃ first c cs, before ++ text = first ++ c :: cs ∧
      t = ⟨(cut c cs).1, String.ofList (lexeme c cs),
        Span.between (.reached first) (.reached (first ++ lexeme c cs))⟩ := by
  induction text using lexeme_induction generalizing before with
  | nil =>
      rw [tokensFrom_nil] at h
      cases h
  | cons c cs ih =>
      rw [tokensFrom_cons, Position.after_reached] at h
      rcases List.mem_cons.1 h with rfl | h
      · exact ⟨before, c, cs, rfl, rfl⟩
      · obtain ⟨first, d, ds, hsplit, rfl⟩ := ih _ h
        refine ⟨first, d, ds, ?_, rfl⟩
        rw [← hsplit, List.append_assoc, lexeme_append_drop]

/-- The texts of the tokens are the text. -/
theorem texts_tokensFrom (p : Position) (text : List Char) :
    (tokensFrom p text).flatMap (·.text.toList) = text := by
  induction text using lexeme_induction generalizing p with
  | nil =>
      rw [tokensFrom_nil]
      rfl
  | cons c cs ih =>
      rw [tokensFrom_cons, List.flatMap_cons, ih, String.toList_ofList, lexeme_append_drop]

/-- Each token starts where the one before it ends, the end of the source
included. -/
theorem isChain_tokensFrom (p : Position) (text : List Char) (prev : Token)
    (hprev : prev.span.stop = p.offset) :
    List.IsChain (fun t u : Token => t.span.stop = u.span.start)
      (prev :: (tokensFrom p text ++ [Token.atEnd (Span.between (p.after text) (p.after text))])) := by
  induction text using lexeme_induction generalizing p prev with
  | nil =>
      rw [tokensFrom_nil]
      exact .cons_cons hprev (.singleton _)
  | cons c cs ih =>
      rw [tokensFrom_cons, List.cons_append]
      refine .cons_cons hprev ?_
      have hrest := ih (p.after (lexeme c cs))
        ⟨(cut c cs).1, String.ofList (lexeme c cs), Span.between p (p.after (lexeme c cs))⟩ rfl
      rwa [← Position.after_append, lexeme_append_drop] at hrest

end Lexer

namespace Token

/-- What it means that tokens, with the end of the source as the last, tile
a source. Numbers are not bounded here. Those of a span are at most one more
than the bytes of the source, so 32 bits hold them for a source of fewer
than `2 ^ 32 - 1` bytes. -/
structure Tile (tokens : List Token) (source : String) : Prop where
  /-- The first token starts at the start of the source. -/
  start : tokens.head?.map (·.span.start) = some 0
  /-- Each token starts where the one before it ends. -/
  adjacent : tokens.IsChain fun t u => t.span.stop = u.span.start
  /-- The tokens before the last are not empty, and none is an end. -/
  nonempty : ∀ t ∈ tokens.dropLast, t.span.start < t.span.stop ∧ t.kind ≠ .eof
  /-- The last token is the end, empty and after all bytes of the source. -/
  finish : ∃ t, tokens.getLast? = some t ∧ t.kind = .eof ∧ t.span.start = source.utf8ByteSize ∧
    t.span.stop = source.utf8ByteSize
  texts : String.join (tokens.map (·.text)) = source
  values : ∀ t ∈ tokens, t.ValueIsText
  /-- The ends of spans lie between characters. -/
  boundaries : ∀ t ∈ tokens, String.Pos.Raw.IsValid source ⟨t.span.start⟩ ∧
    String.Pos.Raw.IsValid source ⟨t.span.stop⟩
  /-- Text, line and column are those of the place. -/
  places : ∀ t ∈ tokens, t.StandsIn source
  /-- There are at most as many line feeds or columns as characters. -/
  counts : ∀ t ∈ tokens, t.span.line ≤ source.length + 1 ∧ t.span.column ≤ source.length + 1

theorem endOf_standsIn (source : String) : (endOf source).StandsIn source := by
  refine ⟨source.toList, [], by simp [endOf, atEnd], ?_⟩
  rw [endOf, Position.after_start]
  simp [atEnd]

theorem standsIn_of_mem_tokensFrom {source : String} {t : Token}
    (h : t ∈ Lexer.tokensFrom .start source.toList) : t.StandsIn source := by
  obtain ⟨first, c, cs, hsplit, rfl⟩ := Lexer.mem_tokensFrom [] h
  refine ⟨first, cs.drop (Lexer.cut c cs).2, ?_, ?_⟩
  · rw [String.toList_ofList, List.append_assoc, Lexer.lexeme_append_drop]
    exact hsplit
  · rw [String.toList_ofList]

theorem StandsIn.counts {t : Token} {source : String} (h : t.StandsIn source) :
    t.span.line ≤ source.length + 1 ∧ t.span.column ≤ source.length + 1 := by
  obtain ⟨before, after, htext, hspan⟩ := h
  rw [hspan]
  exact Position.reached_le (by rw [htext, List.append_assoc]; exact List.prefix_append _ _)

theorem standsIn_of_mem_scan {source : String} {t : Token} (h : t ∈ scan source) :
    t.StandsIn source := by
  rcases List.mem_append.1 h with h | h
  · exact standsIn_of_mem_tokensFrom h
  · obtain rfl := List.mem_singleton.1 h
    exact endOf_standsIn source

/-- **The tokens of a source tile it.** -/
theorem scan_tile (source : String) : Tile (scan source) source where
  start := by
    cases htext : source.toList with
    | nil => simp [scan, endOf, htext, Lexer.tokensFrom_nil, atEnd, Span.between, Position.after,
        Position.start]
    | cons c cs => simp [scan, htext, Lexer.tokensFrom_cons, Span.between, Position.start]
  adjacent := by
    have h := Lexer.isChain_tokensFrom .start source.toList (atEnd .zero) rfl
    exact h.tail
  nonempty t ht := by
    rw [scan, List.dropLast_concat] at ht
    obtain ⟨first, c, cs, -, rfl⟩ := Lexer.mem_tokensFrom [] ht
    refine ⟨?_, (Lexer.cut_spec c cs).kind_ne_eof⟩
    have hpos : 0 < (String.ofList (Lexer.lexeme c cs)).utf8ByteSize := by
      rw [Nat.pos_iff_ne_zero, Ne, String.utf8ByteSize_eq_zero_iff, ← String.toList_inj]
      simp [Lexer.lexeme]
    simp only [Span.between, Position.reached, String.ofList_append, String.utf8ByteSize_append]
    omega
  finish := by
    refine ⟨endOf source, by simp [scan], rfl, ?_⟩
    simp [endOf, atEnd, Span.between, Position.after_start, Position.reached]
  texts := by
    rw [← String.toList_inj, String.toList_join, scan, List.map_append, List.flatMap_append,
      List.flatMap_map, Lexer.texts_tokensFrom]
    simp [endOf, atEnd]
  values t ht := by
    rcases List.mem_append.1 ht with ht | ht
    · obtain ⟨first, c, cs, -, rfl⟩ := Lexer.mem_tokensFrom [] ht
      exact Lexer.valueIsText_of_cut c cs _
    · obtain rfl := List.mem_singleton.1 ht
      rfl
  boundaries t ht := (standsIn_of_mem_scan ht).isValid
  places t ht := standsIn_of_mem_scan ht
  counts t ht := (standsIn_of_mem_scan ht).counts

end Token

end WasmText
