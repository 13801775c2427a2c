import WasmText.Literal.Hexadecimal
import WasmText.Proofs.Module.Guise
import WasmText.Proofs.Tree.Places
/-!
# Layout never matters

A source laid out anew, with blanks and comments of any kind between its
tokens, has the same significant tokens. It is parsed to the same tree up
to places, or fails the same way, and it compiles to the same bytes. The
first is the lexer's part, the second the parser's, and the third says
that no place in the tree ever reaches a byte.
-/

namespace WasmText

open Lexer (words)

/-! ## Tokens -/

/-- A token that stands for something: neither layout nor the end. -/
def Token.isSignificant (t : Token) : Bool := !t.kind.isTrivia && t.kind != .eof

theorem Lexer.filter_isSignificant_scan (source : String) :
    (Token.scan source).filter Token.isSignificant =
      (tokensFrom .start source.toList).filter (!·.kind.isTrivia) := by
  have hkind : ∀ t ∈ tokensFrom .start source.toList, t.isSignificant = !t.kind.isTrivia := by
    intro t ht
    obtain ⟨_, c, cs, -, rfl⟩ := mem_tokensFrom [] ht
    simp [Token.isSignificant, (cut_spec c cs).kind_ne_eof]
  rw [Token.scan, List.filter_append, List.filter_congr hkind]
  exact List.append_nil _

/-- What the significant tokens of a source are and stand for, with its
end. -/
theorem Lexer.map_filter_scan (source : String) :
    ((Token.scan source).filter (!·.kind.isTrivia)).map (fun t => (t.kind, t.value)) =
      (words source.toList).map (fun t => (t.kind, t.value)) ++ [(.eof, "")] := by
  rw [Token.scan, List.filter_append, List.map_append, words, List.map_map]
  rfl

/-! ## Bytes -/

theorem compile_eq_ok [HexReader] {source : String} {bytes : List UInt8} :
    compile source = .ok bytes ↔ ∃ n, parse source = .ok n ∧ n.compile = .ok bytes := by
  unfold compile
  cases parse source with
  | error e => simp
  | ok n => simp

/-- Places reach no byte: what compiles without them compiles with them,
to the same bytes. -/
theorem Node.compile_bare [HexReader] (n : Node) (bytes : List UInt8) :
    n.bare.compile = .ok bytes ↔ n.compile = .ok bytes :=
  (agree_compile n).eq_ok_iff

theorem compile_congr [HexReader] {source source' : String}
    (h : unplaced Node.bare (parse source) = unplaced Node.bare (parse source')) {bytes : List UInt8}
    (hcompile : compile source = .ok bytes) : compile source' = .ok bytes := by
  obtain ⟨n, hparse, hbytes⟩ := compile_eq_ok.1 hcompile
  rw [hparse] at h
  cases hparse' : parse source' with
  | error e => rw [hparse'] at h; cases h
  | ok m =>
      rw [hparse'] at h
      have hbare : n.bare = m.bare := Except.ok.inj h
      rw [← n.compile_bare, hbare, m.compile_bare] at hbytes
      exact compile_eq_ok.2 ⟨m, hparse', hbytes⟩

/-- **Layout never matters.** A source that lays out the significant
tokens of another, none of them invalid, has the same tokens, parses the
same up to places, and compiles to the same bytes or not at all. -/
theorem layout_irrelevant [HexReader] {source laid : String}
    (hvalid : ∀ t ∈ Token.scan source, t.kind ≠ .invalid)
    (hlayout : Lexer.LaysOut laid (((Token.scan source).filter Token.isSignificant).map (·.text))) :
    ((Token.scan laid).filter (!·.kind.isTrivia)).map (fun t => (t.kind, t.value)) =
        ((Token.scan source).filter (!·.kind.isTrivia)).map (fun t => (t.kind, t.value)) ∧
      unplaced Node.bare (parse laid) = unplaced Node.bare (parse source) ∧
      ∀ bytes, compile laid = .ok bytes ↔ compile source = .ok bytes := by
  rw [Lexer.filter_isSignificant_scan] at hlayout
  have hword : ∀ t ∈ (Lexer.tokensFrom .start source.toList).filter (!·.kind.isTrivia), t.IsWord := by
    intro t ht
    obtain ⟨hmem, htrivia⟩ := List.mem_filter.1 ht
    exact Token.isWord_of_mem hmem (by simpa using htrivia) (hvalid t (List.mem_append_left _ hmem))
  have hwords : words laid.toList = words source.toList := hlayout.words_eq hword
  have hparse : unplaced Node.bare (parse laid) = unplaced Node.bare (parse source) := by
    rw [parse_words, parse_words, hwords]
  refine ⟨?_, hparse, fun bytes => ⟨compile_congr hparse, compile_congr hparse.symm⟩⟩
  rw [Lexer.map_filter_scan, Lexer.map_filter_scan, hwords]

/-- A keyword and its value apart, a comment to the end of a line, and a
comment inside a comment. -/
theorem layout_irrelevant_comments :
    compile "( func ;; a\n( (;b(;c;);)i32.load\toffset= 8 ) )\n" = .ok [0x00, 0x61, 0x73, 0x6D, 0x01,
      0x00, 0x00, 0x00, 0x01, 0x04, 0x01, 0x60, 0x00, 0x00, 0x03, 0x02, 0x01, 0x00, 0x0A, 0x07, 0x01,
      0x05, 0x00, 0x28, 0x02, 0x08, 0x0B] := by
  have hspace : Lexer.Separator [' '] := .of_blank rfl .nil
  have htab : Lexer.Separator ['\t'] := .of_blank rfl .nil
  have hnewline : Lexer.Separator ['\n'] := .of_blank rfl .nil
  have hline : Lexer.Separator (' ' :: ';' :: ';' :: [' ', 'a'] ++ ['\n']) :=
    .of_blank rfl (.line (by decide) .nil)
  have hinner : Lexer.CommentRest ['c', ';', ')'] := .char .close (by decide) (by decide)
  have hblock : Lexer.Separator (' ' :: '(' :: ';' :: ('b' :: '(' :: ';' :: ['c', ';', ')'] ++
      [';', ')']) ++ []) :=
    .of_blank rfl (.block (.char (.inner hinner .close) (by decide) (by decide)) .nil)
  have htexts : ((Token.scan "(func(i32.load offset=8))").filter Token.isSignificant).map (·.text) =
      ["(", "func", "(", "i32.load", "offset=", "8", ")", ")"] := by decide +kernel
  have hlayout : Lexer.LaysOut "( func ;; a\n( (;b(;c;);)i32.load\toffset= 8 ) )\n"
      (((Token.scan "(func(i32.load offset=8))").filter Token.isSignificant).map (·.text)) := by
    rw [htexts]
    exact .inr ⟨_, _, _, rfl, .next hspace (.next hline (.next hblock (.next htab
      (.next hspace (.next hspace (.next hspace (.finish hnewline))))))), by decide +kernel⟩
  exact ((layout_irrelevant (by decide +kernel) hlayout).2.2 _).2 (by decide +kernel)

end WasmText
