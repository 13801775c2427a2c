import WasmText.Proofs.Token.Cursor
import WasmText.Proofs.Token.Layout
/-!
# Block comments

Block comments nest, by a grammar that counts nothing:

    comment = "(;" (comment | x)* ";)"

where `x` is a character at which neither mark starts. The lexer has no
grammar and counts the comments that are open. What it reads while it
counts is the rest of each open comment, from the innermost outwards
(`Closes`), so the two agree at every depth. Counting has one outcome, and
so no text starts with two different comments.
-/

namespace WasmText

namespace Lexer

/-- A block comment: its opening mark, and what it has after that. -/
def BlockComment (text : List Char) : Prop :=
  ∃ rest, CommentRest rest ∧ text = '(' :: ';' :: rest

/-! ## Counting -/

/-- What closes a comment and `depth` more around it: the rest of each,
from the innermost outwards. -/
inductive Closes : Nat → List Char → Prop where
  | last {rest : List Char} (hrest : CommentRest rest) : Closes 0 rest
  | outer {depth : Nat} {rest text : List Char} (hrest : CommentRest rest)
      (htext : Closes depth text) : Closes (depth + 1) (rest ++ text)

namespace Closes

variable {depth : Nat} {text : List Char}

/-- A closing mark is all that the innermost comment has left. -/
theorem close (h : Closes depth text) : Closes (depth + 1) (';' :: ')' :: text) :=
  .outer .close h

/-- An opening mark makes the innermost comment a part of the one around
it. -/
theorem inner (h : Closes (depth + 1) text) : Closes depth ('(' :: ';' :: text) := by
  cases h with
  | outer hrest htext =>
      cases htext with
      | last hlast => exact .last (.inner hrest hlast)
      | outer hrest' htext' =>
          rw [← List.append_assoc]
          exact .outer (.inner hrest hrest') htext'

/-- A character at which neither mark starts belongs to the innermost
comment. -/
theorem char (h : Closes depth text) {c : Char} (hopen : ¬ ['(', ';'] <+: c :: text)
    (hclose : ¬ [';', ')'] <+: c :: text) : Closes depth (c :: text) := by
  cases h with
  | last hrest => exact .last (.char hrest hopen hclose)
  | @outer depth rest outer hrest htext =>
      -- a mark in the rest of the innermost comment is a mark in the whole text
      have hmark : c :: rest <+: c :: (rest ++ outer) := ⟨outer, rfl⟩
      exact .outer (.char hrest (fun h => hopen (h.trans hmark)) fun h => hclose (h.trans hmark))
        htext

end Closes

/-- **The count is the number of open comments.** Where the lexer finds the
end, the text up to there closes as many comments as were open. -/
theorem closes_of_commentEnd? {depth n : Nat} {cs : List Char}
    (h : commentEnd? depth cs = some n) :
    ∃ text rest, cs = text ++ rest ∧ text.length = n ∧ Closes depth text := by
  induction depth, cs using commentEnd?.induct generalizing n with
  | case1 => cases h
  | case2 depth cs ih =>
      obtain ⟨m, hm, rfl⟩ := Option.map_eq_some_iff.1 h
      obtain ⟨text, rest, rfl, rfl, htext⟩ := ih hm
      exact ⟨'(' :: ';' :: text, rest, rfl, rfl, htext.inner⟩
  | case3 cs =>
      obtain rfl := Option.some.inj h
      exact ⟨[';', ')'], cs, rfl, rfl, .last .close⟩
  | case4 depth cs ih =>
      obtain ⟨m, hm, rfl⟩ := Option.map_eq_some_iff.1 h
      obtain ⟨text, rest, rfl, rfl, htext⟩ := ih hm
      exact ⟨';' :: ')' :: text, rest, rfl, rfl, htext.close⟩
  | case5 depth c cs hopen hclose ih =>
      have hnext : commentEnd? depth (c :: cs) = (commentEnd? depth cs).map (· + 1) := by
        rw [commentEnd?]
        · exact hopen
        · exact hclose
      obtain ⟨m, hm, rfl⟩ := Option.map_eq_some_iff.1 (hnext.symm.trans h)
      obtain ⟨text, rest, rfl, rfl, htext⟩ := ih hm
      refine ⟨c :: text, rest, rfl, rfl, htext.char ?_ ?_⟩
      · rintro ⟨more, hmore⟩
        obtain ⟨rfl, rfl⟩ := List.cons.inj hmore
        exact hopen (more ++ rest) rfl rfl
      · rintro ⟨more, hmore⟩
        obtain ⟨rfl, rfl⟩ := List.cons.inj hmore
        exact hclose (more ++ rest) rfl rfl

/-- **The lexer finds the end of a comment** exactly where the grammar ends
it. -/
theorem commentEnd?_eq_some_iff {cs : List Char} {n : Nat} :
    commentEnd? 0 cs = some n ↔ n ≤ cs.length ∧ CommentRest (cs.take n) := by
  constructor
  · intro h
    obtain ⟨text, rest, rfl, rfl, htext⟩ := closes_of_commentEnd? h
    cases htext with
    | last hrest => exact ⟨by simp, by rwa [List.take_left]⟩
  · rintro ⟨hle, hrest⟩
    have hend := hrest.commentEnd?_append 0 (cs.drop n)
    rw [List.take_append_drop, outerEnd?, Option.map_some, Nat.zero_add, List.length_take,
      Nat.min_eq_left hle] at hend
    exact hend

/-- The comment at the front of a text ends where the lexer finds the
end, so there is at most one. -/
theorem blockComment_prefix_iff {first cs : List Char} :
    (first <+: '(' :: ';' :: cs ∧ BlockComment first) ↔
      ∃ n, commentEnd? 0 cs = some n ∧ first = '(' :: ';' :: cs.take n := by
  constructor
  · rintro ⟨⟨after, hafter⟩, rest, hrest, rfl⟩
    obtain rfl : rest ++ after = cs := by simpa using hafter
    refine ⟨rest.length, commentEnd?_eq_some_iff.2 ⟨by simp, ?_⟩, ?_⟩
    · rwa [List.take_left]
    · rw [List.take_left]
  · rintro ⟨n, hn, rfl⟩
    refine ⟨?_, _, (commentEnd?_eq_some_iff.1 hn).2, rfl⟩
    exact List.prefix_cons_inj _ |>.2 (List.prefix_cons_inj _ |>.2 (List.take_prefix n cs))

/-- A comment that ends is a token up to its end. -/
theorem cut_block {cs : List Char} {n : Nat} (h : commentEnd? 0 cs = some n) :
    (cut '(' (';' :: cs)).1 = .comment ∧ lexeme '(' (';' :: cs) = '(' :: ';' :: cs.take n := by
  rw [lexeme, (Cut.block h).eq]
  exact ⟨rfl, rfl⟩

/-- A comment that does not end is an invalid token up to the end of the
source. -/
theorem cut_unclosedBlock {cs : List Char} (h : commentEnd? 0 cs = none) :
    (cut '(' (';' :: cs)).1 = .invalid ∧ lexeme '(' (';' :: cs) = '(' :: ';' :: cs ∧
      (';' :: cs).drop (cut '(' (';' :: cs)).2 = [] := by
  rw [lexeme, (Cut.unclosedBlock h).eq]
  exact ⟨rfl, by simp, by simp⟩

end Lexer

open Lexer (BlockComment)

/-! ## Tokens -/

namespace Scanner

/-- **Where a text starts as a block comment does, the grammar says what is
taken.** The token is a comment exactly when some beginning of the text is
a comment by the grammar. There is then one such beginning, and it is the
text of the token. Otherwise the token is invalid and nothing is left
after it. Open comments are counted without a bound. Each is opened by two
characters, so 32 bits, one of them a sign, hold the count for a source of
fewer than `2 ^ 32` characters. -/
theorem block_comments_by_grammar (s : Scanner) (hdone : s.done = false)
    (hopen : ['(', ';'] <+: s.rest) :
    ∃ t s', s.next? = some (t, s') ∧
      Lexer.tokensFrom s.position s.rest = t :: Lexer.tokensFrom s'.position s'.rest ∧
      s.rest = t.text.toList ++ s'.rest ∧ t.value = t.text ∧
      t.span = .between s.position (s.position.after t.text.toList) ∧
      (t.kind = .comment ↔ ∃ first, first <+: s.rest ∧ BlockComment first) ∧
      (∀ first, first <+: s.rest → BlockComment first → first = t.text.toList) ∧
      (t.kind ≠ .comment → t.kind = .invalid ∧ t.text.toList = s.rest ∧ s'.rest = []) := by
  obtain ⟨inner, hinner⟩ := hopen
  have hrest : s.rest = '(' :: ';' :: inner := hinner.symm
  refine ⟨_, _, next?_of_cons hdone hrest, ?_, ?_, ?_⟩
  · rw [hrest, Lexer.tokensFrom_cons]
  · rw [hrest, String.toList_ofList, Lexer.lexeme_append_drop]
  simp only [String.toList_ofList, hrest, Lexer.blockComment_prefix_iff]
  cases hend : Lexer.commentEnd? 0 inner with
  | some n =>
      obtain ⟨hkind, hlexeme⟩ := Lexer.cut_block hend
      refine ⟨by simp [Token.value, hkind], trivial, ?_, ?_, fun h => absurd hkind h⟩
      · exact iff_of_true hkind ⟨_, n, rfl, rfl⟩
      · intro first hfirst hcomment
        obtain ⟨m, hm, rfl⟩ := Lexer.blockComment_prefix_iff.1 ⟨hfirst, hcomment⟩
        obtain rfl : n = m := Option.some.inj (hend.symm.trans hm)
        exact hlexeme.symm
  | none =>
      obtain ⟨hkind, hlexeme, hnothing⟩ := Lexer.cut_unclosedBlock hend
      refine ⟨by simp [Token.value, hkind], trivial, ?_, ?_, fun _ => ⟨hkind, hlexeme, hnothing⟩⟩
      · exact iff_of_false (by simp [hkind]) (by simp)
      · intro first hfirst hcomment
        obtain ⟨m, hm, -⟩ := Lexer.blockComment_prefix_iff.1 ⟨hfirst, hcomment⟩
        simp [hend] at hm

/-- Marks that share a semicolon: the first of three after an inner comment
is a character, and an inner comment that takes the only closing mark
leaves the outer one open. -/
theorem block_comments_by_grammar_overlapping :
    BlockComment "(;(;;);;)".toList ∧
      (∃ t s', (ofSource "(;(;;);;) x").next? = some (t, s') ∧ t.kind = .comment ∧
        t.text.toList = "(;(;;);;)".toList) ∧
      ∀ first, first <+: "(;(;;)".toList → ¬ BlockComment first := by
  have hcomment : BlockComment "(;(;;);;)".toList :=
    ⟨"(;;);;)".toList, .inner .close (.char .close (by decide) (by decide)), rfl⟩
  have hbegins : "(;(;;);;)".toList <+: (ofSource "(;(;;);;) x").rest := by decide
  refine ⟨hcomment, ?_, ?_⟩
  · obtain ⟨t, s', hnext, -, -, -, -, hkind, hunique, -⟩ :=
      block_comments_by_grammar (ofSource "(;(;;);;) x") rfl (by decide)
    exact ⟨t, s', hnext, hkind.2 ⟨_, hbegins, hcomment⟩, (hunique _ hbegins hcomment).symm⟩
  · obtain ⟨t, s', hnext, -, -, -, -, hkind, -⟩ :=
      block_comments_by_grammar (ofSource "(;(;;)") rfl (by decide)
    have hinvalid : (ofSource "(;(;;)").next?.map (·.1.kind) = some .invalid := by decide +kernel
    rw [hnext, Option.map_some, Option.some.injEq] at hinvalid
    intro first hfirst hcomment
    have htaken : t.kind = .comment := hkind.2 ⟨first, hfirst, hcomment⟩
    exact absurd (hinvalid.symm.trans htaken) (by decide)

end Scanner

end WasmText
