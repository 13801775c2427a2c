import WasmText.Proofs.Token.Tiling
import Mathlib.Data.List.TakeWhile
/-!
# Layout

Blanks and comments stand between tokens and mean nothing. A gap is any
run of them, and a gap that starts with a blank ends the token before it.
So a text that puts such gaps between texts that are tokens on their own
has these tokens, in this order, and no others (`LaysOut.words_eq`). The
tokens of a source are tokens on their own (`isWord_of_mem`), also where
the source writes them without a gap.
-/

namespace WasmText

/-- The token without its place. -/
def Token.bare (t : Token) : Token := { t with span := .zero }

namespace Lexer

/-! ## Words -/

/-- The significant tokens of a text, without their places. -/
def words (text : List Char) : List Token :=
  ((tokensFrom .start text).filter (!·.kind.isTrivia)).map Token.bare

/-- Words do not depend on where a text begins. -/
theorem words_eq (p : Position) (text : List Char) :
    ((tokensFrom p text).filter (!·.kind.isTrivia)).map Token.bare = words text := by
  unfold words
  generalize Position.start = q
  induction text using lexeme_induction generalizing p q with
  | nil => rw [tokensFrom_nil, tokensFrom_nil]
  | cons c cs ih =>
      rw [tokensFrom_cons, tokensFrom_cons]
      have hrest := ih (p.after (lexeme c cs)) (q.after (lexeme c cs))
      by_cases htrivia : (cut c cs).1.isTrivia = true
      · simpa [htrivia] using hrest
      · simpa [htrivia, Token.bare] using hrest

theorem words_nil : words [] = [] := by
  rw [words, tokensFrom_nil]
  rfl

namespace Cut

variable {c : Char} {cs : List Char} {kind : Token.Kind} {n : Nat}

theorem words_trivia (h : Cut c cs kind n) (hkind : kind.isTrivia = true) :
    words (c :: cs) = words (cs.drop n) := by
  rw [words, tokensFrom_cons, h.eq, List.filter_cons_of_neg (by simp [hkind])]
  exact words_eq _ _

theorem words_cons (h : Cut c cs kind n) (hkind : kind.isTrivia = false) :
    words (c :: cs) = ⟨kind, String.ofList (c :: cs.take n), .zero⟩ :: words (cs.drop n) := by
  rw [words, tokensFrom_cons, lexeme, h.eq, List.filter_cons_of_pos (by simp [hkind]),
    List.map_cons, words_eq]
  rfl

end Cut

/-! ## Gaps -/

/-- What a block comment still has after its opening mark: comments inside
it, characters at which neither mark starts, and the closing mark. -/
inductive CommentRest : List Char → Prop where
  | close : CommentRest [';', ')']
  | inner {first rest : List Char} (hfirst : CommentRest first) (hrest : CommentRest rest) :
    CommentRest ('(' :: ';' :: first ++ rest)
  | char {c : Char} {rest : List Char} (hrest : CommentRest rest)
    (hopen : ¬ ['(', ';'] <+: c :: rest) (hclose : ¬ [';', ')'] <+: c :: rest) :
    CommentRest (c :: rest)

/-- A run of blanks, comments to the end of a line, and block comments. -/
inductive Gap : List Char → Prop where
  | nil : Gap []
  | blank {c : Char} {rest : List Char} (hc : isBlank c = true) (hrest : Gap rest) :
    Gap (c :: rest)
  | line {body rest : List Char} (hbody : '\n' ∉ body) (hrest : Gap rest) :
    Gap (';' :: ';' :: body ++ '\n' :: rest)
  | block {body rest : List Char} (hbody : CommentRest body) (hrest : Gap rest) :
    Gap ('(' :: ';' :: body ++ rest)

/-- Whether a text ends any word before it. -/
def EndsWord (text : List Char) : Prop := ∀ c ∈ text.head?, isBlank c = true

/-- A gap that starts with a blank. -/
structure Separator (text : List Char) : Prop where
  gap : Gap text
  ne_nil : text ≠ []
  endsWord : EndsWord text

theorem Separator.of_blank {c : Char} {rest : List Char} (hc : isBlank c = true) (hrest : Gap rest) :
    Separator (c :: rest) where
  gap := .blank hc hrest
  ne_nil := nofun
  endsWord := by
    rintro d ⟨⟩
    exact hc

theorem CommentRest.exists_cons {body : List Char} (h : CommentRest body) :
    ∃ c d rest, body = c :: d :: rest := by
  cases h with
  | close => exact ⟨_, _, _, rfl⟩
  | inner => exact ⟨_, _, _, rfl⟩
  | char hrest =>
      cases hrest with
      | close => exact ⟨_, _, _, rfl⟩
      | inner => exact ⟨_, _, _, rfl⟩
      | char => exact ⟨_, _, _, rfl⟩

/-- What the comments still open take of a text after one has closed. -/
def outerEnd? (depth : Nat) (rest : List Char) : Option Nat :=
  match depth with
  | 0 => some 0
  | depth + 1 => commentEnd? depth rest

/-- The rest of a comment closes the innermost open comment, whatever comes
after it. -/
theorem CommentRest.commentEnd?_append {body : List Char} (h : CommentRest body) (depth : Nat)
    (rest : List Char) :
    commentEnd? depth (body ++ rest) = (outerEnd? depth rest).map (· + body.length) := by
  induction h generalizing depth rest with
  | close =>
      cases depth with
      | zero => rfl
      | succ depth => rfl
  | @inner first rest' _ _ ihfirst ihrest =>
      -- the inner comment is read one level deeper, and what follows it at this level again
      have hopen : commentEnd? depth ('(' :: ';' :: first ++ rest' ++ rest) =
          (commentEnd? (depth + 1) (first ++ (rest' ++ rest))).map (· + 2) := by
        rw [← List.append_assoc]
        rfl
      rw [hopen, ihfirst, outerEnd?, ihrest, Option.map_map, Option.map_map]
      congr 1
      funext n
      simp only [Function.comp_apply, List.length_cons, List.length_append]
      omega
  | @char c tail hrest hopen hclose ih =>
      -- something is left of the comment, so what comes after it cannot complete a mark here
      obtain ⟨d, e, tail', rfl⟩ := hrest.exists_cons
      rw [List.cons_append, commentEnd?, ih, Option.map_map]
      · rfl
      · rintro cs rfl hcs
        obtain ⟨rfl, -⟩ := List.cons.inj hcs
        exact hopen ⟨_, rfl⟩
      · rintro cs rfl hcs
        obtain ⟨rfl, -⟩ := List.cons.inj hcs
        exact hclose ⟨_, rfl⟩

/-- A blank in front changes no word. -/
theorem words_blank {c : Char} (hc : isBlank c = true) (cs : List Char) :
    words (c :: cs) = words cs := by
  -- a run of blanks is one token, so a run and the same run without its first blank leave the same
  have hdrop : ∀ {c : Char} (_ : isBlank c = true) (cs : List Char),
      words (c :: cs) = words (cs.dropWhile isBlank) := by
    intro c hc cs
    have hsplit : cs.takeWhile isBlank ++ cs.dropWhile isBlank = cs :=
      List.takeWhile_append_dropWhile
    have hdrop : cs.drop (cs.takeWhile isBlank).length = cs.dropWhile isBlank := by
      conv_lhs => rw [← hsplit]
      exact List.drop_left' (by rw [hsplit])
    rw [(Cut.whitespace hc).words_trivia rfl, hdrop]
  rw [hdrop hc]
  cases cs with
  | nil => rfl
  | cons d ds =>
      by_cases hd : isBlank d = true
      · rw [List.dropWhile_cons_of_pos hd, hdrop hd]
      · rw [List.dropWhile_cons_of_neg hd]

/-- **A gap in front changes no word.** -/
theorem Gap.words_append {gap : List Char} (h : Gap gap) (rest : List Char) :
    words (gap ++ rest) = words rest := by
  induction h with
  | nil => rfl
  | blank hc hrest ih => rw [List.cons_append, words_blank hc, ih]
  | @line body rest' hbody hrest ih =>
      -- the token ends before the newline, which is a blank of its own
      have htake : (';' :: (body ++ '\n' :: (rest' ++ rest))).takeWhile (· != '\n') = ';' :: body := by
        have hall : ∀ c ∈ ';' :: body, (c != '\n') = true := by
          intro c hc
          rcases List.mem_cons.1 hc with rfl | hc
          · decide
          · exact bne_iff_ne.2 fun h => hbody (h ▸ hc)
        rw [← List.cons_append, List.takeWhile_append_of_pos hall]
        simp
      calc words (';' :: ';' :: body ++ '\n' :: rest' ++ rest)
          = words (';' :: ';' :: (body ++ '\n' :: (rest' ++ rest))) := by simp
        _ = words ('\n' :: (rest' ++ rest)) := by
          rw [Cut.line.words_trivia rfl, htake, ← List.cons_append, List.drop_left]
        _ = words rest := by rw [words_blank (by decide), ih]
  | @block body rest' hbody hrest ih =>
      have hend : commentEnd? 0 (body ++ (rest' ++ rest)) = some body.length := by
        simp [hbody.commentEnd?_append, outerEnd?]
      calc words ('(' :: ';' :: body ++ rest' ++ rest)
          = words ('(' :: ';' :: (body ++ (rest' ++ rest))) := by simp
        _ = words (rest' ++ rest) := by
          rw [(Cut.block hend).words_trivia rfl, List.drop_succ_cons, List.drop_left]
        _ = words rest := ih

/-! ## Words before a gap -/

/-- **A significant token is found again** when a gap or nothing follows
its text. -/
theorem Cut.again {c : Char} {cs : List Char} {kind : Token.Kind} {n : Nat} (h : Cut c cs kind n)
    (htrivia : kind.isTrivia = false) (hvalid : kind ≠ .invalid) {gap : List Char}
    (hgap : EndsWord gap) : n ≤ cs.length ∧ Cut c (cs.take n ++ gap) kind n := by
  -- a run of identifier characters stops at a gap
  have hrun : ∀ run : List Char, (∀ c ∈ run, isIdentifier c = true) →
      (run ++ gap).takeWhile isIdentifier = run := by
    intro run hrun
    rw [List.takeWhile_append_of_pos hrun]
    cases gap with
    | nil => simp
    | cons d ds => simp [isIdentifier_of_isBlank (hgap d rfl)]
  have hlength : (cs.takeWhile isIdentifier).length ≤ cs.length :=
    (List.takeWhile_prefix isIdentifier).length_le
  have htake : cs.take (cs.takeWhile isIdentifier).length = cs.takeWhile isIdentifier :=
    (List.prefix_iff_eq_take.1 (List.takeWhile_prefix _)).symm
  have hall : ∀ c ∈ cs.takeWhile isIdentifier, isIdentifier c = true :=
    fun c hc => List.mem_takeWhile_imp hc
  cases h with
  | whitespace => cases htrivia
  | line => cases htrivia
  | block => cases htrivia
  | unclosedBlock => exact absurd rfl hvalid
  | leftParen h =>
      refine ⟨Nat.zero_le _, .leftParen ?_⟩
      cases gap with
      | nil => simp
      | cons d ds =>
          intro hd
          obtain rfl : d = ';' := by simpa using hd
          exact absurd (hgap ';' rfl) (by decide)
  | rightParen => exact ⟨Nat.zero_le _, .rightParen⟩
  | string h =>
      obtain ⟨body, rest, rfl, rfl, hend⟩ := exists_of_stringEnd? h
      refine ⟨by simp, .string ?_⟩
      have htext : (body ++ '"' :: rest).take (body.length + 1) = body ++ ['"'] := by
        simp [List.take_append, List.take_of_length_le]
      rw [htext, List.append_assoc]
      exact hend gap
  | unclosedString => exact absurd rfl hvalid
  | bareSign => exact absurd rfl hvalid
  | label h =>
      refine ⟨hlength, ?_⟩
      have hagain := hrun _ hall
      have hlabel := @Cut.label (cs.takeWhile isIdentifier ++ gap) (by rwa [hagain])
      rw [hagain] at hlabel
      rwa [htake]
  | @keyword _ _ n hc hm h =>
      obtain ⟨hpos, hle, hkeyword⟩ := keywordLength?_take h
      obtain ⟨m, rfl⟩ : ∃ m, n = m + 1 := ⟨n - 1, by omega⟩
      have hle : m ≤ (cs.takeWhile isIdentifier).length := by simpa using hle
      -- the keyword is part of the run it starts
      have hpart : cs.take m = (cs.takeWhile isIdentifier).take m := by
        rw [← htake, List.take_take, Nat.min_eq_left hle]
      have hagain := hrun (cs.take m) fun c hc => hall c (List.mem_of_mem_take (hpart ▸ hc))
      refine ⟨Nat.le_trans hle hlength, .keyword hc hm ?_⟩
      rw [Nat.add_sub_cancel, hagain, hpart]
      exact hkeyword
  | atom hc hm h =>
      have hagain := hrun _ hall
      have hatom := @Cut.atom c (cs.takeWhile isIdentifier ++ gap) hc hm (by rwa [hagain])
      rw [hagain] at hatom
      exact ⟨hlength, by rwa [htake]⟩
  | other => exact absurd rfl hvalid

end Lexer

namespace Token

/-- Whether a token is what its text is on its own, and significant. -/
def IsWord (t : Token) : Prop :=
  t.kind.isTrivia = false ∧ t.kind ≠ .invalid ∧
    ∃ c cs, t.text = String.ofList (c :: cs) ∧ Lexer.Cut c cs t.kind cs.length

/-- A word is read off before a gap. -/
theorem IsWord.words_append {t : Token} (h : t.IsWord) {gap : List Char}
    (hgap : Lexer.EndsWord gap) :
    Lexer.words (t.text.toList ++ gap) = t.bare :: Lexer.words gap := by
  obtain ⟨htrivia, hvalid, c, cs, htext, hcut⟩ := h
  obtain ⟨-, hagain⟩ := hcut.again htrivia hvalid hgap
  rw [List.take_length] at hagain
  rw [htext, String.toList_ofList, List.cons_append, hagain.words_cons htrivia, List.take_left,
    List.drop_left, ← htext]
  rfl

/-- **The significant tokens of a source are words**, if they are valid. -/
theorem isWord_of_mem {text : List Char} {t : Token} (h : t ∈ Lexer.tokensFrom .start text)
    (htrivia : t.kind.isTrivia = false) (hvalid : t.kind ≠ .invalid) : t.IsWord := by
  obtain ⟨first, c, cs, -, rfl⟩ := Lexer.mem_tokensFrom [] h
  have hend : Lexer.EndsWord [] := nofun
  obtain ⟨hle, hagain⟩ := (Lexer.cut_spec c cs).again htrivia hvalid hend
  rw [List.append_nil] at hagain
  refine ⟨htrivia, hvalid, c, cs.take (Lexer.cut c cs).2, rfl, ?_⟩
  rwa [List.length_take_of_le hle]

end Token

/-! ## Laying words out -/

namespace Lexer

/-- What may follow a word when other words are still to come: for each of
them a separator and its text, and perhaps a separator after the last. -/
inductive Tail : List String → List Char → Prop where
  | nil : Tail [] []
  | finish {gap : List Char} (hgap : Separator gap) : Tail [] gap
  | next {text : String} {texts : List String} {gap rest : List Char} (hgap : Separator gap)
    (hrest : Tail texts rest) : Tail (text :: texts) (gap ++ (text.toList ++ rest))

/-- A source that lays out texts: in order, with a separator between any
two of them, perhaps before the first, and perhaps after the last. -/
def LaysOut (source : String) (texts : List String) : Prop :=
  Tail texts source.toList ∨
    ∃ first others rest, texts = first :: others ∧ Tail others rest ∧
      source.toList = first.toList ++ rest

theorem Tail.endsWord {texts : List String} {rest : List Char} (h : Tail texts rest) :
    EndsWord rest := by
  cases h with
  | nil => nofun
  | finish hgap => exact hgap.endsWord
  | next hgap =>
      intro c hc
      rw [List.head?_append_of_ne_nil _ hgap.ne_nil] at hc
      exact hgap.endsWord c hc

theorem Tail.words_eq {ts : List Token} {rest : List Char} (hwords : ∀ t ∈ ts, t.IsWord)
    (h : Tail (ts.map (·.text)) rest) : words rest = ts.map Token.bare := by
  induction ts generalizing rest with
  | nil =>
      cases h with
      | nil => exact words_nil
      | finish hgap => rw [← List.append_nil rest, hgap.gap.words_append, words_nil]; rfl
  | cons t ts ih =>
      cases h with
      | next hgap hrest =>
          have ht := hwords t List.mem_cons_self
          rw [hgap.gap.words_append, ht.words_append hrest.endsWord,
            ih (fun u hu => hwords u (List.mem_cons_of_mem t hu)) hrest]
          rfl

/-- **A layout of words has these words.** -/
theorem LaysOut.words_eq {ts : List Token} {source : String} (hwords : ∀ t ∈ ts, t.IsWord)
    (h : LaysOut source (ts.map (·.text))) : words source.toList = ts.map Token.bare := by
  rcases h with h | ⟨first, others, rest, htexts, hrest, hsource⟩
  · exact h.words_eq hwords
  · cases ts with
    | nil => cases htexts
    | cons t ts =>
        obtain ⟨rfl, rfl⟩ := List.cons.inj htexts
        rw [hsource, (hwords t List.mem_cons_self).words_append hrest.endsWord,
          hrest.words_eq fun u hu => hwords u (List.mem_cons_of_mem t hu)]
        rfl

end Lexer

end WasmText
