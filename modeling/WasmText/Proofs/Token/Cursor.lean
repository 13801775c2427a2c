import WasmText.Token.Cursor
import WasmText.Token.Stream
import WasmText.Proofs.Token.Tiling
/-!
# Walks over tokens

A cursor reads a source lazily, with two tokens in hand, and a stream has
all tokens of the source at hand. Both are a position in the list of the
significant tokens: every operation answers from the token at that position
and the one after it, and moves the position on by one, back to the first,
or not at all (`atPosition`). The position is the number of tokens taken
since the last restart, up to the end of the source (`cursor_walks_tokens`).
-/

namespace WasmText

/-- The significant tokens of a source and its end. -/
def significantTokens (source : String) : List Token :=
  (Token.scan source).filter (!·.kind.isTrivia)

/-! ## Scanners -/

namespace Scanner

/-- The significant tokens that a scanner has yet to give. -/
def upcoming (s : Scanner) : List Token :=
  if s.done then []
  else
    let finish := s.position.after s.rest
    (Lexer.tokensFrom s.position s.rest ++ [Token.atEnd (Span.between finish finish)]).filter
      (!·.kind.isTrivia)

/-- From the start of a source all its significant tokens come up. -/
theorem upcoming_ofSource (source : String) :
    (ofSource source).upcoming = significantTokens source := rfl

theorem next?_of_done {s : Scanner} (h : s.done = true) : s.next? = none := if_pos h

/-- At the end of the source a scanner gives the end once. -/
theorem next?_of_nil {s : Scanner} (h : s.done = false) (hrest : s.rest = []) :
    s.next? = some (.atEnd (.between s.position s.position), { s with done := true }) := by
  rw [next?, h, hrest]
  rfl

/-- Before the end it gives the lexeme that the rules cut off. -/
theorem next?_of_cons {s : Scanner} {c : Char} {cs : List Char} (h : s.done = false)
    (hrest : s.rest = c :: cs) :
    s.next? = some
      (⟨(Lexer.cut c cs).1, String.ofList (Lexer.lexeme c cs),
        .between s.position (s.position.after (Lexer.lexeme c cs))⟩,
      ⟨s.position.after (Lexer.lexeme c cs), cs.drop (Lexer.cut c cs).2, false⟩) := by
  rw [next?, h, hrest]
  rfl

/-- Where a scanner gives nothing, nothing comes up. -/
theorem upcoming_of_next?_eq_none {s : Scanner} (h : s.next? = none) : s.upcoming = [] := by
  cases hdone : s.done with
  | true => exact if_pos hdone
  | false =>
      cases hrest : s.rest with
      | nil => simp [next?_of_nil hdone hrest] at h
      | cons c cs => simp [next?_of_cons hdone hrest] at h

/-- What comes up is the next token, if it is significant, and what comes
up after it. -/
theorem upcoming_of_next?_eq_some {s s' : Scanner} {t : Token} (h : s.next? = some (t, s')) :
    s.upcoming = if t.kind.isTrivia then s'.upcoming else t :: s'.upcoming := by
  cases hdone : s.done with
  | true => simp [next?_of_done hdone] at h
  | false =>
      cases hrest : s.rest with
      | nil =>
          rw [next?_of_nil hdone hrest] at h
          obtain ⟨rfl, rfl⟩ := Prod.mk.inj (Option.some.inj h)
          simp [upcoming, hdone, hrest, Lexer.tokensFrom_nil, Position.after, Token.atEnd,
            Token.Kind.isTrivia]
      | cons c cs =>
          have hafter : s.position.after (c :: cs) =
              (s.position.after (Lexer.lexeme c cs)).after (cs.drop (Lexer.cut c cs).2) := by
            rw [← Position.after_append, Lexer.lexeme_append_drop]
          rw [next?_of_cons hdone hrest] at h
          obtain ⟨rfl, rfl⟩ := Prod.mk.inj (Option.some.inj h)
          by_cases htrivia : (Lexer.cut c cs).1.isTrivia = true
          · simp [upcoming, hdone, hrest, hafter, Lexer.tokensFrom_cons, htrivia]
          · simp [upcoming, hdone, hrest, hafter, Lexer.tokensFrom_cons, htrivia]

/-- **A scanner gives what comes up**, one significant token at a time, and
past the end of the source an end with no place. -/
theorem significant_spec (s : Scanner) :
    s.significant.1 = s.upcoming.headD (.atEnd .zero) ∧
      s.significant.2.upcoming = s.upcoming.tail := by
  induction s using significant.induct with
  | case1 s h =>
      rw [significant, h, upcoming_of_next?_eq_none h]
      exact ⟨rfl, rfl⟩
  | case2 s t s' h htrivia ih =>
      rw [significant, h, upcoming_of_next?_eq_some h]
      simpa [htrivia] using ih
  | case3 s t s' h htrivia =>
      rw [significant, h, upcoming_of_next?_eq_some h]
      simp [htrivia]

end Scanner

/-! ## Positions -/

/-- The token at a position of a list, or an end with no place. -/
def tokenAt (tokens : List Token) (i : Nat) : Token := tokens[i]?.getD (.atEnd .zero)

/-- The first of the tokens from a position on is the one at it. -/
theorem headD_drop (tokens : List Token) (i : Nat) :
    (tokens.drop i).headD (.atEnd .zero) = tokenAt tokens i := by
  rw [List.headD_eq_head?_getD, List.head?_drop, tokenAt]

theorem tokenAt_drop (tokens : List Token) (i k : Nat) :
    tokenAt (tokens.drop i) k = tokenAt tokens (i + k) := by
  rw [tokenAt, List.getElem?_drop, tokenAt]

/-- The significant tokens are those of a stream and the end. -/
theorem significantTokens_eq (source : String) :
    significantTokens source = (Stream.ofSource source).all ++ [Token.endOf source] := by
  rw [significantTokens, Token.scan, List.filter_append]
  rfl

/-- None of the tokens of a stream is the end. -/
theorem kind_ne_eof_of_mem {source : String} {t : Token} (h : t ∈ (Stream.ofSource source).all) :
    t.kind ≠ .eof := by
  obtain ⟨first, c, cs, -, rfl⟩ := Lexer.mem_tokensFrom [] (List.mem_filter.1 h).1
  exact (Lexer.cut_spec c cs).kind_ne_eof

/-- The last of the significant tokens and no other is the end. -/
theorem kind_tokenAt_iff {source : String} {i : Nat} (hi : i < (significantTokens source).length) :
    (tokenAt (significantTokens source) i).kind = .eof ↔
      i = (significantTokens source).length - 1 := by
  rw [significantTokens_eq] at hi ⊢
  rw [List.length_append, List.length_singleton] at hi ⊢
  rcases Nat.lt_or_ge i (Stream.ofSource source).all.length with hlt | hge
  · have hat : tokenAt ((Stream.ofSource source).all ++ [Token.endOf source]) i =
        (Stream.ofSource source).all[i] := by
      rw [tokenAt, List.getElem?_append_left hlt, List.getElem?_eq_getElem hlt, Option.getD_some]
    rw [hat]
    exact iff_of_false (kind_ne_eof_of_mem (List.getElem_mem hlt)) (by omega)
  · obtain rfl : i = (Stream.ofSource source).all.length := by omega
    simp [tokenAt, Token.endOf, Token.atEnd]

namespace Cursor

/-- The answer of an operation where the current and the following token
are as given. -/
def Operation.reply (current following : Token) : Operation → Reply
  | restart => .done
  | advance => .token current
  | .current => .token current
  | .following => .token following
  | currentFits p => .truth (p.fits current)
  | accept p => if p.fits current then .token current else .refused
  | expect p =>
    if p.fits current then .token current else .failed (.unexpected p.kind p.value current)

/-- Whether an operation takes the current token. -/
def Operation.takes (current : Token) : Operation → Bool
  | advance => true
  | accept p | expect p => p.fits current
  | _ => false

/-- The position after an operation. The last one is not passed. -/
def Operation.move (tokens : List Token) (i : Nat) (op : Operation) : Nat :=
  if op = restart then 0
  else if op.takes (tokenAt tokens i) then min (i + 1) (tokens.length - 1)
  else i

/-- Operations on a position in a list of tokens. -/
def atPosition (tokens : List Token) (i : Nat) (op : Operation) : Reply × Nat :=
  (op.reply (tokenAt tokens i) (tokenAt tokens (i + 1)), op.move tokens i)

/-- A cursor at a position in the tokens of a source. -/
structure At (source : String) (c : Cursor) (i : Nat) : Prop where
  origin : c.source = source
  inside : i < (significantTokens source).length
  current : c.current = tokenAt (significantTokens source) i
  following : c.following = tokenAt (significantTokens source) (i + 1)
  scanner : c.scanner.upcoming = (significantTokens source).drop (i + 2)

variable {source : String} {c : Cursor} {i : Nat}

/-- A cursor starts at the first token, with the second in hand. -/
theorem at_ofSource (source : String) : At source (ofSource source) 0 := by
  obtain ⟨hfirst, hrest⟩ := (Scanner.ofSource source).significant_spec
  obtain ⟨hsecond, hafter⟩ := (Scanner.ofSource source).significant.2.significant_spec
  rw [Scanner.upcoming_ofSource] at hfirst hrest
  rw [hrest, ← List.drop_one] at hsecond hafter
  refine ⟨rfl, ?_, hfirst.trans (headD_drop _ 0), hsecond.trans (headD_drop _ 1), ?_⟩
  · simp [significantTokens_eq]
  · rw [ofSource, hafter, ← List.drop_one, List.drop_drop]

/-- Past the end there is nowhere to go, and before it the token in hand
becomes the current one. -/
theorem At.advance (h : At source c i) :
    c.advance.1 = c.current ∧
      At source c.advance.2 (min (i + 1) ((significantTokens source).length - 1)) := by
  have hinside := h.inside
  have hend := kind_tokenAt_iff hinside
  rw [← h.current] at hend
  unfold Cursor.advance
  split
  · next heof =>
      have hlast := hend.1 heof
      refine ⟨rfl, ?_⟩
      rw [Nat.min_eq_right (by omega), ← hlast]
      exact h
  · next heof =>
      have hnext : i + 1 < (significantTokens source).length := by
        have hlast : i ≠ (significantTokens source).length - 1 := fun hi => heof (hend.2 hi)
        omega
      obtain ⟨hfollowing, hscanner⟩ := c.scanner.significant_spec
      rw [h.scanner] at hfollowing hscanner
      refine ⟨rfl, ?_⟩
      rw [Nat.min_eq_left (by omega)]
      refine ⟨h.origin, hnext, h.following, hfollowing.trans (headD_drop _ _), ?_⟩
      rw [hscanner, List.tail_drop]

/-- Accepting takes a token that fits, and is refused otherwise. -/
theorem perform_accept (c : Cursor) (p : Token.Pattern) :
    c.perform (.accept p) =
      if p.fits c.current then (.token c.advance.1, c.advance.2) else (.refused, c) := by
  by_cases h : p.fits c.current = true
  · simp [Cursor.perform, accept, h]
  · simp [Cursor.perform, accept, h]

/-- Expecting takes a token that fits, and fails otherwise. -/
theorem perform_expect (c : Cursor) (p : Token.Pattern) :
    c.perform (.expect p) =
      if p.fits c.current then (.token c.advance.1, c.advance.2)
      else (.failed (.unexpected p.kind p.value c.current), c) := by
  by_cases h : p.fits c.current = true
  · simp [Cursor.perform, expect, accept, h]
  · simp [Cursor.perform, expect, accept, h]

/-- An operation that takes nothing leaves the cursor as it was. -/
theorem perform_of_not_takes {op : Operation} (hop : op ≠ .restart)
    (h : op.takes c.current = false) : (c.perform op).2 = c := by
  cases op with
  | restart => exact absurd rfl hop
  | advance => cases h
  | current | following | currentFits p => rfl
  | accept p =>
      have hfits : p.fits c.current = false := h
      simp [perform_accept, hfits]
  | expect p =>
      have hfits : p.fits c.current = false := h
      simp [perform_expect, hfits]

/-- **A cursor is a position in the tokens of its source.** -/
theorem At.perform (h : At source c i) (op : Operation) :
    (c.perform op).1 = (atPosition (significantTokens source) i op).1 ∧
      At source (c.perform op).2 (atPosition (significantTokens source) i op).2 := by
  obtain ⟨htaken, hadvance⟩ := h.advance
  cases op with
  | restart =>
      refine ⟨rfl, ?_⟩
      rw [Cursor.perform, h.origin]
      exact at_ofSource source
  | advance => exact ⟨congrArg Reply.token (htaken.trans h.current), hadvance⟩
  | current => exact ⟨congrArg Reply.token h.current, h⟩
  | following => exact ⟨congrArg Reply.token h.following, h⟩
  | currentFits p => exact ⟨congrArg (fun t => Reply.truth (p.fits t)) h.current, h⟩
  | accept p =>
      rw [perform_accept, atPosition, Operation.reply, Operation.move, Operation.takes, ← h.current]
      by_cases hfits : p.fits c.current = true
      · simpa [hfits] using ⟨htaken, hadvance⟩
      · simpa [hfits] using h
  | expect p =>
      rw [perform_expect, atPosition, Operation.reply, Operation.move, Operation.takes, ← h.current]
      by_cases hfits : p.fits c.current = true
      · simpa [hfits] using ⟨htaken, hadvance⟩
      · simpa [hfits] using h

end Cursor

/-! ## Streams -/

namespace Stream

open Cursor (Operation Reply atPosition)

/-- What a stream gives for a token that may be there. -/
def optional (s : Stream) : Option (Token × Stream) → Reply × Stream
  | some (t, s') => (.token t, s')
  | none => (.refused, s)

/-- What a stream gives for a token that must be there. -/
def required (s : Stream) : Except ParseError (Token × Stream) → Reply × Stream
  | .ok (t, s') => (.token t, s')
  | .error e => (.failed e, s)

/-- The operations of a cursor on a stream. -/
def perform (s : Stream) : Operation → Reply × Stream
  | .restart => (.done, s.restart)
  | .advance => (.token s.current, s.advance)
  | .current => (.token s.current, s)
  | .following => (.token s.following, s)
  | .currentFits ⟨kind, none⟩ => (.truth (s.currentIs kind), s)
  | .currentFits ⟨kind, some value⟩ => (.truth (s.current.is kind value), s)
  | .accept ⟨kind, none⟩ => s.optional (s.accept kind)
  | .accept ⟨kind, some value⟩ => s.optional (s.acceptValue kind value)
  | .expect ⟨kind, none⟩ => s.required (s.expect kind)
  | .expect ⟨kind, some value⟩ => s.required (s.expectValue kind value)

/-- A stream at a position in the tokens of a source. -/
structure At (source : String) (s : Stream) (i : Nat) : Prop where
  all : s.all = (ofSource source).all
  finish : s.finish = (Token.endOf source).span
  inside : i < (significantTokens source).length
  ahead : s.ahead = (ofSource source).all.drop i

variable {source : String} {s : Stream} {i : Nat}

/-- There is one significant token more than a stream has, the end. -/
theorem length_significantTokens (source : String) :
    (significantTokens source).length = (ofSource source).all.length + 1 := by
  rw [significantTokens_eq, List.length_append, List.length_singleton]

/-- What is ahead, with the end, is what the tokens have from the position
on. -/
theorem At.drop_eq (h : At source s i) :
    (significantTokens source).drop i = s.ahead ++ [.atEnd s.finish] := by
  have hinside := h.inside
  rw [length_significantTokens] at hinside
  rw [significantTokens_eq, List.drop_append_of_le_length (by omega), h.ahead, h.finish]
  rfl

/-- The current token of a stream is the one at its position. -/
theorem At.current_eq (h : At source s i) : s.current = tokenAt (significantTokens source) i := by
  rw [← Nat.add_zero i, ← tokenAt_drop, h.drop_eq, current]
  cases s.ahead <;> rfl

/-- The token after it is the one at the next position. -/
theorem At.following_eq (h : At source s i) :
    s.following = tokenAt (significantTokens source) (i + 1) := by
  rw [← tokenAt_drop, h.drop_eq, following]
  rcases s.ahead with _ | ⟨t, _ | ⟨t', ts⟩⟩ <;> rfl

/-- A stream moves on by one, and stays at the end. -/
theorem At.advance (h : At source s i) :
    At source s.advance (min (i + 1) ((significantTokens source).length - 1)) := by
  have hinside := h.inside
  rw [length_significantTokens] at hinside ⊢
  refine ⟨h.all, h.finish, by rw [length_significantTokens]; omega, ?_⟩
  rw [Stream.advance, h.ahead, List.tail_drop, Nat.add_sub_cancel]
  rcases Nat.lt_or_ge i (ofSource source).all.length with hlt | hge
  · rw [Nat.min_eq_left (by omega)]
  · -- at the end both lists are empty
    rw [List.drop_eq_nil_of_le (by omega), List.drop_eq_nil_of_le (by omega)]

/-- Whether the current token fits is answered for a class with and without
a value. -/
theorem perform_currentFits (s : Stream) (p : Token.Pattern) :
    s.perform (.currentFits p) = (.truth (p.fits s.current), s) := by
  obtain ⟨kind, value⟩ := p
  cases value <;> rfl

/-- Accepting takes a token that fits, by its class or by class and value.
-/
theorem perform_accept (s : Stream) (p : Token.Pattern) :
    s.perform (.accept p) =
      if p.fits s.current then (.token s.current, s.advance) else (.refused, s) := by
  obtain ⟨kind, value⟩ := p
  cases value with
  | none =>
      by_cases h : s.current.kind = kind
      · simp [perform, accept, optional, Token.Pattern.fits, h]
      · simp [perform, accept, optional, Token.Pattern.fits, h]
  | some value =>
      by_cases h : s.current.is kind value = true
      · simp [perform, acceptValue, optional, Token.Pattern.fits, h]
      · simp [perform, acceptValue, optional, Token.Pattern.fits, h]

/-- Expecting does, or fails at the token that is there. -/
theorem perform_expect (s : Stream) (p : Token.Pattern) :
    s.perform (.expect p) =
      if p.fits s.current then (.token s.current, s.advance)
      else (.failed (.unexpected p.kind p.value s.current), s) := by
  obtain ⟨kind, value⟩ := p
  cases value with
  | none =>
      by_cases h : s.current.kind = kind
      · simp [perform, expect, accept, required, Token.Pattern.fits, h]
      · simp [perform, expect, accept, required, Token.Pattern.fits, h]
  | some value =>
      by_cases h : s.current.is kind value = true
      · simp [perform, expectValue, acceptValue, required, Token.Pattern.fits, h]
      · simp [perform, expectValue, acceptValue, required, Token.Pattern.fits, h]

/-- **A stream is a position in the tokens of its source.** -/
theorem At.perform (h : At source s i) (op : Operation) :
    (s.perform op).1 = (atPosition (significantTokens source) i op).1 ∧
      At source (s.perform op).2 (atPosition (significantTokens source) i op).2 := by
  have hadvance := h.advance
  cases op with
  | restart => exact ⟨rfl, h.all, h.finish, Nat.zero_lt_of_lt h.inside, h.all⟩
  | advance => exact ⟨congrArg Reply.token h.current_eq, hadvance⟩
  | current => exact ⟨congrArg Reply.token h.current_eq, h⟩
  | following => exact ⟨congrArg Reply.token h.following_eq, h⟩
  | currentFits p =>
      rw [perform_currentFits, h.current_eq]
      exact ⟨rfl, h⟩
  | accept p =>
      rw [perform_accept, atPosition, Operation.reply, Operation.move, Operation.takes,
        ← h.current_eq]
      by_cases hfits : p.fits s.current = true
      · simpa [hfits] using hadvance
      · simpa [hfits] using h
  | expect p =>
      rw [perform_expect, atPosition, Operation.reply, Operation.move, Operation.takes,
        ← h.current_eq]
      by_cases hfits : p.fits s.current = true
      · simpa [hfits] using hadvance
      · simpa [hfits] using h

theorem at_ofSource (source : String) : At source (ofSource source) 0 where
  all := rfl
  finish := rfl
  inside := by simp [length_significantTokens]
  ahead := rfl

end Stream

/-! ## Walks -/

namespace Cursor

/-- One operation after the other, with their replies. -/
def walk {σ : Type} (step : σ → Operation → Reply × σ) (start : σ) (ops : List Operation) :
    List (Operation × Reply) × σ :=
  ops.foldl (fun w op => (w.1 ++ [(op, (step w.2 op).1)], (step w.2 op).2)) ([], start)

/-- A walk of one more operation is the walk and then the operation. -/
theorem walk_concat {σ : Type} (step : σ → Operation → Reply × σ) (start : σ)
    (ops : List Operation) (op : Operation) :
    walk step start (ops ++ [op]) =
      ((walk step start ops).1 ++ [(op, (step (walk step start ops).2 op).1)],
        (step (walk step start ops).2 op).2) := by
  rw [walk, List.foldl_append]
  rfl

/-- **Walks that answer alike at every step answer alike.** -/
theorem walk_simulates {σ τ : Type} {R : σ → τ → Prop} {step : σ → Operation → Reply × σ}
    {step' : τ → Operation → Reply × τ} {start : σ} {start' : τ} (hstart : R start start')
    (hstep : ∀ s t op, R s t → (step s op).1 = (step' t op).1 ∧ R (step s op).2 (step' t op).2)
    (ops : List Operation) :
    (walk step start ops).1 = (walk step' start' ops).1 ∧
      R (walk step start ops).2 (walk step' start' ops).2 := by
  induction ops using List.reverseRecOn with
  | nil => exact ⟨rfl, hstart⟩
  | append_singleton ops op ih =>
      obtain ⟨htrace, hrelated⟩ := ih
      obtain ⟨hreply, hafter⟩ := hstep _ _ op hrelated
      rw [walk_concat, walk_concat, htrace, hreply]
      exact ⟨rfl, hafter⟩

/-- Whether an operation took a token, by its reply. -/
def took : Operation × Reply → Bool
  | (.advance, _) => true
  | (.accept _, .token _) => true
  | (.expect _, .token _) => true
  | _ => false

/-- How many tokens were taken since the last restart. -/
def taken (trace : List (Operation × Reply)) : Nat :=
  (trace.reverse.takeWhile (·.1 != .restart)).countP took

/-- An answer shows whether a token was taken. -/
theorem took_reply (op : Operation) (current following : Token) :
    took (op, op.reply current following) = op.takes current := by
  cases op with
  | accept p | expect p =>
      by_cases h : p.fits current = true
      · simp [took, Operation.reply, Operation.takes, h]
      · simp [took, Operation.reply, Operation.takes, h]
  | _ => rfl

/-- A restart sets the number of tokens taken to none, and an operation
adds the one it takes. -/
theorem taken_concat (trace : List (Operation × Reply)) (op : Operation) (reply : Reply) :
    taken (trace ++ [(op, reply)]) =
      if op = .restart then 0
      else if took (op, reply) then taken trace + 1
      else taken trace := by
  rw [taken, taken, List.reverse_append, List.reverse_singleton, List.singleton_append,
    List.takeWhile_cons]
  by_cases hop : op = .restart
  · simp [hop]
  · simp only [bne_iff_ne, ne_eq, hop, not_false_eq_true, if_true, if_false, List.countP_cons]
    split <;> rfl

/-- **The position is the number of tokens taken**, up to the last. -/
theorem position_walk (tokens : List Token) (ops : List Operation) :
    (walk (atPosition tokens) 0 ops).2 =
      min (taken (walk (atPosition tokens) 0 ops).1) (tokens.length - 1) := by
  induction ops using List.reverseRecOn with
  | nil => exact (Nat.zero_min _).symm
  | append_singleton ops op ih =>
      rw [walk_concat, taken_concat, atPosition, took_reply, Operation.move]
      split
      · exact (Nat.zero_min _).symm
      · split
        · rw [ih]
          omega
        · exact ih

/-- **A cursor walks over the significant tokens of its source.** After any
operations the current token is the one whose position is the number of
tokens taken since the last restart, or the end of the source if that is
more. The following token is the next one, and beyond the end an end at
the start of the source. The reply of every operation is read off these
two. A token is accepted, or given where it is expected, exactly when the
current one fits. Where it does not, and for a mere look, the cursor is
left as it was, and an error has the place of the current token. The
stream that the parser reads gives the same replies and shows the same
tokens. -/
theorem cursor_walks_tokens (source : String) (ops : List Operation)
    (trace : List (Operation × Reply)) (c : Cursor) (i : Nat)
    (h : walk perform (ofSource source) ops = (trace, c))
    (hi : i = min (taken trace) ((significantTokens source).length - 1)) :
    (significantTokens source)[i]? = some c.current ∧
      c.following = (significantTokens source)[i + 1]?.getD (.atEnd ⟨0, 0, 1, 1⟩) ∧
      (∀ op, (c.perform op).1 = op.reply c.current c.following) ∧
      (∀ p, (took (.accept p, (c.perform (.accept p)).1) = true ↔ p.fits c.current = true) ∧
        (took (.expect p, (c.perform (.expect p)).1) = true ↔ p.fits c.current = true)) ∧
      (∀ op ≠ .restart, op.takes c.current = false → (c.perform op).2 = c) ∧
      (∀ p e, (c.perform (.expect p)).1 = .failed e → e.span = c.current.span) ∧
      ∃ s, walk Stream.perform (.ofSource source) ops = (trace, s) ∧ s.current = c.current ∧
        s.following = c.following := by
  have hstart := at_ofSource source
  obtain ⟨htrace, hat⟩ := walk_simulates hstart (fun c i op hc => hc.perform op) ops
  obtain ⟨hstream, hshown⟩ := walk_simulates (Stream.at_ofSource source)
    (fun s i op hs => hs.perform op) ops
  have hposition := position_walk (significantTokens source) ops
  rw [← htrace, h, ← hi] at hposition
  rw [← htrace, h] at hstream
  rw [h, hposition] at hat
  rw [hposition] at hshown
  have hreply : ∀ op, (c.perform op).1 = op.reply c.current c.following := by
    intro op
    rw [hat.current, hat.following]
    exact (hat.perform op).1
  refine ⟨?_, hat.following, hreply, fun p => ?_, fun op hop htakes => ?_, fun p e he => ?_,
    _, Prod.ext hstream rfl, hshown.current_eq.trans hat.current.symm,
    hshown.following_eq.trans hat.following.symm⟩
  · rw [hat.current, tokenAt, List.getElem?_eq_getElem hat.inside, Option.getD_some]
  · rw [hreply, hreply, took_reply, took_reply]
    exact ⟨Iff.rfl, Iff.rfl⟩
  · exact perform_of_not_takes hop htakes
  · by_cases hfits : p.fits c.current = true
    · simp [perform_expect, hfits] at he
    · obtain rfl : ParseError.unexpected p.kind p.value c.current = e := by
        simpa [perform_expect, hfits] using he
      rfl

/-- Past the end, back to the start, and on by one. -/
def thereAndBack : List Operation :=
  [.advance, .accept ⟨.label, none⟩, .advance, .advance, .restart, .expect ⟨.leftParen, some "("⟩]

theorem cursor_walks_tokens_back :
    taken (walk perform (ofSource "( )") thereAndBack).1 = 1 ∧
      (walk perform (ofSource "( )") thereAndBack).2.current =
        ⟨.rightParen, ")", ⟨2, 3, 1, 3⟩⟩ := by
  have htokens : significantTokens "( )" =
      [⟨.leftParen, "(", ⟨0, 1, 1, 1⟩⟩, ⟨.rightParen, ")", ⟨2, 3, 1, 3⟩⟩,
        ⟨.eof, "", ⟨3, 3, 1, 4⟩⟩] := by
    decide +kernel
  have htaken : taken (walk perform (ofSource "( )") thereAndBack).1 = 1 := by
    rw [(walk_simulates (at_ofSource "( )") (fun c i op hc => hc.perform op) thereAndBack).1,
      htokens]
    decide
  have hi : 1 = min (taken (walk perform (ofSource "( )") thereAndBack).1)
      ((significantTokens "( )").length - 1) := by
    rw [htaken, htokens]
    decide
  have hcurrent := (cursor_walks_tokens "( )" thereAndBack
    (walk perform (ofSource "( )") thereAndBack).1 (walk perform (ofSource "( )") thereAndBack).2 1
    (Prod.eta _).symm hi).1
  rw [htokens] at hcurrent
  exact ⟨htaken, (Option.some.inj hcurrent).symm⟩

end Cursor

end WasmText
