import WasmText.Proofs.Tree.Guise
import WasmText.Proofs.Tree.Reading
import WasmText.Proofs.Token.Layout
/-!
# Parsing does not look at places

A stream without places is read to the tree without its places, and fails
where the stream with places does. So up to places a source is parsed to
what its words alone are parsed to (`parse_words`): layout and comments,
which only move the words, make no difference.
-/

namespace WasmText

/-! ## Without places -/

namespace Token

@[simp] theorem bare_kind (t : Token) : t.bare.kind = t.kind := rfl

@[simp] theorem bare_span (t : Token) : t.bare.span = .zero := rfl

@[simp] theorem bare_value (t : Token) : t.bare.value = t.value := rfl

@[simp] theorem bare_is (t : Token) (kind : Kind) (value : String) :
    t.bare.is kind value = t.is kind value := rfl

end Token

def ParseError.Cause.bare : ParseError.Cause → ParseError.Cause
  | .expected kind value found => .expected kind value found.bare
  | cause => cause

def ParseError.bare (e : ParseError) : ParseError := ⟨e.cause.bare, .zero⟩

/-- What was read, changed by `f`, or the error without its places. -/
def unplaced {α β : Type} (f : α → β) : Except ParseError α → Except ParseError β
  | .ok a => .ok (f a)
  | .error e => .error e.bare

/-- A result that is given without a step is the changed result. -/
theorem unplaced_pure {α β : Type} (f : α → β) (a : α) : unplaced f (pure a) = .ok (f a) := rfl

/-- A step after another without places is the two steps without places. -/
theorem bind_unplaced {α α' β β' : Type} {f : α → α'} {h : β → β'} {x : Except ParseError α}
    {k : α → Except ParseError β} {k' : α' → Except ParseError β'}
    (hk : ∀ a, x = .ok a → k' (f a) = unplaced h (k a)) :
    unplaced f x >>= k' = unplaced h (x >>= k) := by
  cases x with
  | error e => rfl
  | ok a => exact hk a rfl

@[simp] theorem Span.through_zero : Span.zero.through .zero = .zero := rfl

namespace Stream

def bare (s : Stream) : Stream := ⟨s.all.map Token.bare, s.ahead.map Token.bare, .zero⟩

variable (s : Stream)

@[simp] theorem current_bare : s.bare.current = s.current.bare := by
  unfold current bare
  cases s.ahead <;> rfl

@[simp] theorem advance_bare : s.bare.advance = s.advance.bare := by
  simp [advance, bare, List.map_tail]

/-- The token after the current one loses its place too. -/
theorem following_bare : s.bare.following = s.following.bare := by
  unfold following bare
  match s.ahead with
  | [] => rfl
  | [_] => rfl
  | _ :: _ :: _ => rfl

/-- What class the current token has does not depend on places. -/
@[simp] theorem currentIs_bare (kind : Token.Kind) : s.bare.currentIs kind = s.currentIs kind := by
  simp [currentIs]

/-- A token is taken or left for its class, and what is left has no places
either. -/
theorem accept_bare (kind : Token.Kind) :
    s.bare.accept kind = (s.accept kind).map (Prod.map Token.bare bare) := by
  unfold accept
  rw [current_bare, advance_bare, Token.bare_kind]
  split <;> rfl

/-- The same for its class and value. -/
theorem acceptValue_bare (kind : Token.Kind) (value : String) :
    s.bare.acceptValue kind value = (s.acceptValue kind value).map (Prod.map Token.bare bare) := by
  unfold acceptValue
  rw [current_bare, advance_bare, Token.bare_is]
  split <;> rfl

/-- A token that must be there is there, or the error is the same up to
places. -/
theorem expect_bare (kind : Token.Kind) :
    s.bare.expect kind = unplaced (Prod.map Token.bare bare) (s.expect kind) := by
  unfold expect
  rw [accept_bare, current_bare]
  cases s.accept kind <;> rfl

theorem expectValue_bare (kind : Token.Kind) (value : String) :
    s.bare.expectValue kind value =
      unplaced (Prod.map Token.bare bare) (s.expectValue kind value) := by
  unfold expectValue
  rw [acceptValue_bare, current_bare]
  cases s.acceptValue kind value <;> rfl

end Stream

namespace Expr

/-- A reference keeps its name. -/
theorem bare_ref (name : String) (span : Span) : (ref name span).bare = .ref name .zero :=
  dress_ref _ _

theorem bare_data (bytes : List UInt8) (span : Span) : (data bytes span).bare = .data bytes .zero :=
  dress_data _ _

/-- A form keeps its word, and its label, arguments and children lose their
places. -/
theorem bare_node (head : Head) (children : List Expr) :
    (node head children).bare = .node (head.dress .bare) (children.map bare) := dress_node _ _

theorem bare_isSignature (e : Expr) : e.bare.isSignature = e.isSignature := dress_isSignature e

/-- A choice that does not look at places is the same choice. -/
theorem filter_bare {keep : Expr → Bool} (hkeep : ∀ e : Expr, keep e.bare = keep e)
    (es : List Expr) : (es.map bare).filter keep = (es.filter keep).map bare :=
  filter_dress hkeep es

/-- Trees without places reach over no place. -/
theorem foldl_through_dress {g : Guise} (hplace : ∀ span, g.place span = .zero) (es : List Expr) :
    (es.map (·.dress g)).foldl (fun (span : Span) e => span.through e.span) .zero = .zero := by
  induction es with
  | nil => rfl
  | cons e es ih =>
      rw [List.map_cons, List.foldl_cons, dress_span, hplace]
      exact ih

/-- Joining places that are gone leaves none. -/
theorem foldl_through_bare (es : List Expr) :
    (es.map bare).foldl (fun (span : Span) e => span.through e.span) .zero = .zero :=
  foldl_through_dress (fun _ => rfl) es

end Expr

namespace Parser

/-! ## Leaves -/

/-- A string has the same bytes, or the same fault. -/
theorem ofToken_bare (t : Token) :
    StringLiteral.ofToken t.bare = unplaced id (StringLiteral.ofToken t) := by
  unfold StringLiteral.ofToken
  rw [Token.bare_value]
  cases StringLiteral.decode t.value.toList <;> rfl

/-- The word after a parenthesis is the same. -/
theorem readHead_bare (s : Stream) :
    readHead s.bare = unplaced (Prod.map Token.bare Stream.bare) (readHead s) := by
  rw [readHead_eq, readHead_eq, s.accept_bare, s.expect_bare]
  cases s.accept .reserved <;> rfl

/-- So is the label after it. -/
theorem readLabel_bare (s : Stream) :
    readLabel s.bare =
      Prod.map (Option.map (Label.dress .bare)) Stream.bare (readLabel s) := by
  rw [readLabel_eq, readLabel_eq, s.accept_bare]
  cases s.accept .label <;> rfl

/-- A label at the end is compared by its name alone. -/
theorem readClosing_bare (name : Option Label) (s : Stream) :
    readClosing (name.map (Label.dress .bare)) s.bare =
      unplaced Stream.bare (readClosing name s) := by
  rw [readClosing_eq, readClosing_eq, s.accept_bare]
  cases s.accept .label with
  | none => rfl
  | some taken =>
      have hname : (name.map (Label.dress .bare)).map (·.name) = name.map (·.name) := by
        rw [Option.map_map]
        rfl
      simp only [Option.map_some, Prod.map, hname, Token.bare_value]
      split <;> rfl

/-- A keyword has the same value. -/
theorem readKeyword_bare (t : Token) (s : Stream) :
    readKeyword t.bare s.bare =
      unplaced (Prod.map (Param.dress .bare) Stream.bare) (readKeyword t s) := by
  rw [readKeyword_eq, readKeyword_eq, Token.bare_value, s.accept_bare, s.expect_bare]
  cases Keyword.ofWord? (trimEquals t.value) with
  | none => rfl
  | some key =>
      dsimp only
      split
      · cases s.accept .number with
        | some taken => rfl
        | none => exact bind_unplaced fun taken _ => rfl
      · rfl

/-- One argument is read to the same argument. -/
theorem readParam_bare (s : Stream) :
    readParam s.bare =
      unplaced (Option.map (Prod.map (Param.dress .bare) Stream.bare)) (readParam s) := by
  rw [readParam_eq, readParam_eq, s.current_bare, Token.bare_kind, s.advance_bare]
  split
  · rfl
  · rfl
  · rw [ofToken_bare]
    exact bind_unplaced fun bytes _ => rfl
  · rfl
  · rw [readKeyword_bare]
    exact bind_unplaced fun taken _ => rfl
  · rfl

/-! ## What is left is less -/

/-- What is left after a function with a bound keeps to the bound. -/
theorem loose_bound {α : Type} {p : Stream → Prop} {x : Except ParseError (α × { s : Stream // p s })}
    {a : α} {s : Stream} (h : loose <$> x = .ok (a, s)) : p s := by
  cases x with
  | error e => cases h
  | ok r =>
      obtain rfl : r.2.1 = s := congrArg Prod.snd (Except.ok.inj h)
      exact r.2.2

/-- The same for a function that may read nothing. -/
theorem loose_bound? {α : Type} {p : Stream → Prop}
    {x : Except ParseError (Option (α × { s : Stream // p s }))} {a : α} {s : Stream}
    (h : (·.map loose) <$> x = .ok (some (a, s))) : p s := by
  cases x with
  | error e => cases h
  | ok found =>
      cases found with
      | none => cases h
      | some r =>
          obtain rfl : r.2.1 = s := congrArg Prod.snd (Option.some.inj (Except.ok.inj h))
          exact r.2.2

/-- An argument takes a token. -/
theorem pending_of_readParam {s s' : Stream} {p : Param} (h : readParam s = .ok (some (p, s'))) :
    s'.pending < s.pending := loose_bound? h

/-- A label at the end takes one or none. -/
theorem pending_of_readClosing {name : Option Label} {s s' : Stream}
    (h : readClosing name s = .ok s') : s'.pending ≤ s.pending := by
  rw [readClosing] at h
  cases hclosing : closingLabel name s with
  | error e => rw [hclosing] at h; cases h
  | ok r =>
      rw [hclosing] at h
      obtain rfl : r.1 = s' := Except.ok.inj h
      exact r.2

/-- **Arguments are read without places as they are with them**, by
induction on the tokens ahead. -/
theorem readParams_bare (s : Stream) :
    readParams s.bare =
      unplaced (Prod.map (List.map (Param.dress .bare)) Stream.bare) (readParams s) := by
  induction hn : s.pending using Nat.strongRecOn generalizing s with
  | ind n ih =>
      rw [readParams_eq, readParams_eq, readParam_bare]
      refine bind_unplaced fun found hfound => ?_
      cases found with
      | none => rfl
      | some taken =>
          obtain ⟨p, s₁⟩ := taken
          have hlt : s₁.pending < n := hn ▸ pending_of_readParam hfound
          dsimp only [Option.map_some, Prod.map]
          rw [ih _ hlt s₁ rfl]
          exact bind_unplaced fun rest _ => rfl

/-- **Strings side by side are read without places as they are with them.**
The place that has been reached so far is of no consequence. -/
theorem readStrings_bare (span : Span) (s : Stream) :
    readStrings .zero s.bare =
      unplaced (Prod.map (Prod.map id fun _ => .zero) Stream.bare) (readStrings span s) := by
  induction hn : s.pending using Nat.strongRecOn generalizing s span with
  | ind n ih =>
      rw [readStrings_eq, readStrings_eq, s.accept_bare]
      cases haccept : s.accept .string with
      | none => rfl
      | some taken =>
          obtain ⟨t, s₁⟩ := taken
          have hlt : s₁.pending < n := hn ▸ Stream.pending_lt_of_accept (by decide) haccept
          dsimp only [Option.map_some, Prod.map]
          rw [ofToken_bare]
          refine bind_unplaced fun bytes _ => ?_
          rw [Token.bare_span, Span.through_zero, ih _ hlt (span.through t.span) s₁ rfl]
          exact bind_unplaced fun rest _ => rfl

/-! ## Forms

Reading expressions one after another calls itself through the forms it
reads, on streams with fewer tokens ahead. Each form is handled under the
assumption that this is settled below a bound. -/

/-- Expressions are read without places from every stream with fewer than
`n` tokens ahead. -/
def BareBelow (n : Nat) : Prop :=
  ∀ go : Stream → Bool, (∀ s : Stream, go s.bare = go s) → ∀ s : Stream, s.pending < n →
    readWhile go s.bare = unplaced (Prod.map (List.map Expr.bare) Stream.bare) (readWhile go s)

/-- Fewer tokens are no obstacle. -/
theorem BareBelow.mono {m n : Nat} (h : BareBelow n) (hle : m ≤ n) : BareBelow m :=
  fun go hgo s hs => h go hgo s (Nat.lt_of_lt_of_le hs hle)

theorem goesOn_bare (words : List String) (s : Stream) : goesOn words s.bare = goesOn words s := by
  simp [goesOn]

theorem startsSignature_bare (s : Stream) : startsSignature s.bare = startsSignature s := by
  simp [startsSignature, Stream.following_bare]

/-- The second branch of a flat conditional is read without places as it is
with them, if expressions in fewer tokens are. -/
theorem readElse_bare {n : Nat} (ih : BareBelow n) (name : Option Label) {s : Stream}
    (hs : s.pending ≤ n) :
    readElse (name.map (Label.dress .bare)) s.bare =
      unplaced (Prod.map (List.map Expr.bare) Stream.bare) (readElse name s) := by
  rw [readElse_eq, readElse_eq, s.acceptValue_bare]
  cases haccept : s.acceptValue .instr "else" with
  | none => rfl
  | some taken =>
      obtain ⟨t, s₁⟩ := taken
      have h₁ : s₁.pending < s.pending := Stream.pending_lt_of_acceptValue (by decide) haccept
      dsimp only [Option.map_some, Prod.map]
      rw [readClosing_bare]
      refine bind_unplaced fun s₂ hs₂ => ?_
      have h₂ : s₂.pending ≤ s₁.pending := pending_of_readClosing hs₂
      rw [ih _ (goesOn_bare _) s₂ (by omega)]
      refine bind_unplaced fun body _ => ?_
      simp only [unplaced_pure, Prod.map, List.map_singleton, Expr.bare_node]
      rfl

/-- **What follows the head of a flat form** is read without places as it
is with them. Each kind of form has its own rule, and each rule reads
further expressions only after a token of its own. -/
theorem readFlat_bare {n : Nat} (ih : BareBelow n) (head : Head) {s : Stream}
    (hs : s.pending < n) :
    readFlat (head.dress .bare) s.bare =
      unplaced (Prod.map Expr.bare Stream.bare) (readFlat head s) := by
  by_cases hblock : head.instr = "block" ∨ head.instr = "loop"
  · rw [readFlat_block hblock, readFlat_block (by simpa using hblock), ih _ (goesOn_bare _) s hs]
    refine bind_unplaced fun body _ => ?_
    dsimp only [Prod.map]
    rw [Stream.expectValue_bare]
    refine bind_unplaced fun close _ => ?_
    dsimp only [Prod.map]
    rw [Head.dress_name, readClosing_bare]
    refine bind_unplaced fun s₃ _ => ?_
    simp only [unplaced_pure, Prod.map, Expr.bare_node]
    rfl
  by_cases hif : head.instr = "if"
  · rw [readFlat_if hif, readFlat_if (by simpa using hif), ih _ (goesOn_bare _) s hs]
    refine bind_unplaced fun body hbody => ?_
    have h₁ : body.2.pending ≤ s.pending := loose_bound hbody
    dsimp only [Prod.map]
    rw [Head.dress_name, readElse_bare ih head.name (by omega)]
    refine bind_unplaced fun other _ => ?_
    dsimp only [Prod.map]
    rw [Stream.expectValue_bare]
    refine bind_unplaced fun close _ => ?_
    dsimp only [Prod.map]
    rw [readClosing_bare]
    refine bind_unplaced fun s₄ _ => ?_
    -- which forms give the signature does not depend on places
    have hsignature := Expr.filter_bare Expr.bare_isSignature body.1
    have hbody := @Expr.filter_bare (!·.isSignature)
      (fun e => congrArg Bool.not e.bare_isSignature) body.1
    simp only [unplaced_pure, Prod.map, Expr.bare_node, List.map_append, List.map_cons,
      hsignature, hbody]
    rfl
  by_cases hindirect : head.instr = "call_indirect"
  · rw [readFlat_indirect hindirect, readFlat_indirect (by simpa using hindirect),
      ih _ startsSignature_bare s hs]
    refine bind_unplaced fun signature _ => ?_
    simp only [unplaced_pure, Prod.map, Expr.bare_node, Head.dress_span, Guise.bare_place,
      Expr.foldl_through_bare]
    rfl
  · have hplain : head.instr ∉ ["block", "loop", "if", "call_indirect"] := by
      simp_all
    rw [readFlat_plain hplain, readFlat_plain (by simpa using hplain)]
    simp only [unplaced, Prod.map, Expr.bare_node]
    rfl

/-- **An expression is read without places as it is with them**, if those
in fewer tokens are. The first token decides which rule applies, with
places or without. -/
theorem readExpr_bare {s : Stream} (ih : BareBelow s.pending) :
    readExpr s.bare = unplaced (Option.map (Prod.map Expr.bare Stream.bare)) (readExpr s) := by
  cases hk : s.current.kind with
  | label =>
      rw [readExpr_label hk, readExpr_label (by simpa using hk)]
      simp only [unplaced, Option.map_some, Prod.map, Expr.bare_ref, Stream.current_bare,
        Stream.advance_bare, Token.bare_value, Token.bare_span]
  | string =>
      rw [readExpr_string hk, readExpr_string (by simpa using hk), s.current_bare, ofToken_bare]
      refine bind_unplaced fun bytes _ => ?_
      rw [Token.bare_span, s.advance_bare, readStrings_bare s.current.span]
      refine bind_unplaced fun rest _ => ?_
      simp only [unplaced_pure, Option.map_some, Prod.map, Expr.bare_data]
      rfl
  | leftParen =>
      -- the children are read from a stream that the parenthesis and the head have shortened
      have h₁ : s.advance.pending < s.pending := Stream.pending_advance_lt (by simp [hk])
      rw [readExpr_leftParen hk, readExpr_leftParen (by simpa using hk), s.advance_bare,
        readHead_bare]
      refine bind_unplaced fun head hhead => ?_
      have h₂ : head.2.pending < s.advance.pending := loose_bound hhead
      dsimp only [Prod.map]
      rw [readLabel_bare]
      dsimp only [Prod.map]
      have h₃ : (readLabel head.2).2.pending ≤ head.2.pending := (label head.2).2.2
      rw [readParams_bare]
      refine bind_unplaced fun leading hleading => ?_
      have h₄ : leading.2.pending ≤ (readLabel head.2).2.pending := loose_bound hleading
      dsimp only [Prod.map]
      rw [ih _ (goesOn_bare _) leading.2 (by omega)]
      refine bind_unplaced fun children _ => ?_
      dsimp only [Prod.map]
      rw [readParams_bare]
      refine bind_unplaced fun trailing _ => ?_
      dsimp only [Prod.map]
      rw [Stream.expect_bare]
      refine bind_unplaced fun close _ => ?_
      simp only [unplaced_pure, Option.map_some, Prod.map, Expr.bare_node, Head.dress,
        List.map_append, Stream.current_bare]
      rfl
  | instr =>
      have h₁ : s.advance.pending < s.pending := Stream.pending_advance_lt (by simp [hk])
      rw [readExpr_instr hk, readExpr_instr (by simpa using hk), s.advance_bare, readLabel_bare]
      dsimp only [Prod.map]
      have h₂ : (readLabel s.advance).2.pending ≤ s.advance.pending := (label s.advance).2.2
      rw [readParams_bare]
      refine bind_unplaced fun params hparams => ?_
      have h₃ : params.2.pending ≤ (readLabel s.advance).2.pending := loose_bound hparams
      dsimp only [Prod.map]
      have hflat := readFlat_bare ih ⟨trimEquals s.current.value, (readLabel s.advance).1, params.1,
        s.current.span⟩ (s := params.2) (by omega)
      rw [s.current_bare, Token.bare_value]
      refine (congrArg (· >>= _) hflat).trans ?_
      exact bind_unplaced fun taken _ => rfl
  | _ => rw [readExpr_other (by simp [hk]), readExpr_other (by simp [hk])]; rfl

/-- The step is `readExpr_bare`, and the rest of the list has fewer tokens
ahead than the whole. -/
theorem bareBelow (n : Nat) : BareBelow n := by
  induction n with
  | zero => exact fun _ _ s hs => absurd hs (Nat.not_lt_zero _)
  | succ n ih =>
      intro go hgo s hs
      rw [readWhile_eq, readWhile_eq, hgo]
      split
      · rw [readExpr_bare (ih.mono (by omega))]
        refine bind_unplaced fun found hfound => ?_
        cases found with
        | none => rfl
        | some taken =>
            obtain ⟨e, s₁⟩ := taken
            have h₁ : s₁.pending < s.pending := loose_bound? hfound
            dsimp only [Option.map_some, Prod.map]
            rw [ih go hgo s₁ (by omega)]
            exact bind_unplaced fun rest _ => rfl
      · rfl

/-- **Expressions are read without places as they are with them.** -/
theorem readWhile_bare {go : Stream → Bool} (hgo : ∀ s : Stream, go s.bare = go s) (s : Stream) :
    readWhile go s.bare =
      unplaced (Prod.map (List.map Expr.bare) Stream.bare) (readWhile go s) :=
  bareBelow _ go hgo s (Nat.lt_succ_self _)

/-- Two forms or more are the children of a module that is not written. -/
theorem moduleOf_cons_cons (e f : Expr) (rest : List Expr) (stop : Nat) :
    moduleOf (e :: f :: rest) stop = ⟨.plain "module" ⟨0, stop, 1, 1⟩, e :: f :: rest⟩ := by
  cases e <;> rfl

/-- Which form is the module does not depend on places. -/
theorem moduleOf_bare (forms : List Expr) (stop : Nat) :
    moduleOf (forms.map Expr.bare) 0 = (moduleOf forms stop).bare := by
  -- around other forms than a single one, both put the same head
  have haround : ∀ forms : List Expr, (⟨.plain "module" .zero, forms.map Expr.bare⟩ : Node) =
      Node.bare ⟨.plain "module" ⟨0, stop, 1, 1⟩, forms⟩ := fun _ => rfl
  match forms with
  | [] => rfl
  | [.ref name span] =>
      refine Eq.trans ?_ (haround _)
      rw [List.map_singleton, Expr.bare_ref]
      rfl
  | [.data bytes span] =>
      refine Eq.trans ?_ (haround _)
      rw [List.map_singleton, Expr.bare_data]
      rfl
  | [.node head children] =>
      rw [List.map_singleton, Expr.bare_node]
      by_cases hmodule : head.instr = "module"
      · have hbare : (head.dress .bare).instr = "module" := hmodule
        simp only [moduleOf, if_pos hmodule, if_pos hbare]
        rfl
      · have hbare : (head.dress .bare).instr ≠ "module" := hmodule
        simp only [moduleOf, if_neg hmodule, if_neg hbare, ← haround, List.map_singleton,
          Expr.bare_node]
        rfl
  | e :: f :: rest =>
      rw [List.map_cons, List.map_cons, moduleOf_cons_cons, moduleOf_cons_cons]
      exact haround (e :: f :: rest)

end Parser

/-! ## Sources -/

/-- The module that significant tokens without places denote. -/
def parseWords (words : List Token) : Except ParseError Node := do
  let (forms, s) ← Parser.readWhile (Parser.goesOn []) ⟨words, words, .zero⟩
  if s.currentIs .eof then return Parser.moduleOf forms 0
  else .error (.unexpected .leftParen none s.current)

/-- **Up to places, a source is parsed to what its words are parsed to.** -/
theorem parse_words (source : String) :
    unplaced Node.bare (parse source) = parseWords (Lexer.words source.toList) := by
  have hstream : (Stream.ofSource source).bare =
      ⟨Lexer.words source.toList, Lexer.words source.toList, .zero⟩ := rfl
  rw [parse_eq, parseWords, ← hstream, Parser.readWhile_bare (Parser.goesOn_bare [])]
  refine (bind_unplaced fun read _ => ?_).symm
  obtain ⟨forms, s⟩ := read
  dsimp only [Prod.map]
  rw [Stream.currentIs_bare, Stream.current_bare]
  split
  · rw [unplaced_pure, ← Parser.moduleOf_bare]
    rfl
  · rfl

end WasmText
