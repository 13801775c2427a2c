import WasmText.Proofs.Tree.Places
/-!
# Where places come from

The parser makes up no place. Every place in a tree is that of a token
ahead, or reaches from one token to another, and an error is at a token
ahead or at the end of the source. So what holds of the places of tokens
and is kept by joining them holds of every place in a tree and of the
place of every error (`located_parse`).
-/

namespace WasmText

variable {P : Span → Prop}

/-! ## The places of a tree -/

def Head.spans (head : Head) : List Span :=
  head.span :: ((head.name.map (·.span)).toList ++ head.params.map (·.span))

/-- All places in a tree: of its forms, their labels and parameters, and
its leaves. -/
def Expr.spans : Expr → List Span
  | .ref _ span => [span]
  | .data _ span => [span]
  | .node head children => head.spans ++ children.flatMap fun e => e.spans

def Node.spans (n : Node) : List Span := n.toHead.spans ++ n.children.flatMap Expr.spans

/-- Whether every place in a tree is of a kind. -/
def Expr.LiesIn (P : Span → Prop) (e : Expr) : Prop := ∀ a ∈ e.spans, P a

/-- The places of a head are its own, that of its label and those of its
arguments. -/
theorem Head.forall_mem_spans {head : Head} : (∀ a ∈ head.spans, P a) ↔
    P head.span ∧ (∀ label ∈ head.name, P label.span) ∧ ∀ p ∈ head.params, P p.span := by
  rw [spans, List.forall_mem_cons, List.forall_mem_append, List.forall_mem_map]
  cases head.name <;> simp

theorem Head.forall_mem_spans_plain {instr : String} {span : Span} (h : P span) :
    ∀ a ∈ (plain instr span).spans, P a :=
  forall_mem_spans.2 ⟨h, by simp [plain], List.forall_mem_nil _⟩

/-- A head is at places of the kind also when it reaches further. -/
theorem Head.forall_mem_spans_with {head : Head} (h : ∀ a ∈ head.spans, P a) {span : Span}
    (hspan : P span) : ∀ a ∈ spans { head with span }, P a :=
  forall_mem_spans.2 ⟨hspan, (forall_mem_spans.1 h).2⟩

/-- The places of a form are those of its head and of its children. -/
theorem Node.forall_mem_spans {n : Node} : (∀ a ∈ n.spans, P a) ↔
    (∀ a ∈ n.toHead.spans, P a) ∧ ∀ e ∈ n.children, e.LiesIn P := by
  rw [spans, List.forall_mem_append, List.forall_mem_flatMap]
  rfl

namespace Expr

theorem liesIn_ref {name : String} {span : Span} : (ref name span).LiesIn P ↔ P span := by
  simp [LiesIn, spans]

theorem liesIn_data {bytes : List UInt8} {span : Span} : (data bytes span).LiesIn P ↔ P span := by
  simp [LiesIn, spans]

/-- A form lies in a kind of places if its head and its children do. -/
theorem liesIn_node {head : Head} {children : List Expr} : (node head children).LiesIn P ↔
    (∀ a ∈ head.spans, P a) ∧ ∀ e ∈ children, e.LiesIn P := by
  rw [LiesIn, spans, List.forall_mem_append, List.forall_mem_flatMap]
  rfl

/-- The place of a tree is one of its places. -/
theorem LiesIn.span {e : Expr} (h : e.LiesIn P) : P e.span := by
  cases e with
  | ref => exact liesIn_ref.1 h
  | data => exact liesIn_data.1 h
  | node => exact (Head.forall_mem_spans.1 (liesIn_node.1 h).1).1

end Expr

/-! ## Streams -/

/-- Whether the tokens ahead of a stream, and its end, are at places of a
kind. -/
structure Stream.Shows (P : Span → Prop) (s : Stream) : Prop where
  ahead : ∀ t ∈ s.ahead, P t.span
  finish : P s.finish

/-- What was read, and a stream that goes on at places of the kind. -/
def Leaves {α : Type} (P : Span → Prop) (Q : α → Prop) (r : α × Stream) : Prop :=
  Q r.1 ∧ r.2.Shows P

/-- A result as it should be, or an error at a place of a kind. -/
def Located {α : Type} (P : Span → Prop) (Q : α → Prop) : Except ParseError α → Prop
  | .ok a => Q a
  | .error e => P e.span

/-- **Steps at places of a kind**, one after another, are a step at such
places. -/
theorem Located.bind {α β : Type} {Q : α → Prop} {R : β → Prop} {x : Except ParseError α}
    {f : α → Except ParseError β} (hx : Located P Q x)
    (hf : ∀ a, x = .ok a → Q a → Located P R (f a)) : Located P R (x >>= f) := by
  cases x with
  | error e => exact hx
  | ok a => exact hf a rfl hx

namespace Stream

variable {s : Stream}

/-- The current token is at a place of the kind, also at the end. -/
theorem Shows.current (h : s.Shows P) : P s.current.span := by
  unfold Stream.current
  cases hs : s.ahead with
  | nil => exact h.finish
  | cons t ts => exact h.ahead t (hs ▸ List.mem_cons_self)

/-- What is shown ahead is still shown after a token was taken. -/
theorem Shows.advance (h : s.Shows P) : s.advance.Shows P :=
  ⟨fun t ht => h.ahead t (List.mem_of_mem_tail ht), h.finish⟩

/-- A token that is taken was ahead. -/
theorem Shows.leaves_of_accept (h : s.Shows P) {kind : Token.Kind} {taken : Token × Stream}
    (ht : s.accept kind = some taken) : Leaves P (fun t : Token => P t.span) taken := by
  unfold accept at ht
  split at ht
  next => exact Option.some.inj ht ▸ ⟨h.current, h.advance⟩
  next => cases ht

theorem Shows.leaves_of_acceptValue (h : s.Shows P) {kind : Token.Kind} {value : String}
    {taken : Token × Stream} (ht : s.acceptValue kind value = some taken) :
    Leaves P (fun t : Token => P t.span) taken := by
  unfold acceptValue at ht
  split at ht
  next => exact Option.some.inj ht ▸ ⟨h.current, h.advance⟩
  next => cases ht

/-- A token that must be there is at a place of the kind, and so is the
error where it is not there. -/
theorem Shows.located_expect (h : s.Shows P) (kind : Token.Kind) :
    Located P (Leaves P fun t => P t.span) (s.expect kind) := by
  unfold expect
  cases ht : s.accept kind with
  | none => exact h.current
  | some taken => exact h.leaves_of_accept ht

theorem Shows.located_expectValue (h : s.Shows P) (kind : Token.Kind) (value : String) :
    Located P (Leaves P fun t => P t.span) (s.expectValue kind value) := by
  unfold expectValue
  cases ht : s.acceptValue kind value with
  | none => exact h.current
  | some taken => exact h.leaves_of_acceptValue ht

end Stream

namespace Parser

variable {s : Stream}

/-! ## Leaves -/

/-- A string with a fault fails at its token. -/
theorem located_ofToken {t : Token} (ht : P t.span) :
    Located P (fun _ => True) (StringLiteral.ofToken t) := by
  unfold StringLiteral.ofToken
  cases StringLiteral.decode t.value.toList with
  | error fault => exact ht
  | ok bytes => trivial

/-- The word after a parenthesis is at a place of the kind. -/
theorem located_readHead (hs : s.Shows P) :
    Located P (Leaves P fun t => P t.span) (readHead s) := by
  rw [readHead_eq]
  cases ht : s.accept .reserved with
  | none => exact hs.located_expect .instr
  | some taken => exact hs.leaves_of_accept ht

/-- So is the label after it. -/
theorem leaves_readLabel (hs : s.Shows P) :
    Leaves P (fun name : Option Label => ∀ label ∈ name, P label.span) (readLabel s) := by
  rw [readLabel_eq]
  cases ht : s.accept .label with
  | none => exact ⟨by simp, hs⟩
  | some taken =>
      obtain ⟨hspan, hrest⟩ := hs.leaves_of_accept ht
      refine ⟨fun label h => ?_, hrest⟩
      obtain rfl := Option.some.inj h
      exact hspan

/-- A wrong label at the end is at a place of the kind. -/
theorem located_readClosing (hs : s.Shows P) (name : Option Label) :
    Located P (Stream.Shows P) (readClosing name s) := by
  rw [readClosing_eq]
  cases ht : s.accept .label with
  | none => exact hs
  | some taken =>
      obtain ⟨hspan, hrest⟩ := hs.leaves_of_accept ht
      dsimp only
      split
      next => exact hrest
      next => exact hspan

section Joined

variable (hjoin : ∀ {a b : Span}, P a → P b → P (a.through b))

include hjoin

/-- A keyword with a value reaches over both of its tokens. -/
theorem located_readKeyword {t : Token} (ht : P t.span) (hs : s.Shows P) :
    Located P (Leaves P fun p => P p.span) (readKeyword t s) := by
  rw [readKeyword_eq]
  cases Keyword.ofWord? (trimEquals t.value) with
  | none => exact ht
  | some key =>
      dsimp only
      split
      next =>
        cases hv : s.accept .number with
        | none => exact (hs.located_expect .hex).bind fun r _ hr => ⟨hjoin ht hr.1, hr.2⟩
        | some taken =>
            obtain ⟨hvalue, hrest⟩ := hs.leaves_of_accept hv
            exact ⟨hjoin ht hvalue, hrest⟩
      next => exact ⟨ht, hs⟩

/-- An argument is at the place of its token, or joins two. -/
theorem located_readParam (hs : s.Shows P) :
    Located P (fun r => ∀ taken ∈ r, Leaves P (fun p : Param => P p.span) taken) (readParam s) := by
  have hcurrent := hs.current
  have htaken : ∀ arg : Argument, ∀ taken ∈ some ((⟨arg, s.current.span⟩ : Param), s.advance),
      Leaves P (fun p : Param => P p.span) taken := by
    intro arg taken h
    obtain rfl := Option.some.inj h
    exact ⟨hcurrent, hs.advance⟩
  rw [readParam_eq]
  split
  next => exact htaken _
  next => exact htaken _
  next => exact (located_ofToken hcurrent).bind fun bytes _ _ => htaken (.str bytes)
  next => exact htaken _
  next =>
    refine (located_readKeyword hjoin hcurrent hs.advance).bind fun r _ hr => ?_
    intro taken h
    obtain rfl := Option.some.inj h
    exact hr
  next => exact fun _ h => absurd h (by simp)

/-- Arguments are at places of the kind, one by one. -/
theorem located_readParams (hs : s.Shows P) :
    Located P (Leaves P fun ps => ∀ p ∈ ps, P p.span) (readParams s) := by
  induction hn : s.pending using Nat.strongRecOn generalizing s with
  | ind n ih =>
      rw [readParams_eq]
      refine (located_readParam hjoin hs).bind fun found hfound hplaces => ?_
      cases found with
      | none => exact ⟨List.forall_mem_nil _, hs⟩
      | some taken =>
          obtain ⟨p, s₁⟩ := taken
          obtain ⟨hp, hs₁⟩ := hplaces _ rfl
          have hlt : s₁.pending < n := hn ▸ pending_of_readParam hfound
          refine (ih _ hlt hs₁ rfl).bind fun rest _ hrest => ?_
          exact ⟨List.forall_mem_cons.2 ⟨hp, hrest.1⟩, hrest.2⟩

/-- Strings side by side are at a place that joins theirs. -/
theorem located_readStrings {span : Span} (hspan : P span) (hs : s.Shows P) :
    Located P (Leaves P fun r => P r.2) (readStrings span s) := by
  induction hn : s.pending using Nat.strongRecOn generalizing s span with
  | ind n ih =>
      rw [readStrings_eq]
      cases haccept : s.accept .string with
      | none => exact ⟨hspan, hs⟩
      | some taken =>
          obtain ⟨t, s₁⟩ := taken
          obtain ⟨ht, hs₁⟩ := hs.leaves_of_accept haccept
          have hlt : s₁.pending < n := hn ▸ Stream.pending_lt_of_accept (by decide) haccept
          refine (located_ofToken ht).bind fun bytes _ _ => ?_
          refine (ih _ hlt (hjoin hspan ht) hs₁ rfl).bind fun rest _ hrest => ?_
          exact hrest

end Joined

/-! ## Forms

As in reading without places, each form is handled under the assumption
that expressions are settled on streams with fewer tokens ahead. -/

/-- Expressions are read from every stream with fewer than `n` tokens
ahead to trees at places of the kind. -/
def LocatedBelow (P : Span → Prop) (n : Nat) : Prop :=
  ∀ (go : Stream → Bool) (s : Stream), s.pending < n → s.Shows P →
    Located P (Leaves P fun es => ∀ e ∈ es, e.LiesIn P) (readWhile go s)

/-- Fewer tokens are no obstacle. -/
theorem LocatedBelow.mono {m n : Nat} (h : LocatedBelow P n) (hle : m ≤ n) : LocatedBelow P m :=
  fun go s hs => h go s (Nat.lt_of_lt_of_le hs hle)

/-- The second branch of a flat conditional is at the place of its `else`,
with everything inside at places of the kind. -/
theorem located_readElse {n : Nat} (ih : LocatedBelow P n) (name : Option Label)
    (hn : s.pending ≤ n) (hs : s.Shows P) :
    Located P (Leaves P fun es => ∀ e ∈ es, e.LiesIn P) (readElse name s) := by
  rw [readElse_eq]
  cases haccept : s.acceptValue .instr "else" with
  | none => exact ⟨List.forall_mem_nil _, hs⟩
  | some taken =>
      obtain ⟨t, s₁⟩ := taken
      obtain ⟨ht, hs₁⟩ := hs.leaves_of_acceptValue haccept
      have h₁ : s₁.pending < s.pending := Stream.pending_lt_of_acceptValue (by decide) haccept
      refine (located_readClosing hs₁ name).bind fun s₂ hclosing hs₂ => ?_
      have h₂ : s₂.pending ≤ s₁.pending := pending_of_readClosing hclosing
      refine (ih (goesOn ["end"]) s₂ (by omega) hs₂).bind fun body _ hbody => ?_
      have hother : (Expr.node (.plain "else" t.span) body.1).LiesIn P :=
        Expr.liesIn_node.2 ⟨Head.forall_mem_spans_plain ht, hbody.1⟩
      exact ⟨List.forall_mem_singleton.2 hother, hbody.2⟩

section Joined

variable (hjoin : ∀ {a b : Span}, P a → P b → P (a.through b))

include hjoin

/-- The place of a form that reaches over its children. -/
theorem foldl_through {es : List Expr} (hes : ∀ e ∈ es, e.LiesIn P) {span : Span} (hspan : P span) :
    P (es.foldl (fun span e => span.through e.span) span) := by
  induction es generalizing span with
  | nil => exact hspan
  | cons e es ih =>
      obtain ⟨he, hes⟩ := List.forall_mem_cons.1 hes
      exact ih hes (hjoin hspan he.span)

/-- **A flat form is at a place of the kind.** It reaches from its head to
its `end`, or over its signature. Its `then`, which is not written, is at
the place of the head. -/
theorem located_readFlat {n : Nat} (ih : LocatedBelow P n) {head : Head}
    (hhead : ∀ a ∈ head.spans, P a) (hn : s.pending < n) (hs : s.Shows P) :
    Located P (Leaves P (Expr.LiesIn P)) (readFlat head s) := by
  have hspan : P head.span := (Head.forall_mem_spans.1 hhead).1
  by_cases hblock : head.instr = "block" ∨ head.instr = "loop"
  · rw [readFlat_block hblock]
    refine (ih (goesOn ["end"]) s hn hs).bind fun body _ hbody => ?_
    refine (hbody.2.located_expectValue .instr "end").bind fun close _ hclose => ?_
    refine (located_readClosing hclose.2 head.name).bind fun s₃ _ hs₃ => ?_
    have hwhole := Head.forall_mem_spans_with hhead (hjoin hspan hclose.1)
    exact ⟨Expr.liesIn_node.2 ⟨hwhole, hbody.1⟩, hs₃⟩
  by_cases hif : head.instr = "if"
  · rw [readFlat_if hif]
    refine (ih (goesOn ["end", "else"]) s hn hs).bind fun body hread hbody => ?_
    have h₁ : body.2.pending ≤ s.pending := loose_bound hread
    refine (located_readElse ih head.name (by omega) hbody.2).bind fun other _ hother => ?_
    refine (hother.2.located_expectValue .instr "end").bind fun close _ hclose => ?_
    refine (located_readClosing hclose.2 head.name).bind fun s₄ _ hs₄ => ?_
    have hwhole := Head.forall_mem_spans_with hhead (hjoin hspan hclose.1)
    -- the branch that is put around the body has no token, and takes the place of the head
    have hfirst : (Expr.node (.plain "then" head.span)
        (body.1.filter (!·.isSignature))).LiesIn P :=
      Expr.liesIn_node.2 ⟨Head.forall_mem_spans_plain hspan,
        fun e he => hbody.1 e (List.mem_filter.1 he).1⟩
    refine ⟨Expr.liesIn_node.2 ⟨hwhole, List.forall_mem_append.2 ⟨?_, ?_⟩⟩, hs₄⟩
    · exact fun e he => hbody.1 e (List.mem_filter.1 he).1
    · exact List.forall_mem_cons.2 ⟨hfirst, hother.1⟩
  by_cases hindirect : head.instr = "call_indirect"
  · rw [readFlat_indirect hindirect]
    refine (ih startsSignature s hn hs).bind fun signature _ hsignature => ?_
    have hwhole := Head.forall_mem_spans_with hhead (foldl_through hjoin hsignature.1 hspan)
    exact ⟨Expr.liesIn_node.2 ⟨hwhole, hsignature.1⟩, hsignature.2⟩
  · have hplain : head.instr ∉ ["block", "loop", "if", "call_indirect"] := by
      simp_all
    rw [readFlat_plain hplain]
    exact ⟨Expr.liesIn_node.2 ⟨hhead, List.forall_mem_nil _⟩, hs⟩

/-- **An expression is at places of the kind**, if those in fewer tokens
are. A form in parentheses reaches from one parenthesis to the other, and
any other expression is at the place of its tokens. -/
theorem located_readExpr (ih : LocatedBelow P s.pending) (hs : s.Shows P) :
    Located P (fun r => ∀ taken ∈ r, Leaves P (Expr.LiesIn P) taken) (readExpr s) := by
  have hcurrent := hs.current
  cases hk : s.current.kind with
  | label =>
      rw [readExpr_label hk]
      intro taken h
      obtain rfl := Option.some.inj h
      exact ⟨Expr.liesIn_ref.2 hcurrent, hs.advance⟩
  | string =>
      rw [readExpr_string hk]
      refine (located_ofToken hcurrent).bind fun bytes _ _ => ?_
      refine (located_readStrings hjoin hcurrent hs.advance).bind fun rest _ hrest => ?_
      intro taken h
      obtain rfl := Option.some.inj h
      exact ⟨Expr.liesIn_data.2 hrest.1, hrest.2⟩
  | leftParen =>
      -- the bound on what is ahead is carried along to the children and dropped behind them
      have h₁ : s.advance.pending < s.pending := Stream.pending_advance_lt (by simp [hk])
      rw [readExpr_leftParen hk]
      refine (located_readHead hs.advance).bind fun head hread hhead => ?_
      have h₂ : head.2.pending < s.advance.pending := loose_bound hread
      obtain ⟨hname, hs₂⟩ := leaves_readLabel hhead.2
      have h₃ : (readLabel head.2).2.pending ≤ head.2.pending := (label head.2).2.2
      refine (located_readParams hjoin hs₂).bind fun leading hread hleading => ?_
      have h₄ : leading.2.pending ≤ (readLabel head.2).2.pending := loose_bound hread
      refine (ih (goesOn []) leading.2 (by omega) hleading.2).bind fun children _ hchildren => ?_
      refine (located_readParams hjoin hchildren.2).bind fun trailing _ htrailing => ?_
      refine (htrailing.2.located_expect .rightParen).bind fun close _ hclose => ?_
      intro taken h
      obtain rfl := Option.some.inj h
      refine ⟨Expr.liesIn_node.2 ⟨Head.forall_mem_spans.2 ⟨?_, hname, ?_⟩, hchildren.1⟩, hclose.2⟩
      · exact hjoin hcurrent hclose.1
      · exact List.forall_mem_append.2 ⟨hleading.1, htrailing.1⟩
  | instr =>
      have h₁ : s.advance.pending < s.pending := Stream.pending_advance_lt (by simp [hk])
      rw [readExpr_instr hk]
      obtain ⟨hname, hs₁⟩ := leaves_readLabel hs.advance
      have h₂ : (readLabel s.advance).2.pending ≤ s.advance.pending := (label s.advance).2.2
      refine (located_readParams hjoin hs₁).bind fun params hread hparams => ?_
      have h₃ : params.2.pending ≤ (readLabel s.advance).2.pending := loose_bound hread
      have hhead : ∀ a ∈ Head.spans ⟨trimEquals s.current.value, (readLabel s.advance).1, params.1,
          s.current.span⟩, P a := Head.forall_mem_spans.2 ⟨hcurrent, hname, hparams.1⟩
      refine (located_readFlat hjoin ih hhead (by omega) hparams.2).bind fun taken _ htaken => ?_
      intro taken h
      obtain rfl := Option.some.inj h
      exact htaken
  | _ =>
      rw [readExpr_other (by simp [hk])]
      exact fun _ h => absurd h (by simp)

/-- The step is `located_readExpr`, and the rest of the list has fewer
tokens ahead than the whole. -/
theorem locatedBelow (n : Nat) : LocatedBelow P n := by
  induction n with
  | zero => exact fun _ s hs => absurd hs (Nat.not_lt_zero _)
  | succ n ih =>
      intro go s hn hs
      rw [readWhile_eq]
      split
      next =>
        refine (located_readExpr hjoin (ih.mono (by omega)) hs).bind fun found hread hfound => ?_
        cases found with
        | none => exact ⟨List.forall_mem_nil _, hs⟩
        | some taken =>
            obtain ⟨e, s₁⟩ := taken
            obtain ⟨he, hs₁⟩ := hfound _ rfl
            have h₁ : s₁.pending < s.pending := loose_bound? hread
            refine (ih go s₁ (by omega) hs₁).bind fun rest _ hrest => ?_
            exact ⟨List.forall_mem_cons.2 ⟨he, hrest.1⟩, hrest.2⟩
      next => exact ⟨List.forall_mem_nil _, hs⟩

/-- **Expressions are read at places of the kind.** -/
theorem located_readWhile (go : Stream → Bool) (hs : s.Shows P) :
    Located P (Leaves P fun es => ∀ e ∈ es, e.LiesIn P) (readWhile go s) :=
  locatedBelow hjoin _ go s (Nat.lt_succ_self _) hs

end Joined

/-- A module that is not written reaches from the start to the end of the
source. -/
theorem forall_mem_spans_moduleOf {forms : List Expr} (hforms : ∀ e ∈ forms, e.LiesIn P)
    {stop : Nat} (hwhole : P ⟨0, stop, 1, 1⟩) : ∀ a ∈ (moduleOf forms stop).spans, P a := by
  have haround : ∀ a ∈ Node.spans ⟨.plain "module" ⟨0, stop, 1, 1⟩, forms⟩, P a :=
    Node.forall_mem_spans.2 ⟨Head.forall_mem_spans_plain hwhole, hforms⟩
  unfold moduleOf
  dsimp only
  split
  next head children =>
    split
    next => exact Node.forall_mem_spans.2 (Expr.liesIn_node.1 (List.forall_mem_singleton.1 hforms))
    next => exact haround
  next => exact haround

end Parser

/-- **A source is parsed to a tree at places of a kind**, or fails at one,
if its tokens are at such places and they can be joined. -/
theorem located_parse {source : String} (hsource : (Stream.ofSource source).Shows P)
    (hjoin : ∀ {a b : Span}, P a → P b → P (a.through b))
    (hwhole : ∀ {a : Span}, P a → P ⟨0, a.stop, 1, 1⟩) :
    Located P (fun n => ∀ a ∈ n.spans, P a) (parse source) := by
  rw [parse_eq]
  refine (Parser.located_readWhile hjoin (Parser.goesOn []) hsource).bind fun r _ hr => ?_
  dsimp only
  split
  next => exact Parser.forall_mem_spans_moduleOf hr.1 (hwhole hr.2.finish)
  next => exact hr.2.current

end WasmText
