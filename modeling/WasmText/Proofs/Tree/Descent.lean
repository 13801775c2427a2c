import WasmText.Proofs.Tree.Agreement
/-!
# Descents come to an end

Streams and descents read expressions alike, whatever they meet. The proof
follows the recursion of the grammar: an expression is settled once those
inside it are, and these have fewer tokens ahead (`agreesBelow`). So a
descent into a source has an outcome, which is what the source denotes
(`parse_eq_some`).
-/

namespace WasmText

open WasmText.Parser

theorem Span.through_self (span : Span) : span.through span = span := by simp [Span.through]

namespace Descent

section Forms

variable {source : String} {α : Type} {c : Cursor} {s : Stream}

/-! ## Expressions, by their first token -/

/-- Strings are read from the first one on. -/
theorem readExpr_strings (hkind : s.current.kind = .string) :
    readExpr s =
      some <$> (fun r => (Expr.data r.1.1 r.1.2, r.2)) <$> readStrings s.current.span s := by
  have hfirst : s.accept .string = some (s.current, s.advance) := by
    rw [Stream.accept, if_pos hkind]
  rw [readExpr_string hkind, readStrings_eq _ s, hfirst]
  dsimp only
  rw [Span.through_self]
  cases StringLiteral.ofToken s.current with
  | error e => rfl
  | ok bytes =>
      change (readStrings _ s.advance >>= _) = _ <$> (_ <$> (readStrings _ s.advance >>= _))
      cases readStrings s.current.span s.advance <;> rfl

/-- What follows the parenthesis `left`, from a stream. -/
def readEnclosed (left : Token) (s : Stream) : Except ParseError (Expr × Stream) := do
  let (t, s₁) ← readHead s
  let (name, s₂) := readLabel s₁
  let (leading, s₃) ← readParams s₂
  let (es, s₄) ← readWhile (goesOn []) s₃
  let (trailing, s₅) ← readParams s₄
  let (right, s₆) ← s₅.expect .rightParen
  let span := left.span.through right.span
  return (.node ⟨trimEquals t.value, name, leading ++ trailing, span⟩ es, s₆)

/-- A form in parentheses is there, or there is an error. -/
theorem readExpr_enclosed (h : s.current.kind = .leftParen) :
    readExpr s = some <$> readEnclosed s.current s.advance := by
  rw [readExpr_leftParen h, readEnclosed]
  simp only [map_bind]
  rfl

/-- What follows the instruction `t` without a parenthesis, from a
stream. -/
def readBare (t : Token) (s : Stream) : Except ParseError (Expr × Stream) := do
  let (name, s₁) := readLabel s
  let (ps, s₂) ← readParams s₁
  readFlat ⟨trimEquals t.value, name, ps, t.span⟩ s₂

/-- So is a form without. -/
theorem readExpr_bare (h : s.current.kind = .instr) :
    readExpr s = some <$> readBare s.current s.advance := by
  rw [readExpr_instr h, readBare]
  simp only [map_eq_pure_bind, bind_assoc]

/-- What tokens may start an expression. -/
def starters : List Token.Kind := [.label, .string, .leftParen, .instr]

/-- Where a token stands that may start one, there is an expression or an
error. -/
theorem readExpr_ne_none (h : s.current.kind ∈ starters) : readExpr s ≠ .ok none := by
  obtain ⟨y, hy⟩ : ∃ y : Except ParseError (Expr × Stream), readExpr s = some <$> y := by
    simp only [starters, List.mem_cons, List.not_mem_nil, or_false] at h
    rcases h with h | h | h | h
    · exact ⟨.ok _, readExpr_label h⟩
    · exact ⟨_, readExpr_strings h⟩
    · exact ⟨_, readExpr_enclosed h⟩
    · exact ⟨_, readExpr_bare h⟩
  rw [hy]
  cases y with
  | error e => exact fun h => by cases h
  | ok r => exact fun h => by cases h

/-! ## Forms

Forms stand inside forms, so each rule is shown under the assumption that
expressions with fewer tokens ahead are settled. -/

/-- What was taken of a stream, or the stream as it was. -/
def settle (s : Stream) : Option (α × Stream) → Option α × Stream
  | some (a, s') => (some a, s')
  | none => (none, s)

/-- Expressions from fewer than `n` tokens ahead are read alike. -/
def AgreesBelow (source : String) (n : Nat) : Prop :=
  ∀ c s, Tracks source c s → s.pending < n →
    Agrees source (Rule.expr.read c) (settle s <$> readExpr s)

/-- Fewer tokens are no obstacle. -/
theorem AgreesBelow.mono {m n : Nat} (h : AgreesBelow source n) (hle : m ≤ n) :
    AgreesBelow source m :=
  fun c s hc hs => h c s hc (Nat.lt_of_lt_of_le hs hle)

/-- An expression where `go` lets one start. -/
def readNext (go : Stream → Bool) (s : Stream) : Except ParseError (Option (Expr × Stream)) :=
  if go s then readExpr s else .ok none

/-- Expressions are read item by item. -/
theorem isEach_readWhile (go : Stream → Bool) : IsEach (readNext go) (readWhile go) := by
  intro s
  rw [readWhile_eq, readNext]
  split
  · refine bind_congr fun found => ?_
    cases found with
    | none => rfl
    | some taken => exact (map_eq_pure_bind _ _).symm
  · rfl

theorem readExpr_of_readNext {go : Stream → Bool} {e : Expr} {s' : Stream}
    (h : readNext go s = .ok (some (e, s'))) : readExpr s = .ok (some (e, s')) := by
  rw [readNext] at h
  split at h
  · exact h
  · cases h

/-- A list of children ends at the end of the source, or at one of the
given words. -/
theorem goesOn_eq_false_iff {words : List String} :
    goesOn words s = false ↔
      s.current.kind = .eof ∨ words.any (s.current.is .instr ·) = true := by
  simp only [goesOn, Stream.currentIs, Bool.and_eq_false_iff, Bool.not_eq_false', beq_iff_eq]

/-- One more child, or the end of them. -/
theorem agrees_nextChild (h : Tracks source c s)
    (hexpr : Agrees source (Rule.expr.read c) (settle s <$> readExpr s)) (words : List String)
    (es : List Expr) :
    Agrees source ((Loop.children words).iteration es c)
      (addTo (fun es e => es ++ [e]) es s <$> readNext (goesOn words) s) := by
  rw [Loop.iteration, bind_of_ok (x := current) rfl, h.current, readNext]
  by_cases hstops : s.current.kind = .eof ∨ words.any (s.current.is .instr ·) = true
  · rw [if_pos hstops, if_neg (by simp [goesOn_eq_false_iff.2 hstops])]
    exact .ok h
  · have hgo : goesOn words s = true := by
      rw [← Bool.not_eq_false, goesOn_eq_false_iff]
      exact hstops
    rw [if_neg hstops, if_pos hgo, map_eq_pure_bind]
    refine hexpr.bind_map fun found c' _ h' => ?_
    cases found with
    | none => exact .ok h'
    | some taken => exact .ok h'

/-- **The loop over children** agrees with reading them all. -/
theorem agrees_children {n : Nat} (ih : AgreesBelow source n) (h : Tracks source c s)
    (hs : s.pending < n) (words : List String) (es : List Expr) :
    Agrees source ((Loop.children words).run es c)
      ((fun r => (es ++ r.1, r.2)) <$> readWhile (goesOn words) s) := by
  have hloop := agrees_each (isEach_readWhile (goesOn words))
    (fun _ _ _ hnext => loose_bound? (readExpr_of_readNext hnext))
    (fun es c s hc hs => agrees_nextChild hc (ih c s hc hs) words es) h hs es
  simpa only [foldl_concat] using hloop

/-- A node with one more child, up to the end of which it reaches. -/
def extend (n : Node) (e : Expr) : Node :=
  { n with span := n.span.through e.span, children := n.children ++ [e] }

/-- The forms of a signature are added to a form at its end, and its place
grows with them. -/
theorem foldl_extend (n : Node) (es : List Expr) :
    es.foldl extend n =
      { n with
        span := es.foldl (fun span e => span.through e.span) n.span
        children := n.children ++ es } := by
  induction es generalizing n with
  | nil => simp
  | cons e es ih => simp [ih, extend]

/-- One more form of a signature, or the end of them. -/
theorem agrees_nextTypeForm (h : Tracks source c s)
    (hexpr : Agrees source (Rule.expr.read c) (settle s <$> readExpr s)) (n : Node) :
    Agrees source (Loop.signature.iteration n c)
      (addTo extend n s <$> readNext startsSignature s) := by
  rw [Loop.iteration, bind_of_ok (x := current) rfl, bind_of_ok (x := following) rfl, h.current,
    h.following, readNext]
  by_cases hstarts : s.current.kind = .leftParen ∧ s.following.kind = .instr ∧
      s.following.value ∈ ["type", "param", "result"]
  · have hgo : startsSignature s = true := by
      simpa [startsSignature, Stream.currentIs, and_assoc] using hstarts
    rw [if_pos hstarts, if_pos hgo, map_eq_pure_bind]
    refine hexpr.bind_map fun found c' hfound h' => ?_
    cases found with
    | none => exact absurd hfound (readExpr_ne_none (by simp [starters, hstarts.1]))
    | some taken => exact .ok h'
  · have hgo : ¬ startsSignature s = true := by
      simpa [startsSignature, Stream.currentIs, and_assoc] using hstarts
    rw [if_neg hstarts, if_neg hgo]
    exact .ok h

/-- **The loop over a signature** agrees with reading it all. -/
theorem agrees_signature {n : Nat} (ih : AgreesBelow source n) (h : Tracks source c s)
    (hs : s.pending < n) (m : Node) :
    Agrees source (Loop.signature.run m c)
      ((fun r => (r.1.foldl extend m, r.2)) <$> readWhile startsSignature s) :=
  agrees_each (isEach_readWhile startsSignature)
    (fun _ _ _ hnext => loose_bound? (readExpr_of_readNext hnext))
    (fun m c s hc hs => agrees_nextTypeForm hc (ih c s hc hs) m) h hs m

/-- **A form in parentheses**, after the opening one. -/
theorem agrees_enclosed {n : Nat} (ih : AgreesBelow source n) (h : Tracks source c s)
    (hs : s.pending < n) (left : Token) :
    Agrees source ((Rule.enclosed left).read c) (readEnclosed left s) := by
  rw [Rule.read, readEnclosed]
  refine (agrees_headToken h).bind fun head c₁ hhead h₁ => ?_
  have hp₁ : head.2.pending < s.pending := loose_bound hhead
  obtain ⟨c₂, hlabel, h₂⟩ := label_eq h₁
  have hp₂ : (readLabel head.2).2.pending ≤ head.2.pending := (takes_readLabel rfl).pending_le
  rw [bind_of_ok hlabel]
  refine (agrees_params h₂ []).bind_map fun leading c₃ hleading h₃ => ?_
  have hp₃ : leading.2.pending < n := by
    have := (takes_readParams hleading).pending_le
    omega
  refine (agrees_children ih h₃ hp₃ [] []).bind_map fun es c₄ _ h₄ => ?_
  refine (agrees_params h₄ leading.1).bind_map fun trailing c₅ _ h₅ => ?_
  exact (agrees_expect h₅ .rightParen).bind fun right c₆ _ h₆ => .ok h₆

/-- The second branch of a flat conditional, or none. -/
theorem agrees_alternative {n : Nat} (ih : AgreesBelow source n) (h : Tracks source c s)
    (hs : s.pending < n) (name : Option Label) :
    Agrees source ((Rule.alternative name).read c) (readElse name s) := by
  rw [Rule.read, readElse_eq]
  cases htaken : s.acceptValue .instr "else" with
  | none =>
      rw [bind_of_ok (acceptValue_of_none h htaken)]
      exact .ok h
  | some taken =>
      obtain ⟨c₁, haccept, h₁⟩ := acceptValue_of_some h htaken
      have hp₁ : taken.2.pending < s.pending := Stream.pending_lt_of_acceptValue (by decide) htaken
      rw [bind_of_ok haccept]
      refine (agrees_closingLabel h₁ name).bind_map fun s₂ c₂ hclosing h₂ => ?_
      have hp₂ : s₂.pending < n := by
        have := (takes_readClosing hclosing).pending_le
        omega
      exact (agrees_children ih h₂ hp₂ ["end"] []).bind_map fun es c₃ _ h₃ => .ok h₃

/-- A flat block or loop, after its head. -/
theorem agrees_block {n : Nat} (ih : AgreesBelow source n) (h : Tracks source c s)
    (hs : s.pending < n) {head : Head} (hhead : head.instr = "block" ∨ head.instr = "loop") :
    Agrees source ((Rule.block head).read c) (readFlat head s) := by
  rw [Rule.read, readFlat_block hhead]
  refine (agrees_children ih h hs ["end"] []).bind_map fun es c₁ _ h₁ => ?_
  refine (agrees_expectValue h₁ .instr "end").bind fun close c₂ _ h₂ => ?_
  exact (agrees_closingLabel h₂ head.name).bind_map fun s₃ c₃ _ h₃ => .ok h₃

/-- A flat conditional, after its head. -/
theorem agrees_conditional {n : Nat} (ih : AgreesBelow source n) (h : Tracks source c s)
    (hs : s.pending < n) {head : Head} (hhead : head.instr = "if") :
    Agrees source ((Rule.conditional head).read c) (readFlat head s) := by
  rw [Rule.read, readFlat_if hhead]
  simp only [List.partition_eq_filter_filter]
  refine (agrees_children ih h hs ["end", "else"] []).bind_map fun es c₁ hes h₁ => ?_
  have hp₁ : es.2.pending ≤ s.pending := loose_bound hes
  have hother := agrees_alternative ih h₁ (Nat.lt_of_le_of_lt hp₁ hs) head.name
  refine hother.bind fun other c₂ _ h₂ => ?_
  refine (agrees_expectValue h₂ .instr "end").bind fun close c₃ _ h₃ => ?_
  exact (agrees_closingLabel h₃ head.name).bind_map fun s₄ c₄ _ h₄ => .ok h₄

/-- A flat indirect call, after its head. -/
theorem agrees_indirect {n : Nat} (ih : AgreesBelow source n) (h : Tracks source c s)
    (hs : s.pending < n) {head : Head} (hhead : head.instr = "call_indirect") :
    Agrees source ((Loop.signature.run ⟨head, []⟩ >>= fun m => pure m.toExpr) c) (readFlat head s) := by
  rw [readFlat_indirect hhead]
  refine (agrees_signature ih h hs ⟨head, []⟩).bind_map fun es c₁ _ h₁ => ?_
  rw [foldl_extend]
  exact .ok h₁

/-- **A form without parentheses**, after its instruction, by the kind of
instruction. -/
theorem agrees_flat {n : Nat} (ih : AgreesBelow source n) (h : Tracks source c s)
    (hs : s.pending < n) (t : Token) : Agrees source ((Rule.flat t).read c) (readBare t s) := by
  rw [Rule.read, readBare]
  obtain ⟨c₁, hlabel, h₁⟩ := label_eq h
  have hp₁ : (readLabel s).2.pending ≤ s.pending := (takes_readLabel rfl).pending_le
  rw [bind_of_ok hlabel]
  refine (agrees_params h₁ []).bind_map fun ps c₂ hps h₂ => ?_
  have hp₂ : ps.2.pending < n := by
    have := (takes_readParams hps).pending_le
    omega
  dsimp only
  rw [List.nil_append]
  by_cases hblock : trimEquals t.value = "block" ∨ trimEquals t.value = "loop"
  · rw [if_pos hblock]
    exact agrees_block ih h₂ hp₂ hblock
  by_cases hif : trimEquals t.value = "if"
  · rw [if_neg hblock, if_pos hif]
    exact agrees_conditional ih h₂ hp₂ hif
  by_cases hindirect : trimEquals t.value = "call_indirect"
  · rw [if_neg hblock, if_neg hif, if_pos hindirect]
    exact agrees_indirect ih h₂ hp₂ hindirect
  · rw [if_neg hblock, if_neg hif, if_neg hindirect, readFlat_plain (by simp_all)]
    exact .ok h₂

/-- An expression that is there for both. -/
theorem Agrees.map_some {x : Descent Expr} {y : Except ParseError (Expr × Stream)}
    (h : Agrees source (x c) y) :
    Agrees source ((x >>= fun e => pure (some e)) c) (settle s <$> some <$> y) := by
  have hmap : settle s <$> some <$> y = y >>= fun r => .ok (some r.1, r.2) := by
    cases y <;> rfl
  rw [hmap]
  exact h.bind fun r c' _ h' => .ok h'

/-- Where no expression starts, the cursor stays as it was. -/
theorem expr_of_not_mem (h : Tracks source c s) (hkind : s.current.kind ∉ starters) :
    Rule.expr.read c = some (.ok none, c) := by
  simp only [starters, List.mem_cons, List.not_mem_nil, or_false, not_or] at hkind
  obtain ⟨hlabel, hstring, hleft, hinstr⟩ := hkind
  rw [Rule.read, bind_of_ok (accept_of_none h (if_neg hlabel))]
  dsimp only
  rw [bind_of_ok (x := current) rfl, h.current, if_neg hstring,
    bind_of_ok (accept_of_none h (if_neg hleft))]
  dsimp only
  rw [bind_of_ok (accept_of_none h (if_neg hinstr))]
  rfl

/-- **An expression is read alike** if those in fewer tokens are. The first
token decides which rule applies, for the descent as for the stream. -/
theorem agrees_expr_of_below (ih : AgreesBelow source s.pending) (h : Tracks source c s) :
    Agrees source (Rule.expr.read c) (settle s <$> readExpr s) := by
  have hlt : s.current.kind ≠ .eof → s.advance.pending < s.pending :=
    fun hk => Stream.pending_advance_lt hk
  by_cases hother : s.current.kind ∉ starters
  · rw [expr_of_not_mem h hother, readExpr_other hother]
    exact .ok h
  rw [Rule.read]
  by_cases hlabel : s.current.kind = .label
  · obtain ⟨c', haccept, h'⟩ := accept_of_some h (if_pos hlabel)
    rw [bind_of_ok haccept, readExpr_label hlabel]
    exact .ok h'
  rw [bind_of_ok (accept_of_none h (if_neg hlabel))]
  dsimp only
  rw [bind_of_ok (x := current) rfl, h.current]
  by_cases hstring : s.current.kind = .string
  · rw [if_pos hstring, readExpr_strings hstring]
    exact (agrees_strings h).map_some
  rw [if_neg hstring]
  by_cases hleft : s.current.kind = .leftParen
  · obtain ⟨c', haccept, h'⟩ := accept_of_some h (if_pos hleft)
    rw [bind_of_ok haccept, readExpr_enclosed hleft]
    exact (agrees_enclosed ih h' (hlt (by simp [hleft])) _).map_some
  have hinstr : s.current.kind = .instr := by simp_all [starters]
  obtain ⟨c', haccept, h'⟩ := accept_of_some h (if_pos hinstr)
  rw [bind_of_ok (accept_of_none h (if_neg hleft))]
  dsimp only
  rw [bind_of_ok haccept, readExpr_bare hinstr]
  exact (agrees_flat ih h' (hlt (by simp [hinstr])) _).map_some

/-- By induction on the tokens ahead. -/
theorem agreesBelow (source : String) (n : Nat) : AgreesBelow source n := by
  induction n with
  | zero => exact fun c s _ hs => absurd hs (Nat.not_lt_zero _)
  | succ n ih => exact fun c s hc hs => agrees_expr_of_below (ih.mono (by omega)) hc

/-- **Expressions are read alike.** -/
theorem agrees_expr (h : Tracks source c s) :
    Agrees source (Rule.expr.read c) (settle s <$> readExpr s) :=
  agreesBelow source _ c s h (Nat.lt_succ_self _)

/-! ## Modules -/

/-- One more form of a stream, with those before it. -/
def nextForm (forms : List Expr) (s : Stream) :
    Except ParseError (Iteration (List Expr) × Stream) :=
  if s.currentIs .eof then .ok (.done forms, s)
  else readExpr s >>= fun found =>
    found.elim (.error (.unexpected .leftParen none s.current)) fun r =>
      .ok (.again (forms ++ [r.1]), r.2)

/-- Forms up to the end of a stream, after those before them. -/
def restForms (forms : List Expr) (s : Stream) : Except ParseError (List Expr × Stream) :=
  readWhile (goesOn []) s >>= fun r =>
    if r.2.currentIs .eof then .ok (forms ++ r.1, r.2)
    else .error (.unexpected .leftParen none r.2.current)

/-- The forms of a source are one form and the rest of them, or none at the
end. -/
theorem restForms_eq (forms : List Expr) (s : Stream) :
    restForms forms s =
      nextForm forms s >>= fun r => r.1.elim (restForms · r.2) fun forms => .ok (forms, r.2) := by
  rw [restForms, nextForm, readWhile_eq]
  by_cases heof : s.currentIs .eof = true
  · simp [goesOn, heof, bind, Except.bind, Iteration.elim]
  · rw [if_pos (by simp [goesOn, heof]), if_neg heof]
    cases readExpr s with
    | error e => rfl
    | ok found =>
        cases found with
        | none =>
            change (if s.currentIs .eof then _ else _) = _
            rw [if_neg heof]
            rfl
        | some taken =>
            change ((readWhile (goesOn []) taken.2 >>= _) >>= _) = restForms _ taken.2
            rw [restForms]
            cases readWhile (goesOn []) taken.2 with
            | error e => rfl
            | ok r =>
                change (if r.2.currentIs .eof then Except.ok (forms ++ taken.1 :: r.1, _) else _) = _
                rw [List.append_cons]
                rfl

/-- One more form of a source. Here what starts no expression is an error.
-/
theorem agrees_nextForm (h : Tracks source c s) (forms : List Expr) :
    Agrees source (Loop.forms.iteration forms c) (nextForm forms s) := by
  rw [Loop.iteration, bind_of_ok (x := current) rfl, h.current, nextForm]
  by_cases heof : s.current.kind = .eof
  · have hstops : s.currentIs .eof = true := beq_iff_eq.2 heof
    rw [if_pos heof, if_pos hstops]
    exact .ok h
  · have hgoes : ¬ s.currentIs .eof = true := fun hk => heof (beq_iff_eq.1 hk)
    rw [if_neg heof, if_neg hgoes]
    refine (agrees_expr h).bind_map fun found c' _ h' => ?_
    cases found with
    | some taken => exact .ok h'
    | none =>
        have hcurrent : c'.current = s.current := h'.current
        change Agrees source ((current >>= _) c') _
        rw [bind_of_ok (x := current) rfl, hcurrent]
        exact .error

/-- A form that is read is an expression. -/
theorem readExpr_of_nextForm {forms forms' : List Expr} {s' : Stream}
    (h : nextForm forms s = .ok (.again forms', s')) : ∃ e, readExpr s = .ok (some (e, s')) := by
  rw [nextForm] at h
  split at h
  · cases h
  · obtain ⟨found, hfound, h⟩ := bind_eq_ok.1 h
    cases found with
    | none => cases h
    | some taken =>
        cases h
        exact ⟨taken.1, hfound⟩

/-- **The loop over the forms of a source** agrees with reading them all.
-/
theorem agrees_forms (h : Tracks source c s) (forms : List Expr) :
    Agrees source (Loop.forms.run forms c) (restForms forms s) := by
  refine agrees_loop nextForm restForms restForms_eq
    (fun forms c s hc _ => agrees_nextForm hc forms) ?_ h (Nat.lt_succ_self _) forms
  intro forms s forms' s' hnext
  obtain ⟨e, he⟩ := readExpr_of_nextForm hnext
  exact loose_bound? he

/-- What a module is read into, and the stream after it. -/
def readModule (s : Stream) : Except ParseError (Node × Stream) :=
  restForms [] s >>= fun r => .ok (moduleOf r.1 r.2.current.span.stop, r.2)

/-- A module is read from the first token, wherever the cursor was before.
-/
theorem agrees_module (h : Tracks source c s) :
    Agrees source (module c) (readModule (.ofSource source)) := by
  change Agrees source ((Loop.forms.run [] >>= _) (.ofSource c.source)) _
  refine (agrees_forms h.restart []).bind fun r c₁ _ h₁ => ?_
  rw [bind_of_ok (x := current) rfl, h₁.current]
  exact .ok h₁

theorem Agrees.map_fst {x : Option (Except ParseError α × Cursor)}
    {y : Except ParseError (α × Stream)} (h : Agrees source x y) :
    x.map (·.1) = some ((·.1) <$> y) := by
  cases h <;> rfl

/-- A whole source ends where its tokens do. -/
theorem map_readModule (source : String) :
    (·.1) <$> readModule (.ofSource source) = WasmText.parse source := by
  rw [parse_eq, readModule, restForms]
  cases hread : readWhile (goesOn []) (.ofSource source) with
  | error e => rfl
  | ok r =>
      change _ <$> ((if r.2.currentIs .eof then _ else _) >>= _ : Except ParseError _) =
        if r.2.currentIs .eof then _ else _
      split
      · next heof =>
        obtain ⟨ts, hts, -⟩ := takes_readWhile hread
        have hend : r.2.ahead = [] := Stream.ahead_eq_nil hts (beq_iff_eq.1 heof)
        have hcurrent : r.2.current = Token.atEnd r.2.finish := by simp [Stream.current, hend]
        change Except.ok (moduleOf ([] ++ r.1) r.2.current.span.stop) = _
        rw [hcurrent]
        rfl
      · rfl

end Forms

/-- **Every descent has an outcome**, and it is what the source denotes. -/
theorem parse_eq_some (source : String) : Descent.parse source = some (WasmText.parse source) := by
  rw [Descent.parse, (agrees_module (Tracks.ofSource source)).map_fst, map_readModule]

end Descent

end WasmText
