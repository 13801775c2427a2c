import WasmText.Proofs.Layout
import WasmText.Proofs.Tree.RoundTrip
/-!
# The parser drops and invents nothing

The grammar, as a relation between trees and the tokens that spell them:

    expr  = label
          | string+
          | ( head label? param* expr* param* )
          | (block or loop) label? param* expr* end label?
          | if label? param* expr* (else label? expr*)? end label?
          | call_indirect label? param* type-form*
          | instr label? param*
    param = number | hex | string | label | keyword | keyword= (number | hex)

Each rule names every token it spends and says what becomes of it, so a
tree and its tokens account for each other. A source that is parsed has a
derivation of its module from all of its significant tokens, each used
once and in order (`parse_derives`).
-/

namespace WasmText

/-! ## The grammar -/

namespace Grammar

open WasmText.Parser (trimEquals dropSeparators)

/-- A form may have a label. -/
inductive OptionalLabel : Option Label → List Token → Prop where
  | absent : OptionalLabel none []
  | present {t : Token} (hkind : t.kind = .label) : OptionalLabel (some ⟨t.value, t.span⟩) [t]

/-- After `end` and `else` a form may repeat its label. -/
inductive RepeatedLabel (name : Option Label) : List Token → Prop where
  | absent : RepeatedLabel name []
  | present {t : Token} (hkind : t.kind = .label) (hname : name.map (·.name) = some t.value) :
    RepeatedLabel name [t]

/-- A string token and the bytes it denotes. -/
def Denotes (t : Token) (bytes : List UInt8) : Prop :=
  t.kind = .string ∧ StringLiteral.decode t.value.toList = .ok bytes

/-- A parameter is one token, or two where a keyword takes a value. -/
inductive Parameter : Param → List Token → Prop where
  | number {t : Token} (hkind : t.kind = .number) :
    Parameter ⟨.number (dropSeparators t.value), t.span⟩ [t]
  | hex {t : Token} (hkind : t.kind = .hex) :
    Parameter ⟨.hex (dropSeparators t.value), t.span⟩ [t]
  | string {t : Token} {bytes : List UInt8} (hbytes : Denotes t bytes) :
    Parameter ⟨.str bytes, t.span⟩ [t]
  | label {t : Token} (hkind : t.kind = .label) : Parameter ⟨.label t.value, t.span⟩ [t]
  | keyword {t : Token} {key : Keyword} (hkind : t.kind = .reserved)
      (hkey : Keyword.ofWord? t.value = some key) : Parameter ⟨.keyword key none, t.span⟩ [t]
  | setting {t v : Token} {key : Keyword} (hkind : t.kind = .reserved)
      (hkey : Keyword.ofWord? (trimEquals t.value) = some key)
      (hequals : t.value.toList.getLast? = some '=') (hvalue : v.kind = .number ∨ v.kind = .hex) :
    Parameter ⟨.keyword key (some (dropSeparators v.value)), t.span.through v.span⟩ [t, v]

/-- Parameters, one after another. -/
inductive Parameters : List Param → List Token → Prop where
  | nil : Parameters [] []
  | cons {p : Param} {ps : List Param} {ts ts' : List Token} (hfirst : Parameter p ts)
      (hrest : Parameters ps ts') : Parameters (p :: ps) (ts ++ ts')

/-- The head of a flat form, with its place and what stands beside it. -/
inductive FlatHead : Head → List Token → Prop where
  | mk {t : Token} {name : Option Label} {ps : List Param} {label params : List Token}
      (hkind : t.kind = .instr) (hname : OptionalLabel name label) (hparams : Parameters ps params) :
    FlatHead ⟨trimEquals t.value, name, ps, t.span⟩ (t :: (label ++ params))

mutual

/-- The tokens that spell a tree. -/
inductive Tree : Expr → List Token → Prop where
  | ref {t : Token} (hkind : t.kind = .label) : Tree (.ref t.value t.span) [t]
  | data {t : Token} {ts : List Token} {pieces : List (List UInt8)}
      (hpieces : List.Forall₂ Denotes (t :: ts) pieces) :
    Tree (.data pieces.flatten (ts.foldl (fun span t => span.through t.span) t.span)) (t :: ts)
  | enclosed {left t right : Token} {name : Option Label} {ps ps' : List Param} {es : List Expr}
      {label leading children trailing : List Token} (hleft : left.kind = .leftParen)
      (hkind : t.kind = .reserved ∨ t.kind = .instr) (hname : OptionalLabel name label)
      (hleading : Parameters ps leading) (hchildren : Trees es children)
      (htrailing : Parameters ps' trailing) (hright : right.kind = .rightParen) :
    Tree (.node ⟨trimEquals t.value, name, ps ++ ps', left.span.through right.span⟩ es)
      (left :: t :: (label ++ leading ++ children ++ trailing ++ [right]))
  | block {head : Head} {close : Token} {es : List Expr} {opening children label : List Token}
      (hhead : FlatHead head opening) (hinstr : head.instr = "block" ∨ head.instr = "loop")
      (hchildren : Trees es children) (hclose : close.is .instr "end" = true)
      (hlabel : RepeatedLabel head.name label) :
    Tree (.node { head with span := head.span.through close.span } es)
      (opening ++ (children ++ close :: label))
  /-- The type forms stand anywhere before `else` and come first. -/
  | conditional {head : Head} {close : Token} {es other : List Expr}
      {opening first second label : List Token} (hhead : FlatHead head opening)
      (hinstr : head.instr = "if") (hfirst : Trees es first)
      (hsecond : Alternative head.name other second) (hclose : close.is .instr "end" = true)
      (hlabel : RepeatedLabel head.name label) :
    Tree (.node { head with span := head.span.through close.span }
        (es.filter (·.isSignature) ++
          .node (.plain "then" head.span) (es.filter (!·.isSignature)) :: other))
      (opening ++ (first ++ second ++ close :: label))
  | indirect {head : Head} {es : List Expr} {opening forms : List Token}
      (hhead : FlatHead head opening) (hinstr : head.instr = "call_indirect")
      (hforms : Trees es forms) (hsignature : ∀ e ∈ es, e.isSignature = true) :
    Tree (.node { head with span := es.foldl (fun span e => span.through e.span) head.span } es)
      (opening ++ forms)
  | plain {head : Head} {opening : List Token} (hhead : FlatHead head opening)
      (hinstr : head.instr ∉ ["block", "loop", "if", "call_indirect"]) :
    Tree (.node head []) opening

/-- The tokens that spell trees, one after another. -/
inductive Trees : List Expr → List Token → Prop where
  | nil : Trees [] []
  | cons {e : Expr} {es : List Expr} {ts ts' : List Token} (hfirst : Tree e ts)
      (hrest : Trees es ts') : Trees (e :: es) (ts ++ ts')

/-- The second branch of a flat `if` of the given label. -/
inductive Alternative : Option Label → List Expr → List Token → Prop where
  | absent {name : Option Label} : Alternative name [] []
  | present {name : Option Label} {t : Token} {es : List Expr} {label children : List Token}
      (hword : t.is .instr "else" = true) (hlabel : RepeatedLabel name label)
      (hchildren : Trees es children) :
    Alternative name [.node (.plain "else" t.span) es] (t :: (label ++ children))

end

/-- A module is a form of that name, or the forms of one that is not
written. -/
inductive Module : Node → List Token → Prop where
  | written {n : Node} {ts : List Token} (hinstr : n.instr = "module") (htree : Tree n.toExpr ts) :
    Module n ts
  | implied {forms : List Expr} {ts : List Token} {span : Span} (hforms : Trees forms ts)
      (hsingle : ∀ e, forms = [e] → e.isNode "module" = false) :
    Module ⟨.plain "module" span, forms⟩ ts

end Grammar

/-! ## Taking tokens -/

namespace Stream

variable {s s' : Stream} {t : Token} {kind : Token.Kind} {word : String}

/-- Only at the end is there no token ahead. -/
theorem ahead_eq_cons (h : s.current.kind ≠ .eof) : s.ahead = s.current :: s.advance.ahead := by
  cases hs : s.ahead with
  | nil => simp [current, hs, Token.atEnd] at h
  | cons t ts => simp [current, advance, hs]

/-- A token that is taken was the first one ahead. -/
theorem ahead_of_accept (h : s.accept kind = some (t, s')) (hk : kind ≠ .eof) :
    s.ahead = t :: s'.ahead ∧ t.kind = kind := by
  unfold accept at h
  split at h
  · next hkind =>
    cases h
    exact ⟨ahead_eq_cons (hkind ▸ hk), hkind⟩
  · cases h

/-- So was one that had to be there. -/
theorem ahead_of_expect (h : s.expect kind = .ok (t, s')) (hk : kind ≠ .eof) :
    s.ahead = t :: s'.ahead ∧ t.kind = kind := by
  unfold expect at h
  split at h
  · next taken haccept =>
    cases h
    exact ahead_of_accept haccept hk
  · cases h

/-- The same for an instruction of a given word. -/
theorem ahead_of_acceptValue (h : s.acceptValue .instr word = some (t, s')) :
    s.ahead = t :: s'.ahead ∧ t.is .instr word = true := by
  unfold acceptValue at h
  split at h
  · next hword =>
    cases h
    have hkind : s.current.kind = .instr := by
      rw [Token.is, Bool.and_eq_true, beq_iff_eq] at hword
      exact hword.1
    exact ⟨ahead_eq_cons (by simp [hkind]), hword⟩
  · cases h

theorem ahead_of_expectValue (h : s.expectValue .instr word = .ok (t, s')) :
    s.ahead = t :: s'.ahead ∧ t.is .instr word = true := by
  unfold expectValue at h
  split at h
  · next taken haccept =>
    cases h
    exact ahead_of_acceptValue haccept
  · cases h

/-- The tokens that lie between two streams are a phrase of the grammar. -/
def Takes (s s' : Stream) (phrase : List Token → Prop) : Prop :=
  ∃ ts, s.ahead = ts ++ s'.ahead ∧ phrase ts

/-- Taking a phrase leaves no more tokens than there were. -/
theorem Takes.pending_le {phrase : List Token → Prop} (h : s.Takes s' phrase) :
    s'.pending ≤ s.pending := by
  obtain ⟨ts, hts, -⟩ := h
  simp [pending, hts]

end Stream

namespace Parser

open Grammar

variable {s s' : Stream}

/-! ## Leaves -/

theorem ofToken_eq_ok {t : Token} {bytes : List UInt8} (h : StringLiteral.ofToken t = .ok bytes) :
    StringLiteral.decode t.value.toList = .ok bytes := by
  unfold StringLiteral.ofToken at h
  split at h
  · next hdecode =>
    cases h
    exact hdecode
  · cases h

/-- The word after a parenthesis is a keyword or an instruction. -/
theorem ahead_of_readHead {t : Token} (h : readHead s = .ok (t, s')) :
    s.ahead = t :: s'.ahead ∧ (t.kind = .reserved ∨ t.kind = .instr) := by
  rw [readHead_eq] at h
  split at h
  · next haccept =>
    cases h
    obtain ⟨hahead, hkind⟩ := Stream.ahead_of_accept haccept (by decide)
    exact ⟨hahead, .inl hkind⟩
  · obtain ⟨hahead, hkind⟩ := Stream.ahead_of_expect h (by decide)
    exact ⟨hahead, .inr hkind⟩

/-- A label is taken if it is there. -/
theorem takes_readLabel {name : Option Label} (h : readLabel s = (name, s')) :
    s.Takes s' (OptionalLabel name) := by
  rw [readLabel_eq] at h
  split at h
  · next haccept =>
    cases h
    obtain ⟨hahead, hkind⟩ := Stream.ahead_of_accept haccept (by decide)
    exact ⟨_, hahead, .present hkind⟩
  · cases h
    exact ⟨[], rfl, .absent⟩

/-- A label at the end repeats the one at the start. -/
theorem takes_readClosing {name : Option Label} (h : readClosing name s = .ok s') :
    s.Takes s' (RepeatedLabel name) := by
  rw [readClosing_eq] at h
  split at h
  · cases h
    exact ⟨[], rfl, .absent⟩
  · next haccept =>
    obtain ⟨hahead, hkind⟩ := Stream.ahead_of_accept haccept (by decide)
    split at h
    · next hname =>
      cases h
      exact ⟨_, hahead, .present hkind hname⟩
    · cases h

/-- A keyword takes the number after it if it announces one. -/
theorem takes_readKeyword {t : Token} {p : Param} (hkind : t.kind = .reserved)
    (h : readKeyword t s = .ok (p, s')) : s.Takes s' fun ts => Parameter p (t :: ts) := by
  rw [readKeyword_eq] at h
  split at h
  · cases h
  · next key hkey =>
    split at h
    · next hequals =>
      dsimp only at h
      split at h
      · next haccept =>
        cases h
        obtain ⟨hahead, hv⟩ := Stream.ahead_of_accept haccept (by decide)
        exact ⟨_, hahead, .setting hkind hkey hequals (.inl hv)⟩
      · obtain ⟨⟨v, s₁⟩, hexpect, h⟩ := bind_eq_ok.1 h
        cases h
        obtain ⟨hahead, hv⟩ := Stream.ahead_of_expect hexpect (by decide)
        exact ⟨_, hahead, .setting hkind hkey hequals (.inr hv)⟩
    · next hequals =>
      cases h
      rw [trimEquals_eq hequals] at hkey
      exact ⟨[], rfl, .keyword hkind hkey⟩

/-- **An argument is spelled by the tokens it is read from.** Which rule of
the grammar applies is told by the class of the first. -/
theorem takes_readParam {p : Param} (h : readParam s = .ok (some (p, s'))) :
    s.Takes s' (Parameter p) := by
  have hahead : s.current.kind ≠ .eof → s.ahead = [s.current] ++ s.advance.ahead :=
    fun hk => Stream.ahead_eq_cons hk
  rw [readParam_eq] at h
  split at h
  · next hkind =>
    cases h
    exact ⟨_, hahead (by simp [hkind]), .number hkind⟩
  · next hkind =>
    cases h
    exact ⟨_, hahead (by simp [hkind]), .hex hkind⟩
  · next hkind =>
    obtain ⟨bytes, hbytes, h⟩ := bind_eq_ok.1 h
    cases h
    exact ⟨_, hahead (by simp [hkind]), .string ⟨hkind, ofToken_eq_ok hbytes⟩⟩
  · next hkind =>
    cases h
    exact ⟨_, hahead (by simp [hkind]), .label hkind⟩
  · next hkind =>
    obtain ⟨taken, htaken, h⟩ := bind_eq_ok.1 h
    cases h
    obtain ⟨ts, hts, hparam⟩ := takes_readKeyword hkind htaken
    exact ⟨s.current :: ts, by rw [hahead (by simp [hkind]), hts]; rfl, hparam⟩
  · cases h

/-- Arguments are spelled one after another. -/
theorem takes_readParams {ps : List Param} (h : readParams s = .ok (ps, s')) :
    s.Takes s' (Parameters ps) := by
  induction hn : s.pending using Nat.strongRecOn generalizing s ps with
  | ind n ih =>
      rw [readParams_eq] at h
      obtain ⟨found, hfound, h⟩ := bind_eq_ok.1 h
      cases found with
      | none =>
          cases h
          exact ⟨[], rfl, .nil⟩
      | some taken =>
          obtain ⟨p, s₁⟩ := taken
          obtain ⟨⟨rest, s₂⟩, hrest, h⟩ := bind_eq_ok.1 h
          cases h
          have hlt : s₁.pending < n := hn ▸ pending_of_readParam hfound
          obtain ⟨ts, hts, hparam⟩ := takes_readParam hfound
          obtain ⟨ts', hts', hparams⟩ := ih _ hlt hrest rfl
          exact ⟨ts ++ ts', by rw [hts, hts', List.append_assoc], .cons hparam hparams⟩

/-- The strings after one that has been taken, with what they denote and
how far they reach. -/
theorem takes_readStrings {span last : Span} {bytes : List UInt8}
    (h : readStrings span s = .ok ((bytes, last), s')) :
    s.Takes s' fun ts => last = ts.foldl (fun span t => span.through t.span) span ∧
      ∃ pieces, List.Forall₂ Denotes ts pieces ∧ bytes = pieces.flatten := by
  induction hn : s.pending using Nat.strongRecOn generalizing s span bytes with
  | ind n ih =>
      rw [readStrings_eq] at h
      split at h
      · cases h
        exact ⟨[], rfl, rfl, [], .nil, rfl⟩
      · next t s₁ haccept =>
        obtain ⟨first, hfirst, h⟩ := bind_eq_ok.1 h
        obtain ⟨⟨⟨rest, span'⟩, s₂⟩, hrest, h⟩ := bind_eq_ok.1 h
        cases h
        have hlt : s₁.pending < n := hn ▸ Stream.pending_lt_of_accept (by decide) haccept
        obtain ⟨hahead, hkind⟩ := Stream.ahead_of_accept haccept (by decide)
        obtain ⟨ts, hts, hlast, pieces, hpieces, rfl⟩ := ih _ hlt hrest rfl
        exact ⟨t :: ts, by rw [hahead, hts]; rfl, hlast, first :: pieces,
          .cons ⟨hkind, ofToken_eq_ok hfirst⟩ hpieces, rfl⟩

/-! ## Forms

As the parser reads forms inside forms, each rule is shown under the
assumption that what stands inside is settled. -/

/-- Expressions read from a stream with fewer than `n` tokens ahead are
spelled by the tokens taken. -/
def TakesBelow (n : Nat) : Prop :=
  ∀ (go : Stream → Bool) (s s' : Stream) (es : List Expr), s.pending < n →
    readWhile go s = .ok (es, s') → s.Takes s' (Trees es)

/-- Fewer tokens are no obstacle. -/
theorem TakesBelow.mono {m n : Nat} (h : TakesBelow n) (hle : m ≤ n) : TakesBelow m :=
  fun go s s' es hs => h go s s' es (Nat.lt_of_lt_of_le hs hle)

/-- The second branch of a flat conditional, if expressions in fewer tokens
are spelled by theirs. -/
theorem takes_readElse {n : Nat} (ih : TakesBelow n) {name : Option Label} {other : List Expr}
    (hs : s.pending ≤ n) (h : readElse name s = .ok (other, s')) :
    s.Takes s' (Alternative name other) := by
  rw [readElse_eq] at h
  split at h
  · cases h
    exact ⟨[], rfl, .absent⟩
  · next t s₁ haccept =>
    obtain ⟨s₂, hclosing, h⟩ := bind_eq_ok.1 h
    obtain ⟨⟨es, s₃⟩, hchildren, h⟩ := bind_eq_ok.1 h
    cases h
    have h₁ : s₁.pending < s.pending := Stream.pending_lt_of_acceptValue (by decide) haccept
    have h₂ : s₂.pending ≤ s₁.pending := (takes_readClosing hclosing).pending_le
    obtain ⟨hahead, hword⟩ := Stream.ahead_of_acceptValue haccept
    obtain ⟨label, hts, hlabel⟩ := takes_readClosing hclosing
    obtain ⟨children, hts', hes⟩ := ih _ _ _ _ (by omega) hchildren
    exact ⟨t :: (label ++ children), by simp [hahead, hts, hts'], .present hword hlabel hes⟩

/-- Where a type form starts, a type form is read. -/
theorem isSignature_of_readExpr {e : Expr} (hstarts : startsSignature s = true)
    (h : readExpr s = .ok (some (e, s'))) : e.isSignature = true := by
  simp only [startsSignature, Bool.and_eq_true, Stream.currentIs, beq_iff_eq,
    List.contains_iff_mem] at hstarts
  obtain ⟨⟨hkind, -⟩, hword⟩ := hstarts
  rw [readExpr_leftParen hkind] at h
  obtain ⟨⟨t, s₁⟩, hhead, h⟩ := bind_eq_ok.1 h
  -- the head of the form is the token that was looked at
  have hfollowing : s.following = t := by
    have hleft := Stream.ahead_eq_cons (s := s) (by simp [hkind])
    rw [(ahead_of_readHead hhead).1] at hleft
    simp [Stream.following, hleft]
  rw [hfollowing] at hword
  obtain ⟨⟨leading, s₃⟩, -, h⟩ := bind_eq_ok.1 h
  obtain ⟨⟨children, s₄⟩, -, h⟩ := bind_eq_ok.1 h
  obtain ⟨⟨trailing, s₅⟩, -, h⟩ := bind_eq_ok.1 h
  obtain ⟨⟨close, s₆⟩, -, h⟩ := bind_eq_ok.1 h
  cases h
  have hsignature : ∀ word ∈ ["type", "param", "result"],
      (trimEquals word == "param" || trimEquals word == "result" || trimEquals word == "type") =
        true := by decide +kernel
  exact hsignature t.value hword

/-- Where type forms are asked for, only type forms are read. -/
theorem isSignature_of_readWhile {es : List Expr} (h : readWhile startsSignature s = .ok (es, s')) :
    ∀ e ∈ es, e.isSignature = true := by
  induction hn : s.pending using Nat.strongRecOn generalizing s es with
  | ind n ih =>
      rw [readWhile_eq] at h
      split at h
      · next hstarts =>
        obtain ⟨found, hfound, h⟩ := bind_eq_ok.1 h
        cases found with
        | none =>
            cases h
            exact List.forall_mem_nil _
        | some taken =>
            obtain ⟨e, s₁⟩ := taken
            obtain ⟨⟨rest, s₂⟩, hrest, h⟩ := bind_eq_ok.1 h
            cases h
            have hlt : s₁.pending < n := hn ▸ loose_bound? hfound
            exact List.forall_mem_cons.2
              ⟨isSignature_of_readExpr hstarts hfound, ih _ hlt hrest rfl⟩
      · cases h
        exact List.forall_mem_nil _

/-- **A flat form is spelled by its head and what it goes on to read**: up
to its `end` if it is a construct, over its type forms if it is an indirect
call, and else nothing. -/
theorem takes_readFlat {n : Nat} (ih : TakesBelow n) {head : Head} {opening : List Token} {e : Expr}
    (hhead : FlatHead head opening) (hs : s.pending < n) (h : readFlat head s = .ok (e, s')) :
    s.Takes s' fun ts => Tree e (opening ++ ts) := by
  by_cases hblock : head.instr = "block" ∨ head.instr = "loop"
  · rw [readFlat_block hblock] at h
    obtain ⟨⟨es, s₁⟩, hchildren, h⟩ := bind_eq_ok.1 h
    obtain ⟨⟨close, s₂⟩, hclose, h⟩ := bind_eq_ok.1 h
    obtain ⟨s₃, hclosing, h⟩ := bind_eq_ok.1 h
    cases h
    obtain ⟨children, hts, hes⟩ := ih _ _ _ _ hs hchildren
    obtain ⟨hahead, hword⟩ := Stream.ahead_of_expectValue hclose
    obtain ⟨label, hts', hlabel⟩ := takes_readClosing hclosing
    exact ⟨children ++ close :: label, by simp [hts, hahead, hts'],
      .block hhead hblock hes hword hlabel⟩
  by_cases hif : head.instr = "if"
  · rw [readFlat_if hif] at h
    obtain ⟨⟨es, s₁⟩, hfirst, h⟩ := bind_eq_ok.1 h
    obtain ⟨⟨other, s₂⟩, hother, h⟩ := bind_eq_ok.1 h
    obtain ⟨⟨close, s₃⟩, hclose, h⟩ := bind_eq_ok.1 h
    obtain ⟨s₄, hclosing, h⟩ := bind_eq_ok.1 h
    cases h
    have h₁ : s₁.pending ≤ s.pending := loose_bound hfirst
    obtain ⟨first, hts, hes⟩ := ih _ _ _ _ hs hfirst
    obtain ⟨second, hts', halternative⟩ := takes_readElse ih (by omega) hother
    obtain ⟨hahead, hword⟩ := Stream.ahead_of_expectValue hclose
    obtain ⟨label, hts'', hlabel⟩ := takes_readClosing hclosing
    exact ⟨first ++ second ++ close :: label, by simp [hts, hts', hahead, hts''],
      .conditional hhead hif hes halternative hword hlabel⟩
  by_cases hindirect : head.instr = "call_indirect"
  · rw [readFlat_indirect hindirect] at h
    obtain ⟨⟨es, s₁⟩, hforms, h⟩ := bind_eq_ok.1 h
    cases h
    obtain ⟨forms, hts, hes⟩ := ih _ _ _ _ hs hforms
    exact ⟨forms, hts, .indirect hhead hindirect hes (isSignature_of_readWhile hforms)⟩
  · have hplain : head.instr ∉ ["block", "loop", "if", "call_indirect"] := by
      simp_all
    rw [readFlat_plain hplain] at h
    cases h
    refine ⟨[], rfl, ?_⟩
    dsimp only
    rw [List.append_nil]
    exact .plain hhead hplain

/-- **An expression is spelled by the tokens it is read from**, if those in
fewer tokens are. The first token decides between the rules of the grammar:
a label and a string stand for themselves, a parenthesis opens a form, and
an instruction heads a flat one. -/
theorem takes_readExpr (ih : TakesBelow s.pending) {e : Expr}
    (h : readExpr s = .ok (some (e, s'))) :
    s.Takes s' (Tree e) := by
  have hahead : s.current.kind ≠ .eof → s.ahead = s.current :: s.advance.ahead :=
    fun hk => Stream.ahead_eq_cons hk
  have hlt : s.current.kind ≠ .eof → s.advance.pending < s.pending :=
    fun hk => Stream.pending_advance_lt hk
  cases hkind : s.current.kind with
  | label =>
      rw [readExpr_label hkind] at h
      cases h
      exact ⟨[s.current], hahead (by simp [hkind]), .ref hkind⟩
  | string =>
      rw [readExpr_string hkind] at h
      obtain ⟨first, hfirst, h⟩ := bind_eq_ok.1 h
      obtain ⟨⟨⟨rest, span⟩, s₁⟩, hrest, h⟩ := bind_eq_ok.1 h
      cases h
      obtain ⟨ts, hts, rfl, pieces, hpieces, rfl⟩ := takes_readStrings hrest
      refine ⟨s.current :: ts, by rw [hahead (by simp [hkind]), hts]; rfl, ?_⟩
      exact .data (.cons ⟨hkind, ofToken_eq_ok hfirst⟩ hpieces)
  | leftParen =>
      rw [readExpr_leftParen hkind] at h
      obtain ⟨⟨t, s₁⟩, hhead, h⟩ := bind_eq_ok.1 h
      obtain ⟨⟨name, s₂⟩, hname⟩ : ∃ r, readLabel s₁ = r := ⟨_, rfl⟩
      simp only [hname] at h
      obtain ⟨⟨ps, s₃⟩, hleading, h⟩ := bind_eq_ok.1 h
      obtain ⟨⟨es, s₄⟩, hchildren, h⟩ := bind_eq_ok.1 h
      obtain ⟨⟨ps', s₅⟩, htrailing, h⟩ := bind_eq_ok.1 h
      obtain ⟨⟨close, s₆⟩, hclose, h⟩ := bind_eq_ok.1 h
      cases h
      -- the children are read from a stream that the parenthesis has shortened
      have hbound : s₃.pending < s.pending := by
        have h₀ := hlt (by simp [hkind])
        have h₁ : s₁.pending < s.advance.pending := loose_bound hhead
        have h₂ := (takes_readLabel hname).pending_le
        have h₃ := (takes_readParams hleading).pending_le
        omega
      obtain ⟨ht, htkind⟩ := ahead_of_readHead hhead
      obtain ⟨label, hts₂, hlabel⟩ := takes_readLabel hname
      obtain ⟨leading, hts₃, hps⟩ := takes_readParams hleading
      obtain ⟨children, hts₄, hes⟩ := ih _ _ _ _ hbound hchildren
      obtain ⟨trailing, hts₅, hps'⟩ := takes_readParams htrailing
      obtain ⟨hright, hrightkind⟩ := Stream.ahead_of_expect hclose (by decide)
      refine ⟨_, ?_, .enclosed hkind htkind hlabel hps hes hps' hrightkind⟩
      rw [hahead (by simp [hkind]), ht, hts₂, hts₃, hts₄, hts₅, hright]
      simp
  | instr =>
      rw [readExpr_instr hkind] at h
      obtain ⟨⟨name, s₁⟩, hname⟩ : ∃ r, readLabel s.advance = r := ⟨_, rfl⟩
      rw [hname] at h
      obtain ⟨⟨ps, s₂⟩, hparams, h⟩ := bind_eq_ok.1 h
      obtain ⟨taken, hflat, h⟩ := bind_eq_ok.1 h
      cases h
      have hbound : s₂.pending < s.pending := by
        have h₀ := hlt (by simp [hkind])
        have h₁ := (takes_readLabel hname).pending_le
        have h₂ := (takes_readParams hparams).pending_le
        omega
      obtain ⟨label, hts₁, hlabel⟩ := takes_readLabel hname
      obtain ⟨params, hts₂, hps⟩ := takes_readParams hparams
      obtain ⟨ts, hts, htree⟩ := takes_readFlat ih (.mk hkind hlabel hps) hbound hflat
      refine ⟨_, ?_, htree⟩
      rw [hahead (by simp [hkind]), hts₁, hts₂, hts]
      simp
  | _ =>
      rw [readExpr_other (by simp [hkind])] at h
      cases h

/-- The step is `takes_readExpr`, and the rest of the list has fewer tokens
ahead than the whole. -/
theorem takesBelow (n : Nat) : TakesBelow n := by
  induction n with
  | zero => exact fun _ s _ _ hs => absurd hs (Nat.not_lt_zero _)
  | succ n ih =>
      intro go s s' es hs h
      rw [readWhile_eq] at h
      split at h
      · obtain ⟨found, hfound, h⟩ := bind_eq_ok.1 h
        cases found with
        | none =>
            cases h
            exact ⟨[], rfl, .nil⟩
        | some taken =>
            obtain ⟨e, s₁⟩ := taken
            obtain ⟨⟨rest, s₂⟩, hrest, h⟩ := bind_eq_ok.1 h
            cases h
            have h₁ : s₁.pending < s.pending := loose_bound? hfound
            obtain ⟨ts, hts, htree⟩ := takes_readExpr (ih.mono (by omega)) hfound
            obtain ⟨ts', hts', htrees⟩ := ih _ _ _ _ (by omega) hrest
            exact ⟨ts ++ ts', by rw [hts, hts', List.append_assoc], .cons htree htrees⟩
      · cases h
        exact ⟨[], rfl, .nil⟩

/-- **Expressions are spelled by the tokens they are read from.** -/
theorem takes_readWhile {go : Stream → Bool} {es : List Expr} (h : readWhile go s = .ok (es, s')) :
    s.Takes s' (Trees es) :=
  takesBelow _ go s s' es (Nat.lt_succ_self _) h

/-- Anything but a single module form gets a module around it. -/
theorem moduleOf_of_single {forms : List Expr} (h : ∀ e, forms = [e] → e.isNode "module" = false)
    (stop : Nat) : moduleOf forms stop = ⟨.plain "module" ⟨0, stop, 1, 1⟩, forms⟩ := by
  cases forms with
  | nil => rfl
  | cons e rest =>
      cases rest with
      | cons f rest => exact moduleOf_cons_cons e f rest stop
      | nil =>
          cases e with
          | ref name span => rfl
          | data bytes span => rfl
          | node head children =>
              have hinstr : head.instr ≠ "module" := beq_eq_false_iff_ne.1 (h _ rfl)
              rw [moduleOf, if_neg hinstr]

/-- The module around forms is written, or it is implied. -/
theorem module_moduleOf {forms : List Expr} {ts : List Token} (h : Trees forms ts) (stop : Nat) :
    Module (moduleOf forms stop) ts := by
  by_cases hsingle : ∃ e, forms = [e] ∧ e.isNode "module" = true
  · obtain ⟨e, rfl, hmodule⟩ := hsingle
    cases e with
    | ref name span => cases hmodule
    | data bytes span => cases hmodule
    | node head children =>
        have hinstr : head.instr = "module" := beq_iff_eq.1 hmodule
        cases h with
        | cons htree hnil =>
            cases hnil with
            | nil =>
                rw [moduleOf, if_pos hinstr, List.append_nil]
                exact .written hinstr htree
  · have himplied : ∀ e, forms = [e] → e.isNode "module" = false :=
      fun e he => Bool.eq_false_iff.2 fun hmodule => hsingle ⟨e, he, hmodule⟩
    rw [moduleOf_of_single himplied]
    exact .implied h himplied

end Parser

/-! ## Sources -/

/-- No token before the end is the end. -/
theorem Stream.ahead_eq_nil {source : String} {s : Stream} {ts : List Token}
    (hahead : (Stream.ofSource source).ahead = ts ++ s.ahead) (h : s.current.kind = .eof) :
    s.ahead = [] := by
  cases hs : s.ahead with
  | nil => rfl
  | cons t rest =>
      have hmem : t ∈ (Stream.ofSource source).ahead := by simp [hahead, hs]
      obtain ⟨htoken, -⟩ := List.mem_filter.1 hmem
      obtain ⟨_, c, cs, -, rfl⟩ := Lexer.mem_tokensFrom [] htoken
      simp [Stream.current, hs, (Lexer.cut_spec c cs).kind_ne_eof] at h

/-- **The parser drops and invents nothing.** A module that is parsed is
derived by the grammar from the significant tokens of its source, all of
them and in order. -/
theorem parse_derives {source : String} {n : Node} (h : parse source = .ok n) :
    Grammar.Module n ((Token.scan source).filter Token.isSignificant) := by
  rw [parse_eq] at h
  obtain ⟨⟨forms, s⟩, hforms, h⟩ := bind_eq_ok.1 h
  obtain ⟨ts, hts, htrees⟩ := Parser.takes_readWhile hforms
  dsimp only at h
  split at h
  · next heof =>
    cases h
    have hend : s.ahead = [] := Stream.ahead_eq_nil hts (beq_iff_eq.1 heof)
    have hall : (Token.scan source).filter Token.isSignificant = ts := by
      rw [Lexer.filter_isSignificant_scan]
      rw [hend, List.append_nil] at hts
      exact hts
    rw [hall]
    exact Parser.module_moduleOf htrees _
  · cases h

theorem exists_of_isOk {ε α : Type} {x : Except ε α} (h : x.isOk = true) : ∃ a, x = .ok a := by
  cases x with
  | error e => cases h
  | ok a => exact ⟨a, rfl⟩

/-- A flat `if` with a type form inside its first branch and labels at
its ends, a keyword with a value, and strings side by side. -/
theorem parse_derives_flat :
    ∃ n ts, parse "(func if $l nop (result i32) else $l (f offset=0x8) end $l) (data \"a\" \"b\")" = .ok n ∧
      ts.map Token.text = ["(", "func", "if", "$l", "nop", "(", "result", "i32", ")", "else", "$l",
        "(", "f", "offset=", "0x8", ")", "end", "$l", ")", "(", "data", "\"a\"", "\"b\"", ")"] ∧
      Grammar.Module n ts :=
  (exists_of_isOk (by decide +kernel)).imp fun _ hparse =>
    ⟨_, hparse, by decide +kernel, parse_derives hparse⟩

end WasmText
