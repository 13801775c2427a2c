import WasmText.Proofs.Tree.Grammar
/-!
# Reading before a closing parenthesis

Every rule of the parser stops at a closing parenthesis that none of the
forms it has opened is waiting for. So what is read from a stream is read
from it also when a closing parenthesis comes after its last token, and
that parenthesis is left (`readWhile_before`).
-/

namespace WasmText

namespace Stream

/-- A later stream with the tokens of this one and a closing parenthesis
in front. -/
def before (s later : Stream) : Stream := later.on (s.ahead ++ .closing :: later.ahead)

variable {s s' : Stream} {t : Token} {kind : Token.Kind} {word : String} (later : Stream)

/-- Where there is a token to take, taking it leaves the parenthesis behind
the rest. -/
theorem advance_before (h : s.ahead ≠ []) : (s.before later).advance = s.advance.before later := by
  obtain ⟨t, ts, hs⟩ := List.exists_cons_of_ne_nil h
  simp [before, on, advance, hs]

/-- The first token ahead stays the first. -/
theorem current_before (h : s.ahead ≠ []) : (s.before later).current = s.current := by
  obtain ⟨t, ts, hs⟩ := List.exists_cons_of_ne_nil h
  simp [before, on, current, hs]

theorem current_of_nil (h : s.ahead = []) : s.current = .atEnd s.finish := by
  simp [current, h]

/-- Where no token is ahead, the parenthesis is the current one. -/
theorem current_before_of_nil (h : s.ahead = []) : (s.before later).current = .closing := by
  simp [before, on, current, h]

/-- A token of another class is taken or not, as it would be without the
parenthesis. -/
theorem accept_before (hright : kind ≠ .rightParen) (heof : kind ≠ .eof) :
    (s.before later).accept kind = (s.accept kind).map (Prod.map id (·.before later)) := by
  unfold accept
  by_cases h : s.ahead = []
  · have hclosing : Token.closing.kind ≠ kind := hright.symm
    have hend : (Token.atEnd s.finish).kind ≠ kind := heof.symm
    rw [current_before_of_nil later h, current_of_nil h, if_neg hclosing, if_neg hend]
    rfl
  · rw [current_before later h, advance_before later h]
    split <;> rfl

/-- The same for an instruction of a given word. -/
theorem acceptValue_before :
    (s.before later).acceptValue .instr word =
      (s.acceptValue .instr word).map (Prod.map id (·.before later)) := by
  unfold acceptValue
  by_cases h : s.ahead = []
  · rw [current_before_of_nil later h, current_of_nil h]
    rfl
  · rw [current_before later h, advance_before later h]
    split <;> rfl

/-- A token that is taken is still there to be taken. -/
theorem expect_before (heof : kind ≠ .eof) (h : s.expect kind = .ok (t, s')) :
    (s.before later).expect kind = .ok (t, s'.before later) := by
  have hahead : s.ahead ≠ [] := by simp [(ahead_of_expect h heof).1]
  unfold expect accept at h ⊢
  rw [current_before later hahead, advance_before later hahead]
  by_cases hkind : s.current.kind = kind
  · rw [if_pos hkind] at h ⊢
    obtain ⟨rfl, rfl⟩ := Prod.mk.inj (Except.ok.inj h)
    rfl
  · rw [if_neg hkind] at h
    cases h

/-- An instruction that must be there is still there. -/
theorem expectValue_before (h : s.expectValue .instr word = .ok (t, s')) :
    (s.before later).expectValue .instr word = .ok (t, s'.before later) := by
  unfold expectValue at h ⊢
  rw [acceptValue_before]
  cases haccept : s.acceptValue .instr word with
  | none => rw [haccept] at h; cases h
  | some taken =>
      rw [haccept] at h
      obtain rfl := Except.ok.inj h
      rfl

end Stream

namespace Parser

variable {s s' : Stream} (later : Stream)

/-! ## Leaves -/

/-- The word after a parenthesis. -/
theorem readHead_before {t : Token} (h : readHead s = .ok (t, s')) :
    readHead (s.before later) = .ok (t, s'.before later) := by
  rw [readHead_eq] at h ⊢
  rw [Stream.accept_before later (by decide) (by decide)]
  cases haccept : s.accept .reserved with
  | none =>
      rw [haccept] at h
      exact Stream.expect_before later (by decide) h
  | some taken =>
      rw [haccept] at h
      obtain rfl := Except.ok.inj h
      rfl

/-- The label after it, if there is one. -/
theorem readLabel_before :
    readLabel (s.before later) = Prod.map id (·.before later) (readLabel s) := by
  rw [readLabel_eq, readLabel_eq, Stream.accept_before later (by decide) (by decide)]
  cases s.accept .label <;> rfl

/-- The label at the end of a construct. -/
theorem readClosing_before {name : Option Label} (h : readClosing name s = .ok s') :
    readClosing name (s.before later) = .ok (s'.before later) := by
  rw [readClosing_eq] at h ⊢
  rw [Stream.accept_before later (by decide) (by decide)]
  cases haccept : s.accept .label with
  | none =>
      rw [haccept] at h
      obtain rfl := Except.ok.inj h
      rfl
  | some taken =>
      simp only [haccept, Option.map_some, Prod.map, id_eq] at h ⊢
      split at h
      next hname =>
        obtain rfl := Except.ok.inj h
        rw [if_pos hname]
      next => cases h

/-- A keyword, with the number that may have to follow it. -/
theorem readKeyword_before {t : Token} {p : Param} (h : readKeyword t s = .ok (p, s')) :
    readKeyword t (s.before later) = .ok (p, s'.before later) := by
  rw [readKeyword_eq] at h ⊢
  cases hkey : Keyword.ofWord? (trimEquals t.value) with
  | none => rw [hkey] at h; cases h
  | some key =>
      simp only [hkey] at h ⊢
      split at h
      next hequals =>
        rw [if_pos hequals, Stream.accept_before later (by decide) (by decide)]
        cases haccept : s.accept .number with
        | none =>
            simp only [haccept] at h
            obtain ⟨⟨v, s₁⟩, hv, h⟩ := bind_eq_ok.1 h
            obtain ⟨rfl, rfl⟩ := Prod.mk.inj (Except.ok.inj h)
            exact bind_eq_ok.2 ⟨_, Stream.expect_before later (by decide) hv, rfl⟩
        | some taken =>
            simp only [haccept] at h
            obtain ⟨rfl, rfl⟩ := Prod.mk.inj (Except.ok.inj h)
            rfl
      next hequals =>
        obtain ⟨rfl, rfl⟩ := Prod.mk.inj (Except.ok.inj h)
        rw [if_neg hequals]

/-- No argument starts at the end, and none at a closing parenthesis. -/
theorem readParam_before {found : Option (Param × Stream)} (h : readParam s = .ok found) :
    readParam (s.before later) = .ok (found.map (Prod.map id (·.before later))) := by
  by_cases hs : s.ahead = []
  · rw [readParam_eq, Stream.current_of_nil hs] at h
    obtain rfl := Except.ok.inj h
    rw [readParam_eq, Stream.current_before_of_nil later hs]
    rfl
  · rw [readParam_eq] at h ⊢
    rw [Stream.current_before later hs, Stream.advance_before later hs]
    split at h
    next =>
      obtain rfl := Except.ok.inj h
      rfl
    next =>
      obtain rfl := Except.ok.inj h
      rfl
    next =>
      obtain ⟨bytes, hbytes, h⟩ := bind_eq_ok.1 h
      obtain rfl := Except.ok.inj h
      exact bind_eq_ok.2 ⟨bytes, hbytes, rfl⟩
    next =>
      obtain rfl := Except.ok.inj h
      rfl
    next =>
      obtain ⟨taken, htaken, h⟩ := bind_eq_ok.1 h
      obtain rfl := Except.ok.inj h
      exact bind_eq_ok.2 ⟨_, readKeyword_before later htaken, rfl⟩
    next =>
      obtain rfl := Except.ok.inj h
      rfl

/-- Arguments end before the parenthesis, as they ended before the end. -/
theorem readParams_before {ps : List Param} (h : readParams s = .ok (ps, s')) :
    readParams (s.before later) = .ok (ps, s'.before later) := by
  induction hn : s.pending using Nat.strongRecOn generalizing s ps with
  | ind n ih =>
      rw [readParams_eq] at h ⊢
      obtain ⟨found, hfound, h⟩ := bind_eq_ok.1 h
      refine bind_eq_ok.2 ⟨_, readParam_before later hfound, ?_⟩
      cases found with
      | none =>
          obtain ⟨rfl, rfl⟩ := Prod.mk.inj (Except.ok.inj h)
          rfl
      | some taken =>
          obtain ⟨p, s₁⟩ := taken
          obtain ⟨⟨rest, s₂⟩, hrest, h⟩ := bind_eq_ok.1 h
          obtain ⟨rfl, rfl⟩ := Prod.mk.inj (Except.ok.inj h)
          have hlt : s₁.pending < n := hn ▸ pending_of_readParam hfound
          exact bind_eq_ok.2 ⟨_, ih _ hlt hrest rfl, rfl⟩

/-- So do strings side by side. -/
theorem readStrings_before {span : Span} {read : List UInt8 × Span}
    (h : readStrings span s = .ok (read, s')) :
    readStrings span (s.before later) = .ok (read, s'.before later) := by
  induction hn : s.pending using Nat.strongRecOn generalizing s span read with
  | ind n ih =>
      rw [readStrings_eq] at h ⊢
      rw [Stream.accept_before later (by decide) (by decide)]
      cases haccept : s.accept .string with
      | none =>
          rw [haccept] at h
          obtain ⟨rfl, rfl⟩ := Prod.mk.inj (Except.ok.inj h)
          rfl
      | some taken =>
          obtain ⟨t, s₁⟩ := taken
          simp only [haccept] at h
          obtain ⟨bytes, hbytes, h⟩ := bind_eq_ok.1 h
          obtain ⟨⟨rest, s₂⟩, hrest, h⟩ := bind_eq_ok.1 h
          obtain ⟨rfl, rfl⟩ := Prod.mk.inj (Except.ok.inj h)
          have hlt : s₁.pending < n := hn ▸ Stream.pending_lt_of_accept (by decide) haccept
          exact bind_eq_ok.2 ⟨bytes, hbytes, bind_eq_ok.2 ⟨_, ih _ hlt hrest rfl, rfl⟩⟩

/-! ## Forms -/

/-- Whether a test on streams looks only at tokens that are there. -/
def Looks (go : Stream → Bool) : Prop :=
  ∀ (s : Stream) (later : Stream), s.ahead ≠ [] → go (s.before later) = go s

/-- Whether a list of expressions goes on is told by the current token. -/
theorem looks_goesOn (words : List String) : Looks (goesOn words) := by
  intro s later h
  simp only [goesOn, Stream.currentIs, Stream.current_before later h]

/-- Whether a form of a signature starts is told by the current token and
the next, and a parenthesis that closes opens no form. -/
theorem looks_startsSignature : Looks startsSignature := by
  intro s later h
  obtain ⟨t, ts, hs⟩ := List.exists_cons_of_ne_nil h
  cases ts with
  | nil =>
      -- after the last token stands a parenthesis where the end was, and neither is a word
      have hend : (s.following.kind == .instr) = false := by simp [Stream.following, hs, Token.atEnd]
      have hclosing : ((s.before later).following.kind == .instr) = false := by
        simp [Stream.following, Stream.before, Stream.on, hs, Token.closing]
      simp only [startsSignature, hend, hclosing, Bool.and_false, Bool.false_and]
  | cons u us =>
      have hfollowing : (s.before later).following = s.following := by
        simp [Stream.following, Stream.before, Stream.on, hs]
      simp only [startsSignature, Stream.currentIs, Stream.current_before later h, hfollowing]

/-- At the end nothing is read, and at a closing parenthesis nothing
either. -/
theorem readExpr_of_nil (h : s.ahead = []) :
    readExpr s = .ok none ∧ readExpr (s.before later) = .ok none := by
  constructor
  · rw [readExpr_other]
    simp [Stream.current_of_nil h, Token.atEnd]
  · rw [readExpr_other]
    simp [Stream.current_before_of_nil later h, Token.closing]

theorem readWhile_of_readExpr {go : Stream → Bool} (h : readExpr s = .ok none) :
    readWhile go s = .ok ([], s) := by
  rw [readWhile_eq, h]
  split <;> rfl

/-- Expressions read from a stream with fewer than `n` tokens ahead are
read before a closing parenthesis. -/
def BeforeBelow (n : Nat) : Prop :=
  ∀ (go : Stream → Bool) (s s' : Stream) (es : List Expr), Looks go → s.pending < n →
    readWhile go s = .ok (es, s') → readWhile go (s.before later) = .ok (es, s'.before later)

variable {later} {n : Nat}

/-- Fewer tokens are no obstacle. -/
theorem BeforeBelow.mono {m : Nat} (h : BeforeBelow later n) (hle : m ≤ n) : BeforeBelow later m :=
  fun go s s' es hgo hs => h go s s' es hgo (Nat.lt_of_lt_of_le hs hle)

/-- The second branch of a flat conditional, if expressions in fewer tokens
are read as before. -/
theorem readElse_before (ih : BeforeBelow later n) {name : Option Label} {other : List Expr}
    (hs : s.pending ≤ n) (h : readElse name s = .ok (other, s')) :
    readElse name (s.before later) = .ok (other, s'.before later) := by
  rw [readElse_eq] at h ⊢
  rw [Stream.acceptValue_before]
  cases haccept : s.acceptValue .instr "else" with
  | none =>
      rw [haccept] at h
      obtain ⟨rfl, rfl⟩ := Prod.mk.inj (Except.ok.inj h)
      rfl
  | some taken =>
      obtain ⟨t, s₁⟩ := taken
      simp only [haccept] at h
      obtain ⟨s₂, hclosing, h⟩ := bind_eq_ok.1 h
      obtain ⟨⟨body, s₃⟩, hbody, h⟩ := bind_eq_ok.1 h
      obtain ⟨rfl, rfl⟩ := Prod.mk.inj (Except.ok.inj h)
      have h₁ : s₁.pending < s.pending := Stream.pending_lt_of_acceptValue (by decide) haccept
      have h₂ : s₂.pending ≤ s₁.pending := pending_of_readClosing hclosing
      have hread := ih _ _ _ _ (looks_goesOn _) (by omega) hbody
      exact bind_eq_ok.2 ⟨_, readClosing_before later hclosing, bind_eq_ok.2 ⟨_, hread, rfl⟩⟩

/-- **What follows the head of a flat form** is read before the parenthesis
as it is before the end, kind by kind. -/
theorem readFlat_before (ih : BeforeBelow later n) {head : Head} {e : Expr} (hs : s.pending < n)
    (h : readFlat head s = .ok (e, s')) :
    readFlat head (s.before later) = .ok (e, s'.before later) := by
  by_cases hblock : head.instr = "block" ∨ head.instr = "loop"
  · rw [readFlat_block hblock] at h ⊢
    obtain ⟨⟨es, s₁⟩, hes, h⟩ := bind_eq_ok.1 h
    obtain ⟨⟨close, s₂⟩, hclose, h⟩ := bind_eq_ok.1 h
    obtain ⟨s₃, hclosing, h⟩ := bind_eq_ok.1 h
    obtain ⟨rfl, rfl⟩ := Prod.mk.inj (Except.ok.inj h)
    refine bind_eq_ok.2 ⟨_, ih _ _ _ _ (looks_goesOn _) hs hes, ?_⟩
    refine bind_eq_ok.2 ⟨_, Stream.expectValue_before later hclose, ?_⟩
    exact bind_eq_ok.2 ⟨_, readClosing_before later hclosing, rfl⟩
  by_cases hif : head.instr = "if"
  · rw [readFlat_if hif] at h ⊢
    obtain ⟨⟨es, s₁⟩, hes, h⟩ := bind_eq_ok.1 h
    obtain ⟨⟨other, s₂⟩, hother, h⟩ := bind_eq_ok.1 h
    obtain ⟨⟨close, s₃⟩, hclose, h⟩ := bind_eq_ok.1 h
    obtain ⟨s₄, hclosing, h⟩ := bind_eq_ok.1 h
    obtain ⟨rfl, rfl⟩ := Prod.mk.inj (Except.ok.inj h)
    have h₁ : s₁.pending ≤ s.pending := loose_bound hes
    refine bind_eq_ok.2 ⟨_, ih _ _ _ _ (looks_goesOn _) hs hes, ?_⟩
    refine bind_eq_ok.2 ⟨_, readElse_before ih (by omega) hother, ?_⟩
    refine bind_eq_ok.2 ⟨_, Stream.expectValue_before later hclose, ?_⟩
    exact bind_eq_ok.2 ⟨_, readClosing_before later hclosing, rfl⟩
  by_cases hindirect : head.instr = "call_indirect"
  · rw [readFlat_indirect hindirect] at h ⊢
    obtain ⟨⟨es, s₁⟩, hes, h⟩ := bind_eq_ok.1 h
    obtain ⟨rfl, rfl⟩ := Prod.mk.inj (Except.ok.inj h)
    exact bind_eq_ok.2 ⟨_, ih _ _ _ _ looks_startsSignature hs hes, rfl⟩
  · have hplain : head.instr ∉ ["block", "loop", "if", "call_indirect"] := by
      simp_all
    rw [readFlat_plain hplain] at h ⊢
    obtain ⟨rfl, rfl⟩ := Prod.mk.inj (Except.ok.inj h)
    rfl

/-- **An expression is read before the parenthesis** as it is before the
end, if those in fewer tokens are. The parentheses that it opens it also
closes, so the one behind is none of its own. -/
theorem readExpr_before (ih : BeforeBelow later s.pending) (hs : s.ahead ≠ [])
    {found : Option (Expr × Stream)} (h : readExpr s = .ok found) :
    readExpr (s.before later) = .ok (found.map (Prod.map id (·.before later))) := by
  have hcurrent := Stream.current_before later hs
  have hadvance := Stream.advance_before later hs
  have hlt : s.current.kind ≠ .eof → s.advance.pending < s.pending :=
    fun hk => Stream.pending_advance_lt hk
  cases hkind : s.current.kind with
  | label =>
      rw [readExpr_label hkind] at h
      obtain rfl := Except.ok.inj h
      rw [readExpr_label (by rw [hcurrent, hkind]), hcurrent, hadvance]
      rfl
  | string =>
      rw [readExpr_string hkind] at h
      obtain ⟨bytes, hbytes, h⟩ := bind_eq_ok.1 h
      obtain ⟨⟨rest, s₁⟩, hrest, h⟩ := bind_eq_ok.1 h
      obtain rfl := Except.ok.inj h
      rw [readExpr_string (by rw [hcurrent, hkind]), hcurrent, hadvance]
      exact bind_eq_ok.2 ⟨bytes, hbytes, bind_eq_ok.2 ⟨_, readStrings_before later hrest, rfl⟩⟩
  | leftParen =>
      rw [readExpr_leftParen hkind] at h
      obtain ⟨⟨t, s₁⟩, hhead, h⟩ := bind_eq_ok.1 h
      obtain ⟨⟨leading, s₃⟩, hleading, h⟩ := bind_eq_ok.1 h
      obtain ⟨⟨es, s₄⟩, hes, h⟩ := bind_eq_ok.1 h
      obtain ⟨⟨trailing, s₅⟩, htrailing, h⟩ := bind_eq_ok.1 h
      obtain ⟨⟨close, s₆⟩, hclose, h⟩ := bind_eq_ok.1 h
      obtain rfl := Except.ok.inj h
      have hbound : s₃.pending < s.pending := by
        have h₀ := hlt (by simp [hkind])
        have h₁ : s₁.pending < s.advance.pending := loose_bound hhead
        have h₂ : (readLabel s₁).2.pending ≤ s₁.pending := (label s₁).2.2
        have h₃ : s₃.pending ≤ (readLabel s₁).2.pending := loose_bound hleading
        omega
      rw [readExpr_leftParen (by rw [hcurrent, hkind]), hcurrent, hadvance]
      refine bind_eq_ok.2 ⟨_, readHead_before later hhead, ?_⟩
      dsimp only
      rw [readLabel_before]
      refine bind_eq_ok.2 ⟨_, readParams_before later hleading, ?_⟩
      refine bind_eq_ok.2 ⟨_, ih _ _ _ _ (looks_goesOn _) hbound hes, ?_⟩
      refine bind_eq_ok.2 ⟨_, readParams_before later htrailing, ?_⟩
      exact bind_eq_ok.2 ⟨_, Stream.expect_before later (by decide) hclose, rfl⟩
  | instr =>
      rw [readExpr_instr hkind] at h
      obtain ⟨⟨params, s₂⟩, hparams, h⟩ := bind_eq_ok.1 h
      obtain ⟨taken, hflat, h⟩ := bind_eq_ok.1 h
      obtain rfl := Except.ok.inj h
      have hbound : s₂.pending < s.pending := by
        have h₀ := hlt (by simp [hkind])
        have h₁ : (readLabel s.advance).2.pending ≤ s.advance.pending := (label s.advance).2.2
        have h₂ : s₂.pending ≤ (readLabel s.advance).2.pending := loose_bound hparams
        omega
      rw [readExpr_instr (by rw [hcurrent, hkind]), hcurrent, hadvance, readLabel_before]
      refine bind_eq_ok.2 ⟨_, readParams_before later hparams, ?_⟩
      exact bind_eq_ok.2 ⟨_, readFlat_before ih hbound hflat, rfl⟩
  | _ =>
      rw [readExpr_other (by simp [hkind])] at h
      obtain rfl := Except.ok.inj h
      rw [readExpr_other (by simp [hcurrent, hkind])]
      rfl

/-- The step is `readExpr_before`, and the rest of the list has fewer
tokens ahead than the whole. -/
theorem beforeBelow (later : Stream) (n : Nat) : BeforeBelow later n := by
  induction n with
  | zero => exact fun _ s _ _ _ hs => absurd hs (Nat.not_lt_zero _)
  | succ n ih =>
      intro go s s' es hgo hs h
      by_cases hnil : s.ahead = []
      · obtain ⟨hend, hclosing⟩ := readExpr_of_nil later hnil
        rw [readWhile_of_readExpr hend] at h
        obtain ⟨rfl, rfl⟩ := Prod.mk.inj (Except.ok.inj h)
        exact readWhile_of_readExpr hclosing
      · rw [readWhile_eq] at h ⊢
        rw [hgo s later hnil]
        split at h
        next hstarts =>
          obtain ⟨found, hfound, h⟩ := bind_eq_ok.1 h
          rw [if_pos hstarts]
          refine bind_eq_ok.2 ⟨_, readExpr_before (ih.mono (by omega)) hnil hfound, ?_⟩
          cases found with
          | none =>
              obtain ⟨rfl, rfl⟩ := Prod.mk.inj (Except.ok.inj h)
              rfl
          | some taken =>
              obtain ⟨e, s₁⟩ := taken
              obtain ⟨⟨rest, s₂⟩, hrest, h⟩ := bind_eq_ok.1 h
              obtain ⟨rfl, rfl⟩ := Prod.mk.inj (Except.ok.inj h)
              have h₁ : s₁.pending < s.pending := loose_bound? hfound
              exact bind_eq_ok.2 ⟨_, ih _ _ _ _ hgo (by omega) hrest, rfl⟩
        next hstops =>
          obtain ⟨rfl, rfl⟩ := Prod.mk.inj (Except.ok.inj h)
          rw [if_neg hstops]

/-- **What is read, is read before a closing parenthesis.** -/
theorem readWhile_before {go : Stream → Bool} (hgo : Looks go) {es : List Expr}
    (h : readWhile go s = .ok (es, s')) (later : Stream) :
    readWhile go (s.before later) = .ok (es, s'.before later) :=
  beforeBelow later _ go s s' es hgo (Nat.lt_succ_self _) h

end Parser

end WasmText
