import WasmText.Proofs.Tree.Descent
import WasmText.Proofs.Tree.Heads
import WasmText.Proofs.Tree.Size
/-!
# Descents get on

A loop that goes on without taking a token goes on for ever. No loop of a
descent does: from every cursor that operations lead to, an iteration
takes tokens, ends its loop or fails. One of the loops would go on also
where it found no expression, but the two tokens that it looks at before
are the start of one.
-/

namespace WasmText

open WasmText.Parser

/-! ## Tokens ahead -/

namespace Cursor

variable {source : String} {c c' : Cursor} {i : Nat}

/-- The significant tokens ahead of a cursor, without the end of the
source. -/
def ahead (c : Cursor) : List Token :=
  (c.current :: c.following :: c.scanner.upcoming).takeWhile (·.kind != .eof)

/-- A cursor that some operations lead to from the start of a source. -/
def Reached (source : String) (c : Cursor) : Prop :=
  ∃ ops, (walk perform (ofSource source) ops).2 = c

/-- A cursor that is reached stands at a token. -/
theorem Reached.exists_at (h : Reached source c) : ∃ i, At source c i := by
  obtain ⟨ops, rfl⟩ := h
  exact ⟨_, (walk_simulates (at_ofSource source) (fun c i op hc => hc.perform op) ops).2⟩

/-- At a position, what is ahead is what the tokens have from there on. -/
theorem At.ahead_eq (h : At source c i) : c.ahead = (Stream.ofSource source).all.drop i := by
  have hinside := h.inside
  have hend := kind_tokenAt_iff hinside
  rw [← h.current] at hend
  rw [Stream.length_significantTokens] at hinside hend
  rw [ahead]
  by_cases heof : c.current.kind = .eof
  · have hlast := hend.1 heof
    rw [List.takeWhile_cons_of_neg (by simp [heof]), List.drop_eq_nil_of_le (by omega)]
  · have hlt : i < (Stream.ofSource source).all.length := by
      have hne : i ≠ (Stream.ofSource source).all.length + 1 - 1 := fun hi => heof (hend.2 hi)
      omega
    -- the two tokens in hand and those that come up are the tokens from here on
    have hall : c.current :: c.following :: c.scanner.upcoming =
        (Stream.ofSource source).all.drop i ++ [Token.endOf source] := by
      have hsplit : (significantTokens source).drop i =
          (Stream.ofSource source).all.drop i ++ [Token.endOf source] := by
        rw [significantTokens_eq, List.drop_append_of_le_length (Nat.le_of_lt hlt)]
      have hlength := Stream.length_significantTokens source
      rw [← hsplit, h.scanner, h.current, h.following, tokenAt, tokenAt,
        List.getElem?_eq_getElem (by omega), List.getElem?_eq_getElem (by omega),
        Option.getD_some, Option.getD_some, ← List.drop_eq_getElem_cons,
        ← List.drop_eq_getElem_cons]
    have hnone : ∀ t ∈ (Stream.ofSource source).all.drop i, (t.kind != .eof) = true :=
      fun t ht => bne_iff_ne.2 (kind_ne_eof_of_mem (List.mem_of_mem_drop ht))
    rw [hall, List.takeWhile_append_of_pos hnone]
    exact List.append_nil _

/-- Between two cursors lies at least one significant token, and none is
skipped. -/
def Passes (c c' : Cursor) : Prop := ∃ taken, taken ≠ [] ∧ c.ahead = taken ++ c'.ahead

end Cursor

theorem Stream.Takes.imp {s s' : Stream} {p q : List Token → Prop} (h : s.Takes s' p)
    (hpq : ∀ ts, p ts → q ts) : s.Takes s' q := by
  obtain ⟨ts, hts, hp⟩ := h
  exact ⟨ts, hts, hpq ts hp⟩

namespace Tracks

variable {source : String} {c c' : Cursor} {s s' : Stream}

/-- A cursor that is reached follows a stream. -/
theorem of_reached (h : c.Reached source) : ∃ s, Tracks source c s := by
  obtain ⟨i, hi⟩ := h.exists_at
  exact ⟨(Stream.ofSource source).on ((Stream.ofSource source).all.drop i), i, hi, rfl, rfl,
    hi.inside, rfl⟩

/-- A cursor has the tokens of its stream ahead. -/
theorem ahead (h : Tracks source c s) : c.ahead = s.ahead := by
  obtain ⟨i, hc, hs⟩ := h
  rw [hc.ahead_eq, hs.ahead]

/-- A cursor passes a token where its stream takes one. -/
theorem passes (h : Tracks source c s) (h' : Tracks source c' s') (hs : s.Takes s' (· ≠ [])) :
    c.Passes c' := by
  obtain ⟨taken, htaken, hne⟩ := hs
  exact ⟨taken, hne, by rw [h.ahead, h'.ahead, htaken]⟩

end Tracks

namespace Descent

/-! ## Iterations -/

/-- What may come of a try for an expression. -/
inductive Tried (c : Cursor) : Option (Except ParseError (Option Expr) × Cursor) → Prop where
  /-- It takes tokens, no fewer than the expression holds. -/
  | found {e : Expr} {c' : Cursor} (taken : List Token) (hne : taken ≠ [])
      (hahead : c.ahead = taken ++ c'.ahead) (hsize : e.size ≤ taken.length) :
    Tried c (some (.ok (some e), c'))
  /-- It leaves the cursor as it was. -/
  | absent : Tried c (some (.ok none, c))
  | failed {e : ParseError} {c' : Cursor} : Tried c (some (.error e, c'))

/-- What may come of an iteration of a loop. -/
inductive Moved (c : Cursor) {α : Type} :
    Option (Except ParseError (Iteration α) × Cursor) → Prop where
  /-- A loop goes on only past tokens. -/
  | again {a : α} {c' : Cursor} (h : c.Passes c') : Moved c (some (.ok (.again a), c'))
  | done {a : α} {c' : Cursor} : Moved c (some (.ok (.done a), c'))
  | failed {e : ParseError} {c' : Cursor} : Moved c (some (.error e, c'))

section Progress

variable {source : String} {c : Cursor} {s : Stream}

theorem takes_expr {e : Expr} {s' : Stream} (h : readExpr s = .ok (some (e, s'))) :
    s.Takes s' (Grammar.Tree e) :=
  takes_readExpr (takesBelow _) h

/-- An expression takes at least one token. -/
theorem takes_some_of_readExpr {e : Expr} {s' : Stream} (h : readExpr s = .ok (some (e, s'))) :
    s.Takes s' (· ≠ []) :=
  (takes_expr h).imp fun _ htree => htree.ne_nil

/-- Every attempt at an expression takes tokens, leaves the cursor where it
was, or fails. -/
theorem tried_expr (h : Tracks source c s) : Tried c (Rule.expr.read c) := by
  by_cases hkind : s.current.kind ∉ starters
  · rw [expr_of_not_mem h hkind]
    exact .absent
  have hread := agrees_expr h
  generalize Rule.expr.read c = outcome at hread
  cases hfound : readExpr s with
  | error e =>
      rw [hfound] at hread
      change Agrees source outcome (.error e) at hread
      cases hread
      exact .failed
  | ok found =>
      cases found with
      | none => exact absurd hfound (readExpr_ne_none (not_not.1 hkind))
      | some taken =>
          rw [hfound] at hread
          change Agrees source outcome (.ok (some taken.1, taken.2)) at hread
          obtain ⟨ts, hts, htree⟩ := takes_expr hfound
          cases hread with
          | ok h' =>
              exact .found ts htree.ne_nil (by rw [h.ahead, h'.ahead, hts]) htree.size_le

/-- An iteration moves on if what it agrees with does. -/
theorem Agrees.moved {α : Type} {x : Option (Except ParseError (Iteration α) × Cursor)}
    {y : Except ParseError (Iteration α × Stream)} (hxy : Agrees source x y)
    (h : Tracks source c s) (hy : ∀ a s', y = .ok (.again a, s') → s.Takes s' (· ≠ [])) :
    Moved c x := by
  cases hxy with
  | error => exact .failed
  | @ok result c' s' h' =>
      cases result with
      | again a => exact .again (h.passes h' (hy a s' rfl))
      | done a => exact .done

/-- **An iteration takes a token, ends its loop or fails.** This holds also of
the loop for the type forms of a flat call, which would go on without an
expression: where it tries for one, there is one or an error. -/
theorem moved_iteration {α : Type} (h : Tracks source c s) (l : Loop α) (a : α) :
    Moved c (l.iteration a c) := by
  cases l with
  | forms =>
      refine (agrees_nextForm h a).moved h fun forms s' hnext => ?_
      obtain ⟨e, he⟩ := readExpr_of_nextForm hnext
      exact takes_some_of_readExpr he
  | params =>
      refine (agrees_nextParam h a).moved h fun ps s' hnext => ?_
      obtain ⟨p, hp⟩ := eq_of_map_addTo hnext
      exact (takes_readParam hp).imp fun _ hparam => List.length_pos_iff.1 hparam.length_pos
  | strings =>
      refine (agrees_nextString h a).moved h fun state s' hnext => ?_
      obtain ⟨t, ht⟩ := accept_of_nextString hnext
      exact ⟨[t], (Stream.ahead_of_accept ht (by decide)).1, List.cons_ne_nil _ _⟩
  | children words =>
      refine (agrees_nextChild h (agrees_expr h) words a).moved h fun es s' hnext => ?_
      obtain ⟨e, he⟩ := eq_of_map_addTo hnext
      exact takes_some_of_readExpr (readExpr_of_readNext he)
  | signature =>
      refine (agrees_nextTypeForm h (agrees_expr h) a).moved h fun n s' hnext => ?_
      obtain ⟨e, he⟩ := eq_of_map_addTo hnext
      exact takes_some_of_readExpr (readExpr_of_readNext he)

end Progress

/-- What it means that descents into a source get on and come to an end. -/
structure Progress (source : String) : Prop where
  expr : ∀ c, c.Reached source → Tried c (Rule.expr.read c)
  iteration : ∀ c, c.Reached source → ∀ (α : Type) (l : Loop α) (a : α), Moved c (l.iteration a c)
  /-- There is an outcome, and it is what the source denotes. -/
  outcome : Descent.parse source = some (WasmText.parse source)
  /-- All that a module holds is paid for by tokens, but for the module
  itself where it is not written. -/
  size : ∀ n, Descent.parse source = some (.ok n) →
    n.toExpr.size ≤ ((Token.scan source).filter Token.isSignificant).length ∨
      (∃ span, n.toHead = .plain "module" span) ∧
        Expr.sizeAll n.children ≤ ((Token.scan source).filter Token.isSignificant).length

/-- **Descents get on.** From every cursor over a source, an expression
takes at least one token, and no fewer than it holds; without one the
cursor stays as it was. Every iteration of a loop takes a token, ends the
loop or fails. So the descent into a source has an outcome, and a module
with no more forms, labels, parameters, references and strings than the
source has significant tokens, a module that is not written apart. -/
theorem descent_progresses (source : String) : Progress source where
  expr c hc := by
    obtain ⟨s, h⟩ := Tracks.of_reached hc
    exact tried_expr h
  iteration c hc α l a := by
    obtain ⟨s, h⟩ := Tracks.of_reached hc
    exact moved_iteration h l a
  outcome := parse_eq_some source
  size n hn := by
    rw [parse_eq_some] at hn
    obtain ⟨ts, rfl, hmodule⟩ := Grammar.exists_module_of_parse (Option.some.inj hn)
    exact hmodule.size_le

end Descent

end WasmText
