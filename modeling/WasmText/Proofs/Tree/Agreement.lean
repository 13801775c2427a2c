import WasmText.Tree.Descent
import WasmText.Proofs.Token.Cursor
import WasmText.Proofs.Tree.Grammar
/-!
# Descents beside streams

A descent moves a cursor, and the parser reads from a stream. When the two
stand at the same position of a source (`Tracks`), a step of the one
agrees with a step of the other: they fail alike, or they give the same
and stand at the same position again (`Agrees`). Steps that agree do so
one after another. For loops this takes an argument that streams have and
descents lack, that a stream has fewer tokens ahead after every iteration
(`agrees_loop`).
-/

namespace WasmText

open WasmText.Parser

/-- A cursor and a stream at the same position in the tokens of a source. -/
def Tracks (source : String) (c : Cursor) (s : Stream) : Prop :=
  ∃ i, Cursor.At source c i ∧ Stream.At source s i

namespace Tracks

variable {source : String} {c c' : Cursor} {s s' : Stream}

/-- Both start at the first token of a source. -/
theorem ofSource (source : String) : Tracks source (.ofSource source) (.ofSource source) :=
  ⟨0, Cursor.at_ofSource source, Stream.at_ofSource source⟩

/-- They see the same current token. -/
theorem current (h : Tracks source c s) : c.current = s.current := by
  obtain ⟨i, hc, hs⟩ := h
  rw [hc.current, hs.current_eq]

/-- They see the same token after it. -/
theorem following (h : Tracks source c s) : c.following = s.following := by
  obtain ⟨i, hc, hs⟩ := h
  rw [hc.following, hs.following_eq]

/-- They move on together. -/
theorem advance (h : Tracks source c s) : Tracks source c.advance.2 s.advance := by
  obtain ⟨i, hc, hs⟩ := h
  exact ⟨_, hc.advance.2, hs.advance⟩

/-- A cursor knows its source, and can start over. -/
theorem restart (h : Tracks source c s) :
    Tracks source (.ofSource c.source) (.ofSource source) := by
  obtain ⟨i, hc, -⟩ := h
  rw [hc.origin]
  exact ofSource source

end Tracks

/-- What is made of an iteration that goes on, or is over. -/
def Iteration.elim {α β : Type} (again done : α → β) : Iteration α → β
  | .again a => again a
  | .done a => done a

namespace Descent

/-! ## Steps -/

section Steps

variable {α β : Type} {x : Descent α} {f : α → Descent β} {c c' : Cursor}

theorem bind_apply : (x >>= f) c = (x c).bind fun r => ExceptT.bindCont f r.1 r.2 := rfl

/-- After a step that succeeds the next one goes on from where it ended. -/
theorem bind_of_ok {a : α} (h : x c = some (.ok a, c')) : (x >>= f) c = f a c' := by
  rw [bind_apply, h]
  rfl

/-- After a step that fails there is no next one. -/
theorem bind_of_error {e : ParseError} (h : x c = some (.error e, c')) :
    (x >>= f) c = some (.error e, c') := by
  rw [bind_apply, h]
  rfl

end Steps

/-! ## Agreement -/

/-- An outcome of a descent and an outcome of reading from a stream: both
fail alike, or both give the same and leave cursor and stream together. -/
inductive Agrees (source : String) {α : Type} :
    Option (Except ParseError α × Cursor) → Except ParseError (α × Stream) → Prop where
  | ok {a : α} {c : Cursor} {s : Stream} (h : Tracks source c s) :
    Agrees source (some (.ok a, c)) (.ok (a, s))
  | error {e : ParseError} {c : Cursor} : Agrees source (some (.error e, c)) (.error e)

section Agreement

variable {source : String} {α β γ : Type} {c : Cursor} {s : Stream}

/-- **Steps that agree, one after another, agree**, also where the stream
gives the result in other words. -/
theorem Agrees.bind_map {x : Descent α} {y : Except ParseError γ} {k : γ → α × Stream}
    {f : α → Descent β} {g : γ → Except ParseError (β × Stream)} (h : Agrees source (x c) (k <$> y))
    (hf : ∀ r c', y = .ok r → Tracks source c' (k r).2 → Agrees source (f (k r).1 c') (g r)) :
    Agrees source ((x >>= f) c) (y >>= g) := by
  generalize hx : x c = outcome at h
  cases y with
  | ok r =>
      have hr := fun c' => hf r c' rfl
      change Agrees source outcome (.ok (k r)) at h
      generalize k r = result at h hr
      cases h with
      | ok htracks =>
          rw [bind_of_ok hx]
          exact hr _ htracks
  | error e =>
      change Agrees source outcome (.error e) at h
      cases h with
      | error =>
          rw [bind_of_error hx]
          exact .error

/-- **Steps that agree, one after another, agree.** -/
theorem Agrees.bind {x : Descent α} {y : Except ParseError (α × Stream)} {f : α → Descent β}
    {g : α × Stream → Except ParseError (β × Stream)} (h : Agrees source (x c) y)
    (hf : ∀ r c', y = .ok r → Tracks source c' r.2 → Agrees source (f r.1 c') (g r)) :
    Agrees source ((x >>= f) c) (y >>= g) := by
  refine Agrees.bind_map (k := fun r => r) ?_ hf
  cases y with
  | ok r => exact h
  | error e => exact h

/-! ## Tokens -/

/-- The bytes of a string are the same, and neither side moves. -/
theorem agrees_bytesOf (h : Tracks source c s) (t : Token) :
    Agrees source (bytesOf t c) ((·, s) <$> StringLiteral.ofToken t) := by
  unfold bytesOf
  cases StringLiteral.ofToken t with
  | ok bytes => exact .ok h
  | error e => exact .error

/-- A descent takes a token that fits, and the cursor moves on. -/
theorem accept_of_fits (h : Tracks source c s) {p : Token.Pattern} (hp : p.fits s.current = true) :
    ∃ c', accept p c = some (.ok (some s.current), c') ∧ Tracks source c' s.advance := by
  refine ⟨c.advance.2, ?_, h.advance⟩
  obtain ⟨i, hc, -⟩ := id h
  rw [← h.current] at hp ⊢
  simp [accept, Cursor.accept, hp, hc.advance.1]

/-- It leaves a token that does not fit. -/
theorem accept_of_not_fits (h : Tracks source c s) {p : Token.Pattern}
    (hp : p.fits s.current = false) : accept p c = some (.ok none, c) := by
  rw [← h.current] at hp
  simp [accept, Cursor.accept, hp]

/-- Where the stream takes a token of a class, so does the descent. -/
theorem accept_of_some (h : Tracks source c s) {kind : Token.Kind} {t : Token} {s' : Stream}
    (hs : s.accept kind = some (t, s')) :
    ∃ c', accept ⟨kind, none⟩ c = some (.ok (some t), c') ∧ Tracks source c' s' := by
  unfold Stream.accept at hs
  split at hs
  · next hkind =>
    obtain ⟨rfl, rfl⟩ := Prod.mk.inj (Option.some.inj hs)
    exact accept_of_fits h (by simp [Token.Pattern.fits, hkind])
  · cases hs

/-- Where the stream takes none, the descent does not move. -/
theorem accept_of_none (h : Tracks source c s) {kind : Token.Kind} (hs : s.accept kind = none) :
    accept ⟨kind, none⟩ c = some (.ok none, c) := by
  unfold Stream.accept at hs
  split at hs
  · cases hs
  · next hkind => exact accept_of_not_fits h (by simp [Token.Pattern.fits, hkind])

/-- The same for a token of a class and a value. -/
theorem acceptValue_of_some (h : Tracks source c s) {kind : Token.Kind} {value : String} {t : Token}
    {s' : Stream} (hs : s.acceptValue kind value = some (t, s')) :
    ∃ c', accept ⟨kind, some value⟩ c = some (.ok (some t), c') ∧ Tracks source c' s' := by
  unfold Stream.acceptValue at hs
  split at hs
  · next hvalue =>
    obtain ⟨rfl, rfl⟩ := Prod.mk.inj (Option.some.inj hs)
    exact accept_of_fits h hvalue
  · cases hs

theorem acceptValue_of_none (h : Tracks source c s) {kind : Token.Kind} {value : String}
    (hs : s.acceptValue kind value = none) :
    accept ⟨kind, some value⟩ c = some (.ok none, c) := by
  unfold Stream.acceptValue at hs
  split at hs
  · cases hs
  · next hvalue => exact accept_of_not_fits h (Bool.eq_false_iff.2 hvalue)

/-- A token that must be there is there for both, or both fail at the
current one. -/
theorem agrees_expect_pattern (h : Tracks source c s) (p : Token.Pattern) :
    Agrees source (expect p c) (if p.fits s.current then .ok (s.current, s.advance)
      else .error (.unexpected p.kind p.value s.current)) := by
  obtain ⟨i, hc, -⟩ := id h
  rw [← h.current]
  by_cases hp : p.fits c.current = true
  · simp only [expect, Cursor.expect, Cursor.accept, hp, if_true, hc.advance.1]
    exact .ok h.advance
  · simp only [expect, Cursor.expect, Cursor.accept, hp]
    exact .error

/-- A class of token that must be there. -/
theorem agrees_expect (h : Tracks source c s) (kind : Token.Kind) :
    Agrees source (expect ⟨kind, none⟩ c) (s.expect kind) := by
  have hexpect := agrees_expect_pattern h ⟨kind, none⟩
  unfold Stream.expect Stream.accept
  by_cases hkind : s.current.kind = kind
  · simpa [Token.Pattern.fits, hkind] using hexpect
  · simpa [Token.Pattern.fits, hkind] using hexpect

/-- A word that must be there. -/
theorem agrees_expectValue (h : Tracks source c s) (kind : Token.Kind) (value : String) :
    Agrees source (expect ⟨kind, some value⟩ c) (s.expectValue kind value) := by
  have hexpect := agrees_expect_pattern h ⟨kind, some value⟩
  unfold Stream.expectValue Stream.acceptValue
  by_cases hvalue : s.current.is kind value = true
  · simpa [Token.Pattern.fits, hvalue] using hexpect
  · simpa [Token.Pattern.fits, hvalue] using hexpect

/-! ## Leaves -/

/-- The word after a parenthesis. -/
theorem agrees_headToken (h : Tracks source c s) :
    Agrees source (headToken c) (readHead s) := by
  rw [readHead_eq, headToken]
  cases hs : s.accept .reserved with
  | none =>
      rw [bind_of_ok (accept_of_none h hs)]
      exact agrees_expect h .instr
  | some taken =>
      obtain ⟨c', haccept, h'⟩ := accept_of_some h hs
      rw [bind_of_ok haccept]
      exact .ok h'

/-- A label that may be there never fails. -/
theorem label_eq (h : Tracks source c s) :
    ∃ c', label c = some (.ok (readLabel s).1, c') ∧ Tracks source c' (readLabel s).2 := by
  rw [readLabel_eq, label]
  cases hs : s.accept .label with
  | none =>
      rw [bind_of_ok (accept_of_none h hs)]
      exact ⟨c, rfl, h⟩
  | some taken =>
      obtain ⟨c', haccept, h'⟩ := accept_of_some h hs
      rw [bind_of_ok haccept]
      exact ⟨c', rfl, h'⟩

/-- The label at the end of a construct, which has to repeat the one at its
start. -/
theorem agrees_closingLabel (h : Tracks source c s) (name : Option Label) :
    Agrees source (closingLabel name c) (((), ·) <$> readClosing name s) := by
  rw [readClosing_eq, closingLabel]
  cases hs : s.accept .label with
  | none =>
      rw [bind_of_ok (accept_of_none h hs)]
      exact .ok h
  | some taken =>
      obtain ⟨c', haccept, h'⟩ := accept_of_some h hs
      rw [bind_of_ok haccept]
      by_cases hname : name.map (·.name) = some taken.1.value
      · simp only [hname, if_true]
        exact .ok h'
      · simp only [hname, if_false]
        exact .error

/-- A keyword and the number that may have to follow it. -/
theorem agrees_keyword (h : Tracks source c s) (t : Token) :
    Agrees source (keyword t c) (readKeyword t s) := by
  rw [readKeyword_eq, keyword]
  cases Keyword.ofWord? (trimEquals t.value) with
  | none => exact .error
  | some key =>
      by_cases hequals : t.value.toList.getLast? = some '='
      · dsimp only
        rw [if_pos hequals, if_pos hequals]
        cases hs : s.accept .number with
        | none =>
            have hvalue : Agrees source (settingValue c) (s.expect .hex) := by
              rw [settingValue, bind_of_ok (accept_of_none h hs)]
              exact agrees_expect h .hex
            exact hvalue.bind fun r c' _ h' => .ok h'
        | some taken =>
            have hvalue : Agrees source (settingValue c) (.ok taken) := by
              obtain ⟨c', haccept, h'⟩ := accept_of_some h hs
              rw [settingValue, bind_of_ok haccept]
              exact .ok h'
            exact hvalue.bind fun r c' _ h' => .ok h'
      · dsimp only
        rw [if_neg hequals, if_neg hequals]
        exact .ok h

/-! ## Loops -/

/-- A loop is one iteration and, if there is to be another, the loop again.
-/
theorem Loop.run_eq (l : Loop α) (a : α) :
    l.run a = l.iteration a >>= Iteration.elim l.run pure := by
  rw [Loop.run]
  refine bind_congr fun i => ?_
  cases i <;> rfl

/-- **A loop whose iterations take tokens comes to an end**, and agrees with
what its iterations agree with. -/
theorem agrees_loop {l : Loop α} (next : α → Stream → Except ParseError (Iteration α × Stream))
    (all : α → Stream → Except ParseError (α × Stream)) {n : Nat}
    (hall : ∀ a s, all a s = next a s >>= fun r => r.1.elim (all · r.2) fun a => .ok (a, r.2))
    (hnext : ∀ a c s, Tracks source c s → s.pending < n →
      Agrees source (l.iteration a c) (next a s))
    (hless : ∀ a s a' s', next a s = .ok (.again a', s') → s'.pending < s.pending)
    (h : Tracks source c s) (hs : s.pending < n) (a : α) : Agrees source (l.run a c) (all a s) := by
  induction hp : s.pending using Nat.strongRecOn generalizing s c a with
  | ind m ih =>
      subst hp
      rw [Loop.run_eq, hall]
      refine (hnext a c s h hs).bind fun r c' hr h' => ?_
      obtain ⟨result, s'⟩ := r
      cases result with
      | again a' =>
          have hlt := hless _ _ _ _ hr
          exact ih _ hlt h' (Nat.lt_trans hlt hs) a' rfl
      | done a' => exact .ok h'

/-- One more item for a loop that collects items, or none and its end. -/
def addTo (add : α → β → α) (a : α) (s : Stream) : Option (β × Stream) → Iteration α × Stream
  | some (b, s') => (.again (add a b), s')
  | none => (.done a, s)

/-- A loop that goes on has read an item. -/
theorem eq_of_map_addTo {add : α → β → α} {a a' : α} {s' : Stream}
    {y : Except ParseError (Option (β × Stream))}
    (h : addTo add a s <$> y = .ok (.again a', s')) : ∃ b, y = .ok (some (b, s')) := by
  cases y with
  | error e => cases h
  | ok found =>
      cases found with
      | none => cases h
      | some taken =>
          cases h
          exact ⟨taken.1, rfl⟩

/-- Reading item by item, until there is none. -/
def IsEach (one : Stream → Except ParseError (Option (β × Stream)))
    (each : Stream → Except ParseError (List β × Stream)) : Prop :=
  ∀ s, each s = one s >>= fun found =>
    found.elim (.ok ([], s)) fun r => (fun rest => (r.1 :: rest.1, rest.2)) <$> each r.2

/-- A loop that collects items agrees with reading them item by item. -/
theorem agrees_each {l : Loop α} {add : α → β → α}
    {one : Stream → Except ParseError (Option (β × Stream))}
    {each : Stream → Except ParseError (List β × Stream)} {n : Nat} (heach : IsEach one each)
    (hless : ∀ s b s', one s = .ok (some (b, s')) → s'.pending < s.pending)
    (hone : ∀ a c s, Tracks source c s → s.pending < n →
      Agrees source (l.iteration a c) (addTo add a s <$> one s))
    (h : Tracks source c s) (hs : s.pending < n) (a : α) :
    Agrees source (l.run a c) ((fun r => (r.1.foldl add a, r.2)) <$> each s) := by
  refine agrees_loop (fun a s => addTo add a s <$> one s)
    (fun a s => (fun r => (r.1.foldl add a, r.2)) <$> each s) ?_ hone ?_ h hs a
  · intro a s
    rw [heach, map_bind, bind_map_left]
    refine bind_congr fun found => ?_
    cases found with
    | none => rfl
    | some taken =>
        change _ <$> (_ <$> each taken.2) = _ <$> each taken.2
        cases each taken.2 <;> rfl
  · intro a s a' s' hnext
    obtain ⟨b, hb⟩ := eq_of_map_addTo hnext
    exact hless s b s' hb

/-! ## Parameters and strings -/

/-- One more argument, or the end of them. -/
theorem agrees_nextParam (h : Tracks source c s) (ps : List Param) :
    Agrees source (Loop.params.iteration ps c)
      (addTo (fun ps p => ps ++ [p]) ps s <$> readParam s) := by
  rw [readParam_eq, Loop.iteration, paramsIteration, bind_of_ok (x := current) rfl, h.current]
  cases hkind : s.current.kind with
  | number => exact .ok h.advance
  | hex => exact .ok h.advance
  | label => exact .ok h.advance
  | string =>
      rw [map_bind]
      exact (agrees_bytesOf h s.current).bind_map fun bytes c' _ h' => .ok h'.advance
  | reserved =>
      rw [map_bind]
      dsimp only
      rw [bind_of_ok (x := advance) rfl]
      exact (agrees_keyword h.advance s.current).bind fun r c' _ h' => .ok h'
  | comment | instr | leftParen | rightParen | whitespace | invalid | eof => exact .ok h

/-- Arguments are read item by item. -/
theorem isEach_readParams : IsEach readParam readParams := by
  intro s
  rw [readParams_eq]
  refine bind_congr fun found => ?_
  cases found with
  | none => rfl
  | some taken => exact (map_eq_pure_bind _ _).symm

theorem foldl_concat (l l' : List α) : l'.foldl (fun l a => l ++ [a]) l = l ++ l' := by
  induction l' generalizing l with
  | nil => simp
  | cons a l' ih => simp [ih]

/-- **The loop over arguments** agrees with reading them all. -/
theorem agrees_params (h : Tracks source c s) (ps : List Param) :
    Agrees source (Loop.params.run ps c) ((fun r => (ps ++ r.1, r.2)) <$> readParams s) := by
  have hloop := agrees_each isEach_readParams (fun _ _ _ => pending_of_readParam)
    (fun ps c s hc _ => agrees_nextParam hc ps) h
    (Nat.lt_succ_self _) ps
  simpa only [foldl_concat] using hloop

/-- One more string of a stream, with what has been read before. -/
def nextString (state : List UInt8 × Span) (s : Stream) :
    Except ParseError (Iteration (List UInt8 × Span) × Stream) :=
  match s.accept .string with
  | none => .ok (.done state, s)
  | some (t, s₁) => do
    let bytes ← StringLiteral.ofToken t
    return (.again (state.1 ++ bytes, state.2.through t.span), s₁)

/-- One more string, or the end of them. -/
theorem agrees_nextString (h : Tracks source c s) (state : List UInt8 × Span) :
    Agrees source (Loop.strings.iteration state c) (nextString state s) := by
  rw [nextString, Loop.iteration, stringsIteration]
  cases hs : s.accept .string with
  | none =>
      rw [bind_of_ok (accept_of_none h hs)]
      exact .ok h
  | some taken =>
      obtain ⟨c', haccept, h'⟩ := accept_of_some h hs
      rw [bind_of_ok haccept]
      exact (agrees_bytesOf h' taken.1).bind_map fun bytes c' _ h' => .ok h'

/-- Where the next string is read, its token is taken. -/
theorem accept_of_nextString {state state' : List UInt8 × Span} {s' : Stream}
    (h : nextString state s = .ok (.again state', s')) : ∃ t, s.accept .string = some (t, s') := by
  unfold nextString at h
  cases hs : s.accept .string with
  | none => simp [hs] at h
  | some taken =>
      rw [hs] at h
      obtain ⟨bytes, -, h⟩ := bind_eq_ok.1 h
      cases h
      exact ⟨taken.1, rfl⟩

/-- **The loop over strings** agrees with reading them all. It carries the
bytes and the place so far, which reading from the stream puts together on
the way back. -/
theorem agrees_stringsLoop (h : Tracks source c s) (state : List UInt8 × Span) :
    Agrees source (Loop.strings.run state c)
      ((fun r => ((state.1 ++ r.1.1, r.1.2), r.2)) <$> readStrings state.2 s) := by
  refine agrees_loop nextString
    (fun state s => (fun r => ((state.1 ++ r.1.1, r.1.2), r.2)) <$> readStrings state.2 s)
    ?_ (fun state c s hc _ => agrees_nextString hc state) ?_ h
    (Nat.lt_succ_self _) state
  · intro state s
    rw [readStrings_eq, nextString]
    cases hs : s.accept .string with
    | none =>
        change Except.ok ((state.1 ++ [], state.2), s) = .ok (state, s)
        rw [List.append_nil]
    | some taken =>
        dsimp only
        cases StringLiteral.ofToken taken.1 with
        | error e => rfl
        | ok bytes =>
            change _ <$> (readStrings _ taken.2 >>= _) = _ <$> readStrings _ taken.2
            cases readStrings (state.2.through taken.1.span) taken.2 with
            | error e => rfl
            | ok r =>
                change Except.ok ((state.1 ++ (bytes ++ r.1.1), r.1.2), r.2) = _
                rw [← List.append_assoc]
                rfl
  · intro state s state' s' hnext
    obtain ⟨t, ht⟩ := accept_of_nextString hnext
    exact Stream.pending_lt_of_accept (by decide) ht

/-- The data that strings side by side make up. -/
theorem agrees_strings (h : Tracks source c s) :
    Agrees source (Rule.strings.read c)
      ((fun r => (.data r.1.1 r.1.2, r.2)) <$> readStrings s.current.span s) := by
  have hloop := agrees_stringsLoop h ([], s.current.span)
  rw [Rule.read, bind_of_ok (x := current) rfl, h.current]
  rw [map_eq_pure_bind]
  exact hloop.bind_map fun r c' _ h' => .ok h'

end Agreement

end Descent

end WasmText
