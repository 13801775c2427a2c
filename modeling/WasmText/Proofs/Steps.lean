import WasmText.Instruction.Body
import Mathlib.Data.List.Forall2
/-!
# Steps that may fail

A computation in several steps succeeds when each step does, one on the
result of the other. Said once for errors alone and once for errors beside
a state, this takes any computation of the library apart. Going
through a list relates it, item by item, to the list of results, or
carries an invariant from step to step.
-/

namespace WasmText

variable {ε α β σ : Type}

/-! ## Errors -/

/-- Two steps succeed exactly if the first does and the second does on its
result. -/
theorem bind_eq_ok {x : Except ε α} {f : α → Except ε β} {b : β} :
    (x >>= f) = .ok b ↔ ∃ a, x = .ok a ∧ f a = .ok b := by
  cases x with
  | error e => simp [Bind.bind, Except.bind]
  | ok a => simp [Bind.bind, Except.bind]

theorem pure_eq_ok {a b : α} : (pure a : Except ε α) = .ok b ↔ a = b := by
  simp [pure, Except.pure]

theorem throw_ne_ok {e : ε} {a : α} : (throw e : Except ε α) ≠ .ok a := by
  simp [throw, throwThe, MonadExceptOf.throw]

/-- **Going through a list succeeds** exactly when each item does. -/
theorem mapM_eq_ok {f : α → Except ε β} {as : List α} {bs : List β} :
    as.mapM f = .ok bs ↔ List.Forall₂ (fun a b => f a = .ok b) as bs := by
  induction as generalizing bs with
  | nil => simp [pure, Except.pure, eq_comm]
  | cons a as ih =>
      simp only [List.mapM_cons, bind_eq_ok, pure_eq_ok, ih]
      constructor
      · rintro ⟨b, hb, bs', hbs, rfl⟩
        exact List.Forall₂.cons hb hbs
      · intro h
        cases h with
        | cons hb hbs => exact ⟨_, hb, _, hbs, rfl⟩

/-- Items that succeed each by itself succeed together. -/
theorem exists_mapM_eq_ok {f : α → Except ε β} {as : List α}
    (h : ∀ a ∈ as, ∃ b, f a = .ok b) : ∃ bs, as.mapM f = .ok bs := by
  induction as with
  | nil => exact ⟨[], rfl⟩
  | cons a as ih =>
      obtain ⟨⟨b, hb⟩, hrest⟩ := List.forall_mem_cons.1 h
      obtain ⟨bs, hbs⟩ := ih hrest
      exact ⟨b :: bs, mapM_eq_ok.2 (.cons hb (mapM_eq_ok.1 hbs))⟩

/-- What is related to a list item by item has its items from there. -/
theorem exists_of_mem_forall₂ {R : α → β → Prop} {as : List α} {bs : List β}
    (h : List.Forall₂ R as bs) {b : β} (hb : b ∈ bs) : ∃ a ∈ as, R a b := by
  induction h with
  | nil => cases hb
  | cons hab _ ih =>
      rcases List.mem_cons.1 hb with rfl | hmem
      · exact ⟨_, List.mem_cons_self, hab⟩
      · obtain ⟨a, ha, hr⟩ := ih hmem
        exact ⟨a, List.mem_cons_of_mem _ ha, hr⟩

/-- What is related item by item through a list between. -/
theorem forall₂_comp {γ : Type} {R : α → β → Prop} {S : β → γ → Prop} {as : List α}
    {bs : List β} {cs : List γ} (h : List.Forall₂ R as bs) (h' : List.Forall₂ S bs cs) :
    List.Forall₂ (fun a c => ∃ b, R a b ∧ S b c) as cs := by
  induction h generalizing cs with
  | nil =>
      cases h'
      exact .nil
  | cons hab _ ih =>
      cases h' with
      | cons hbc hrest => exact .cons ⟨_, hab, hbc⟩ (ih hrest)

/-- **Going through a list gives a result** exactly when each item does. -/
theorem mapM_eq_some {f : α → Option β} {as : List α} {bs : List β} :
    as.mapM f = some bs ↔ List.Forall₂ (fun a b => f a = some b) as bs := by
  induction as generalizing bs with
  | nil => simp [eq_comm]
  | cons a as ih =>
      simp only [List.mapM_cons, Option.bind_eq_bind, Option.bind_eq_some_iff, Option.pure_def,
        Option.some.injEq, ih]
      constructor
      · rintro ⟨b, hb, bs', hbs, rfl⟩
        exact List.Forall₂.cons hb hbs
      · intro h
        cases h with
        | cons hb hbs => exact ⟨_, hb, _, hbs, rfl⟩

/-- The same with the first item apart. -/
theorem mapM_cons_eq_some {f : α → Option β} {a : α} {as : List α} {bs : List β} :
    (a :: as).mapM f = some bs ↔
      ∃ b rest, f a = some b ∧ as.mapM f = some rest ∧ bs = b :: rest := by
  simp only [List.mapM_cons, Option.bind_eq_bind, Option.bind_eq_some_iff, Option.pure_def,
    Option.some.injEq]
  constructor
  · rintro ⟨b, hb, rest, hrest, rfl⟩
    exact ⟨b, rest, hb, hrest, rfl⟩
  · rintro ⟨b, rest, hb, hrest, rfl⟩
    exact ⟨b, hb, rest, hrest, rfl⟩

/-- The same for two lists, one after the other. -/
theorem mapM_append_eq_some {f : α → Option β} {as as' : List α} {bs : List β} :
    (as ++ as').mapM f = some bs ↔
      ∃ first second, as.mapM f = some first ∧ as'.mapM f = some second ∧ bs = first ++ second := by
  simp only [List.mapM_append, Option.bind_eq_bind, Option.bind_eq_some_iff, Option.pure_def,
    Option.some.injEq]
  constructor
  · rintro ⟨first, hfirst, second, hsecond, rfl⟩
    exact ⟨first, second, hfirst, hsecond, rfl⟩
  · rintro ⟨first, second, hfirst, hsecond, rfl⟩
    exact ⟨first, hfirst, second, hsecond, rfl⟩

/-- Going through a list keeps every item at its place. -/
theorem getElem?_of_mapM {f : α → Option β} {as : List α} {bs : List β} (h : as.mapM f = some bs)
    (k : Nat) : bs[k]? = as[k]?.bind f := by
  induction as generalizing bs k with
  | nil =>
      obtain rfl : [] = bs := by simpa using h
      simp
  | cons a as ih =>
      obtain ⟨b, rest, hb, hrest, rfl⟩ := mapM_cons_eq_some.1 h
      cases k with
      | zero => simp [hb]
      | succ k => simpa using ih hrest k

/-- There are as many results as items. -/
theorem length_of_mapM {f : α → Option β} {as : List α} {bs : List β} (h : as.mapM f = some bs) :
    bs.length = as.length :=
  (mapM_eq_some.1 h).length_eq.symm

/-- The item at a place gives the result at that place. -/
theorem exists_of_getElem?_mapM {f : α → Option β} {as : List α} {bs : List β}
    (h : as.mapM f = some bs) {k : Nat} {a : α} (ha : as[k]? = some a) :
    ∃ b, f a = some b ∧ bs[k]? = some b := by
  have hlt : k < bs.length := by
    rw [length_of_mapM h]
    exact (List.getElem?_eq_some_iff.1 ha).1
  have hb := getElem?_of_mapM h k
  rw [ha, Option.bind_some, List.getElem?_eq_getElem hlt] at hb
  exact ⟨bs[k], hb.symm, List.getElem?_eq_getElem hlt⟩

/-- A result comes from one of the items. -/
theorem exists_of_mem_mapM {f : α → Option β} {as : List α} {bs : List β}
    (h : as.mapM f = some bs) {b : β} (hb : b ∈ bs) : ∃ a ∈ as, f a = some b := by
  obtain ⟨k, hk⟩ := List.getElem?_of_mem hb
  rw [getElem?_of_mapM h k] at hk
  obtain ⟨a, ha, hab⟩ := Option.bind_eq_some_iff.1 hk
  exact ⟨a, List.mem_of_getElem? ha, hab⟩

theorem mapM_toOption {f : α → Except ε β} {as : List α} {bs : List β} (h : as.mapM f = .ok bs) :
    as.mapM (fun a => (f a).toOption) = some bs :=
  mapM_eq_some.2 ((mapM_eq_ok.1 h).imp fun _ _ hab => by rw [hab]; rfl)

/-- **What every step keeps, all steps keep.** -/
theorem foldlM_induction {P : σ → Prop} {f : σ → α → Except ε σ} {as : List α} {s s' : σ}
    (hstep : ∀ s s' a, a ∈ as → P s → f s a = .ok s' → P s') (hs : P s)
    (h : as.foldlM f s = .ok s') : P s' := by
  induction as generalizing s with
  | nil =>
      obtain rfl : s = s' := pure_eq_ok.1 h
      exact hs
  | cons a as ih =>
      rw [List.foldlM_cons, bind_eq_ok] at h
      obtain ⟨s₁, h₁, hrest⟩ := h
      exact ih (fun s s' b hb => hstep s s' b (List.mem_cons_of_mem a hb))
        (hstep s s₁ a List.mem_cons_self hs h₁) hrest

/-- What every step carries on from the items before it to one more, all
steps carry on to the whole list. -/
theorem foldlM_prefix_induction {P : List α → σ → Prop} {f : σ → α → Except ε σ} {as : List α}
    {s s' : σ}
    (hstep : ∀ before a after s s', as = before ++ a :: after → P before s → f s a = .ok s' →
      P (before ++ [a]) s')
    (hs : P [] s) (h : as.foldlM f s = .ok s') : P as s' := by
  suffices hrest : ∀ before rest s, as = before ++ rest → P before s →
      rest.foldlM f s = .ok s' → P as s' from hrest [] as s rfl hs h
  intro before rest
  induction rest generalizing before with
  | nil =>
      intro s has hs h
      obtain rfl : s = s' := pure_eq_ok.1 h
      rw [has, List.append_nil]
      exact hs
  | cons a rest ih =>
      intro s has hs h
      rw [List.foldlM_cons, bind_eq_ok] at h
      obtain ⟨s₁, h₁, hrest⟩ := h
      exact ih (before ++ [a]) s₁ (by rw [has, List.append_assoc]; rfl)
        (hstep before a rest s s₁ has hs h₁) hrest

/-- Where all steps succeed, each of them has. -/
theorem exists_of_mem_foldlM {f : σ → α → Except ε σ} {as : List α} {s s' : σ}
    (h : as.foldlM f s = .ok s') {a : α} (ha : a ∈ as) : ∃ s₁ s₂, f s₁ a = .ok s₂ := by
  induction as generalizing s with
  | nil => cases ha
  | cons b as ih =>
      rw [List.foldlM_cons, bind_eq_ok] at h
      obtain ⟨s₁, h₁, hrest⟩ := h
      rcases List.mem_cons.1 ha with rfl | ha
      · exact ⟨s, s₁, h₁⟩
      · exact ih hrest ha

/-! ## Errors beside a state -/

section State

variable {x : EStateM ε σ α} {f : α → EStateM ε σ β} {s s' : σ}

/-- After a step that succeeds the next one goes on with its state. -/
theorem bind_of_state_ok {a : α} (h : x s = .ok a s') : (x >>= f) s = f a s' := by
  change EStateM.bind x f s = _
  rw [EStateM.bind, h]

/-- After a step that fails there is no next one. -/
theorem bind_of_state_error {e : ε} (h : x s = .error e s') : (x >>= f) s = .error e s' := by
  change EStateM.bind x f s = _
  rw [EStateM.bind, h]

/-- Two steps succeed exactly if the first does and the second does from
the state that it leaves. -/
theorem bind_eq_state_ok {b : β} :
    (x >>= f) s = .ok b s' ↔ ∃ a s₁, x s = .ok a s₁ ∧ f a s₁ = .ok b s' := by
  cases h : x s with
  | ok a s₁ => simp [bind_of_state_ok h]
  | error e s₁ => simp [bind_of_state_error h]

end State

/-! ## Errors beside a type table -/

namespace Typing

variable {t t' : TypeTable}

/-- Two steps succeed exactly if the first does and the second does with
the types that it leaves. -/
theorem bind_eq_ok {x : Typing α} {f : α → Typing β} {b : β} :
    (x >>= f) t = .ok b t' ↔ ∃ a t₁, x t = .ok a t₁ ∧ f a t₁ = .ok b t' :=
  bind_eq_state_ok

theorem bind_of_ok {x : Typing α} {f : α → Typing β} {a : α} (h : x t = .ok a t') :
    (x >>= f) t = f a t' :=
  bind_of_state_ok h

theorem bind_of_error {x : Typing α} {f : α → Typing β} {e : CompileError}
    (h : x t = .error e t') : (x >>= f) t = .error e t' :=
  bind_of_state_error h

theorem pure_eq_ok {a b : α} : (pure a : Typing α) t = .ok b t' ↔ a = b ∧ t = t' := by
  change EStateM.Result.ok a t = .ok b t' ↔ _
  simp

theorem throw_ne_ok {e : CompileError} {a : α} : (throw e : Typing α) t ≠ .ok a t' := by
  change EStateM.Result.error e t ≠ _
  simp

/-- A check leaves the types as they are. -/
theorem check_eq_ok {x : Except CompileError α} {a : α} :
    check x t = .ok a t' ↔ x = .ok a ∧ t = t' := by
  cases x with
  | ok b => simp [check]
  | error e => simp [check]

/-- So does a look at them. -/
theorem read_eq_ok {f : TypeTable → Except CompileError α} {a : α} :
    Typing.read f t = .ok a t' ↔ f t = .ok a ∧ t = t' :=
  check_eq_ok

end Typing

end WasmText
