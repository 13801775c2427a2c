import WasmText.Proofs.Module.Reader
/-!
# Runs of locals

Neighbouring locals of one type are written as one run. Many lists of runs
stand for the same locals, but only one of them has no empty run and no
neighbours of one type, and that is the one written. So the runs tell the
locals apart, and there are never more of them than needed
(`localRuns_unique`).
-/

namespace WasmText

/-- The locals that runs stand for. -/
def spellOut (runs : List (Nat × ValType)) : List ValType :=
  runs.flatMap fun run => List.replicate run.1 run.2

/-- Runs of which none is empty and none could be joined with the next. -/
structure Joined (runs : List (Nat × ValType)) : Prop where
  positive : ∀ run ∈ runs, 0 < run.1
  changing : runs.IsChain fun run next => run.2 ≠ next.2

theorem spellOut_cons (run : Nat × ValType) (runs : List (Nat × ValType)) :
    spellOut (run :: runs) = List.replicate run.1 run.2 ++ spellOut runs :=
  List.flatMap_cons

theorem spellOut_localRuns (types : List ValType) : spellOut (localRuns types) = types :=
  flatMap_localRuns types

/-! ## One more local -/

/-- The first run has the type of the first local. -/
theorem head?_localRuns (types : List ValType) :
    (localRuns types).head?.map (·.2) = types.head? := by
  cases types with
  | nil => rfl
  | cons t ts =>
      rw [localRuns]
      split
      next n u runs hruns =>
        split
        next heq => simp [heq]
        next => rfl
      next => rfl

/-- A local of another type than the next begins a run. -/
theorem localRuns_cons_of_ne {t : ValType} {ts : List ValType} (h : ts.head? ≠ some t) :
    localRuns (t :: ts) = (1, t) :: localRuns ts := by
  rw [← head?_localRuns] at h
  rw [localRuns]
  cases hruns : localRuns ts with
  | nil => rfl
  | cons run runs =>
      have hne : t ≠ run.2 := by
        rintro rfl
        simp [hruns] at h
      exact if_neg hne

/-- A local of the type of the next lengthens its run. -/
theorem localRuns_cons_of_eq {t : ValType} {ts : List ValType} (h : ts.head? = some t) :
    ∃ n runs, localRuns ts = (n, t) :: runs ∧ localRuns (t :: ts) = (n + 1, t) :: runs := by
  rw [← head?_localRuns] at h
  rw [localRuns]
  cases hruns : localRuns ts with
  | nil => simp [hruns] at h
  | cons run runs =>
      obtain ⟨n, u⟩ := run
      obtain rfl : u = t := by simpa [hruns] using h
      exact ⟨n, runs, rfl, if_pos rfl⟩

/-- **The runs of locals are joined.** -/
theorem joined_localRuns (types : List ValType) : Joined (localRuns types) := by
  induction types with
  | nil => exact ⟨List.forall_mem_nil _, .nil⟩
  | cons t ts ih =>
      by_cases h : ts.head? = some t
      · -- only the count of the first run is another one
        obtain ⟨n, runs, hruns, hcons⟩ := localRuns_cons_of_eq h
        rw [hruns] at ih
        obtain ⟨-, hpositive⟩ := List.forall_mem_cons.1 ih.positive
        rw [hcons]
        refine ⟨List.forall_mem_cons.2 ⟨n.succ_pos, hpositive⟩, ?_⟩
        exact List.isChain_cons.2 (List.isChain_cons.1 ih.changing)
      · rw [localRuns_cons_of_ne h]
        refine ⟨List.forall_mem_cons.2 ⟨Nat.one_pos, ih.positive⟩, ?_⟩
        refine List.isChain_cons.2 ⟨fun run hrun heq => h ?_, ih.changing⟩
        rw [← head?_localRuns, Option.mem_def.1 hrun]
        exact congrArg some heq.symm

/-! ## One more run -/

/-- Locals of one type before one of another are one run. -/
theorem localRuns_replicate_append {t : ValType} {ts : List ValType} (h : ts.head? ≠ some t)
    (n : Nat) : localRuns (List.replicate (n + 1) t ++ ts) = (n + 1, t) :: localRuns ts := by
  induction n with
  | zero => exact localRuns_cons_of_ne h
  | succ n ih =>
      have hhead : (List.replicate (n + 1) t ++ ts).head? = some t := rfl
      obtain ⟨m, runs, hruns, hcons⟩ := localRuns_cons_of_eq hhead
      obtain ⟨hrun, rfl⟩ := List.cons.inj (hruns.symm.trans ih)
      obtain ⟨rfl, -⟩ := Prod.mk.inj hrun
      exact hcons

/-- **Joined runs are the runs of what they spell out.** -/
theorem localRuns_spellOut {runs : List (Nat × ValType)} (h : Joined runs) :
    localRuns (spellOut runs) = runs := by
  induction runs with
  | nil => rfl
  | cons run runs ih =>
      obtain ⟨hrun, hpositive⟩ := List.forall_mem_cons.1 h.positive
      obtain ⟨hnext, hchanging⟩ := List.isChain_cons.1 h.changing
      have hrest := ih ⟨hpositive, hchanging⟩
      have hhead : (spellOut runs).head? ≠ some run.2 := by
        rw [← head?_localRuns, hrest]
        intro heq
        obtain ⟨next, hmem, hsame⟩ := Option.map_eq_some_iff.1 heq
        exact hnext next hmem hsame.symm
      obtain ⟨n, hn⟩ := Nat.exists_eq_add_one.2 hrun
      rw [spellOut_cons, hn, localRuns_replicate_append hhead, hrest, ← hn]

theorem length_localRuns_cons_le (t : ValType) (ts : List ValType) :
    (localRuns (t :: ts)).length ≤ (localRuns ts).length + 1 := by
  by_cases h : ts.head? = some t
  · obtain ⟨n, runs, hruns, hcons⟩ := localRuns_cons_of_eq h
    simp [hruns, hcons]
  · simp [localRuns_cons_of_ne h]

/-- Any number of locals of one type bring at most one more run. -/
theorem length_localRuns_append_le (n : Nat) (t : ValType) (ts : List ValType) :
    (localRuns (List.replicate n t ++ ts)).length ≤ (localRuns ts).length + 1 := by
  induction n with
  | zero => exact Nat.le_succ _
  | succ n ih =>
      cases n with
      | zero => exact length_localRuns_cons_le t ts
      | succ n =>
          have hhead : (List.replicate (n + 1) t ++ ts).head? = some t := rfl
          obtain ⟨m, runs, hruns, hcons⟩ := localRuns_cons_of_eq hhead
          rw [hruns] at ih
          rwa [List.replicate_succ, List.cons_append, hcons]

/-- Any runs that spell the locals out are at least as many. -/
theorem length_localRuns_spellOut_le (runs : List (Nat × ValType)) :
    (localRuns (spellOut runs)).length ≤ runs.length := by
  induction runs with
  | nil => exact Nat.le_refl _
  | cons run runs ih =>
      rw [spellOut_cons]
      calc (localRuns (List.replicate run.1 run.2 ++ spellOut runs)).length
          ≤ (localRuns (spellOut runs)).length + 1 := length_localRuns_append_le _ _ _
        _ ≤ runs.length + 1 := Nat.succ_le_succ ih

/-- **The runs of locals are unique.** For locals fewer than a word can
count, every run has a count that is positive and fits a word, the runs
spell out the locals, and neighbouring runs differ in type. No other list
of runs does all that. So no other locals have these runs, and no list of
runs that spells out the locals is shorter. -/
theorem localRuns_unique (types : List ValType) (h : types.length < 2 ^ 32) :
    (∀ run ∈ localRuns types, 0 < run.1 ∧ run.1 < 2 ^ 32) ∧
      spellOut (localRuns types) = types ∧
      (localRuns types).IsChain (fun run next => run.2 ≠ next.2) ∧
      (∀ runs, Joined runs → spellOut runs = types → runs = localRuns types) ∧
      (∀ others, localRuns others = localRuns types → others = types) ∧
      ∀ runs, spellOut runs = types → (localRuns types).length ≤ runs.length := by
  have hjoined := joined_localRuns types
  refine ⟨fun run hrun => ⟨hjoined.positive run hrun, ?_⟩, spellOut_localRuns types,
    hjoined.changing, ?_, ?_, ?_⟩
  · exact (le_length_of_mem_localRuns hrun).trans_lt h
  · rintro runs hruns rfl
    exact (localRuns_spellOut hruns).symm
  · intro others heq
    rw [← spellOut_localRuns others, heq, spellOut_localRuns]
  · rintro runs rfl
    exact length_localRuns_spellOut_le runs

/-- A type that comes again after another begins a run of its own. -/
theorem localRuns_unique_returning :
    localRuns [.i32, .i32, .f64, .i32] = [(2, .i32), (1, .f64), (1, .i32)] ∧
      ∀ runs, Joined runs → spellOut runs = [.i32, .i32, .f64, .i32] →
        runs = localRuns [.i32, .i32, .f64, .i32] :=
  ⟨by decide, (localRuns_unique [.i32, .i32, .f64, .i32] (by decide)).2.2.2.1⟩

end WasmText
