import WasmText.Instruction.Basic
import WasmText.Proofs.Module.Registration
/-!
# Types in the order of their registration

Whatever is done to a draft registers one signature in its type table or
leaves the table alone (`types_act`, `types_act_of_none`). So after any
sequence of actions the table lists the signatures that were registered,
each once and in the order in which they came first, and an index that was
answered is good from then on (`types_in_first_order`). Signatures are
looked for in the map of the table alone, which holds the key of every
entry and no other (`lookup?_keys_eq_some`).
-/

namespace WasmText

/-! ## Looking for keys -/

namespace TypeTable

variable {table : TypeTable} {t : FuncType} {key : String} {i : Nat}

theorem at?_of_idxOf? (h : table.entries.idxOf? t = some i) : table.at? i = some t := by
  obtain ⟨hlt, hat, -⟩ := List.idxOf?_eq_some_iff.1 h
  rw [at?, List.getElem?_eq_getElem hlt, hat]

/-- **A key is bound to where its signature stands**, if no signature
stands twice. -/
theorem lookup?_keys_eq_some (hnodup : table.entries.Nodup) :
    table.keys.lookup? key = some i ↔ ∃ t, table.at? i = some t ∧ t.key = key := by
  rw [← indexOfKey?]
  constructor
  · intro h
    rw [indexOfKey?_eq] at h
    obtain ⟨hlt, hkey, -⟩ := List.findIdx?_eq_some_iff_getElem.1 h
    exact ⟨table.entries[i], List.getElem?_eq_getElem hlt, beq_iff_eq.1 hkey⟩
  · rintro ⟨t, hat, rfl⟩
    obtain ⟨hlt, hget⟩ := List.getElem?_eq_some_iff.1 hat
    rw [indexOfKey?_key, List.idxOf?_eq_some_iff]
    refine ⟨hlt, hget, fun j hj hsame => ?_⟩
    have := (hnodup.getElem_inj_iff).1 (hsame.trans hget.symm)
    omega

/-- What is registered gets the index that the map has for its key, or the
next one. -/
theorem intern_fst (table : TypeTable) (t : FuncType) :
    (table.intern t).1 = (table.keys.lookup? t.key).getD table.count := by
  rw [← indexOfKey?, indexOfKey?_key]
  obtain ⟨i, hi, hintern⟩ | ⟨hnew, hintern⟩ := table.intern_cases t
  · rw [hintern, hi, Option.getD_some]
  · rw [hintern, List.idxOf?_eq_none_iff.2 hnew, Option.getD_none]

/-! ## Block types -/

/-- A short signature is written out. -/
theorem blockType_of_isShort (h : t.isShort = true) : (table.blockType t none).2 = table := by
  obtain ⟨_ | ⟨param, params⟩, _ | ⟨result, _ | ⟨result', results⟩⟩⟩ := t
  · rfl
  · rfl
  all_goals simp [FuncType.isShort] at h

/-- Any other signature is registered. -/
theorem blockType_of_not_isShort (h : t.isShort = false) :
    table.blockType t none = (.index (table.intern t).1, (table.intern t).2) := by
  obtain ⟨_ | ⟨param, params⟩, _ | ⟨result, _ | ⟨result', results⟩⟩⟩ := t
  · cases h
  · cases h
  all_goals rfl

end TypeTable

namespace Draft

/-! ## Actions -/

/-- What can be done to a draft, writing the type of a block included. -/
inductive Action where
  | operation (op : Operation)
  | blockType (type : FuncType) (use : Option Nat)

/-- The signature that an action registers, or finds again. -/
def Action.signature? : Action → Option FuncType
  | operation (.internType type) => some type
  | operation (.addType _ type) => some type
  | operation _ => none
  | blockType type none => if type.isShort then none else some type
  | blockType _ (some _) => none

/-- The index that an action answers or writes, if there is one, and the
draft after it. A refused action changes nothing. -/
def act (d : Draft) : Action → Option Nat × Draft
  | .operation op =>
    match d.perform op with
    | .ok (registered, d) => (registered.map (·.index), d)
    | .error _ => (none, d)
  | .blockType type use =>
    match d.types.blockType type use with
    | (.index index, types) => (some index, { d with types })
    | (_, types) => (none, { d with types })

/-- A sequence of actions, from the empty draft on. -/
def after (actions : List Action) : Draft := actions.foldl (fun d a => (d.act a).2) empty

variable {d d' : Draft} {a : Action} {t : FuncType}

theorem types_bind (d : Draft) (s : Space) (name : Option String) (index : Nat) :
    (d.bind s name index).types = d.types := by
  cases name <;> rfl

theorem types_of_allowed {refused : Prop} [Decidable refused] {e : CompileError}
    {result : Nat × Draft} {index : Nat}
    (h : (if refused then .error e else .ok result) = Except.ok (index, d'))
    (hkept : result.2.types = d.types) : d'.types = d.types := by
  split at h
  · cases h
  · cases h
    exact hkept

/-- An operation that registers no signature leaves the type table
alone. -/
theorem types_perform {op : Operation} {registered : Option Registration}
    (hsig : (Action.operation op).signature? = none)
    (hrun : d.perform op = .ok (registered, d')) : d'.types = d.types := by
  cases op with
  | internType | addType => cases hsig
  | importFunction | importMemory | importGlobal | addMemory =>
      obtain ⟨⟨index, d₁⟩, hallowed, hrun⟩ := bind_eq_ok.1 hrun
      cases pure_eq_ok.1 hrun
      exact types_of_allowed hallowed (types_bind _ _ _ _)
  | addFunction | addTable | addGlobal =>
      cases hrun
      exact types_bind _ _ _ _
  | setCode | addExport | setStart | addElement | addData =>
      cases hrun
      rfl

/-- **An action that registers a signature** answers with its index. -/
theorem types_act (h : a.signature? = some t) :
    (d.act a).1 = some (d.types.intern t).1 ∧ (d.act a).2.types = (d.types.intern t).2 := by
  cases a with
  | operation op =>
      cases op with
      | internType type =>
          cases h
          exact ⟨rfl, rfl⟩
      | addType name type =>
          cases h
          exact ⟨rfl, types_bind _ _ _ _⟩
      | _ => cases h
  | blockType type use =>
      cases use with
      | some index => cases h
      | none =>
          rw [Action.signature?, Option.ite_none_left_eq_some] at h
          obtain ⟨hshort, hsome⟩ := h
          cases hsome
          rw [act, TypeTable.blockType_of_not_isShort (Bool.not_eq_true _ ▸ hshort)]
          exact ⟨rfl, rfl⟩

/-- **Any other action** leaves the type table alone. -/
theorem types_act_of_none (h : a.signature? = none) : (d.act a).2.types = d.types := by
  cases a with
  | operation op =>
      rw [act]
      cases hrun : d.perform op with
      | error e => rfl
      | ok result => exact types_perform h hrun
  | blockType type use =>
      have hkept : (d.types.blockType type use).2 = d.types := by
        cases use with
        | some index => rfl
        | none => exact TypeTable.blockType_of_isShort (by simpa [Action.signature?] using h)
      rw [act]
      split
      · next hblock => rwa [hblock] at hkept
      · next hblock => rwa [hblock] at hkept

/-! ## Runs -/

/-- The type table lists what was registered, each signature once. -/
theorem entries_after (actions : List Action) :
    (after actions).types.entries = (actions.filterMap Action.signature?).eraseDups := by
  induction actions using List.reverseRecOn with
  | nil => rfl
  | append_singleton actions a ih =>
      have hlast : after (actions ++ [a]) = ((after actions).act a).2 := by
        rw [after, List.foldl_append]
        rfl
      rw [hlast, List.filterMap_append]
      cases h : a.signature? with
      | none =>
          rw [types_act_of_none h, ih]
          simp [h]
      | some t =>
          rw [(types_act h).2, TypeTable.entries_intern ih]
          simp [h]

/-- Entries stay where they are. -/
theorem prefix_after (actions more : List Action) :
    (after actions).types.entries <+: (after (actions ++ more)).types.entries := by
  rw [entries_after, entries_after, List.filterMap_append, List.eraseDups_append]
  exact List.prefix_append _ _

theorem nodup_after (actions : List Action) : (after actions).types.entries.Nodup := by
  rw [entries_after]
  exact nodup_eraseDups _

/-- An index that was answered holds the signature, whatever is done
later. -/
theorem at?_after (actions : List Action) (h : a.signature? = some t) (more : List Action) :
    (after (actions ++ a :: more)).types.at? ((after actions).types.intern t).1 = some t := by
  apply TypeTable.at?_of_idxOf?
  refine idxOf?_of_isPrefix ?_ (TypeTable.idxOf?_intern _ t)
  rw [← (types_act h).2, List.append_cons]
  have hprefix := prefix_after (actions ++ [a]) more
  rwa [after, List.foldl_append] at hprefix

/-- **The type table lists the different signatures in the order in which
they were first registered.** After any sequence of actions no entry
stands twice, and the map of the table binds the key of each entry to its
index and no other key. Later actions leave the entries where they are. An
action that registers a signature answers with an index that holds exactly
this signature from then on, the one that the map has for its key or else
the next one. Two signatures have one key only if their parameters and
their results are the same. -/
theorem types_in_first_order (actions : List Action) (table : TypeTable)
    (htable : (after actions).types = table) :
    table.entries = (actions.filterMap Action.signature?).eraseDups ∧
      table.entries.Nodup ∧
      (∀ key i, table.keys.lookup? key = some i ↔ ∃ t, table.at? i = some t ∧ t.key = key) ∧
      (∀ more, table.entries <+: (after (actions ++ more)).types.entries) ∧
      (∀ a t more, a.signature? = some t →
        ∃ i, ((after actions).act a).1 = some i ∧
          (after (actions ++ a :: more)).types.at? i = some t ∧
          i = (table.keys.lookup? t.key).getD table.entries.length) ∧
      ∀ t u : FuncType, t.key = u.key ↔ t.params = u.params ∧ t.results = u.results := by
  subst htable
  refine ⟨entries_after actions, nodup_after actions,
    fun key i => TypeTable.lookup?_keys_eq_some (nodup_after actions), prefix_after actions,
    fun a t more h => ?_, fun t u => ?_⟩
  · exact ⟨_, (types_act h).1, at?_after actions h more, TypeTable.intern_fst _ t⟩
  · rw [FuncType.key_injective.eq_iff, FuncType.mk.injEq]

/-- A signature that is registered twice, a block type that is written out,
a function, and a block type that is registered. -/
def sharingActions : List Action :=
  [.operation (.internType ⟨[.i32], [.i32]⟩), .operation (.addType (some "t") ⟨[.i32], [.i32]⟩),
    .blockType ⟨[], [.i64]⟩ none, .operation (.addFunction none 0), .blockType ⟨[.i64], []⟩ none]

theorem types_in_first_order_sharing :
    (after sharingActions).types.entries = [⟨[.i32], [.i32]⟩, ⟨[.i64], []⟩] ∧
      (after sharingActions).types.keys.lookup? "i64/" = some 1 ∧
      ∃ i, ((after sharingActions).act (.blockType ⟨[.i32], [.i32]⟩ none)).1 = some i ∧
        (after (sharingActions ++ [.blockType ⟨[.i32], [.i32]⟩ none])).types.at? i =
          some ⟨[.i32], [.i32]⟩ := by
  obtain ⟨hentries, -, hkeys, -, hanswers, -⟩ := types_in_first_order sharingActions _ rfl
  have hlisted : (after sharingActions).types.entries = [⟨[.i32], [.i32]⟩, ⟨[.i64], []⟩] :=
    hentries.trans (by decide)
  obtain ⟨i, hi, hat, -⟩ := hanswers (.blockType ⟨[.i32], [.i32]⟩ none) _ [] rfl
  refine ⟨hlisted, (hkeys "i64/" 1).2 ⟨⟨[.i64], []⟩, ?_, by decide +kernel⟩, i, hi, hat⟩
  rw [TypeTable.at?, hlisted]
  rfl

end Draft

end WasmText
