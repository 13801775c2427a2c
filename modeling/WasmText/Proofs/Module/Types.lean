import WasmText.Module.Types
import Mathlib.Logic.Relation
import Mathlib.Data.List.Induction
import Mathlib.Data.List.Nodup
/-!
# The type table

The key of a signature tells it from every other, so looking for a key is
looking for a signature. Registering a signature leaves the entries there
are where they are: a table only grows at its end (`TypeTable.Grows`), and
an index found once is found again in every later table. What is
registered twice is listed once (`TypeTable.entries_intern`).
-/

namespace WasmText

namespace FuncType

/-! ## Keys -/

/-- The names of value types, with commas between them. -/
def spell : List ValType → List Char
  | [] => []
  | t :: ts => t.name.toList ++ ts.flatMap fun t => ',' :: t.name.toList

theorem toList_intercalate_name (ts : List ValType) :
    (",".intercalate (ts.map (·.name))).toList = spell ts := by
  cases ts with
  | nil => simp [spell]
  | cons t ts =>
      induction ts generalizing t with
      | nil => simp [spell]
      | cons u ts ih =>
          have := ih u
          simp only [List.map_cons] at this
          simp only [List.map_cons, String.intercalate_cons_cons, String.toList_append, this]
          simp [spell]

theorem toList_key (t : FuncType) : t.key.toList = spell t.params ++ '/' :: spell t.results := by
  simp only [key, String.toList_append, toList_intercalate_name]
  simp

/-- A name is told by its letters, whatever stands after it. -/
theorem name_append_inj {t u : ValType} {cs ds : List Char}
    (h : t.name.toList ++ cs = u.name.toList ++ ds) : t = u ∧ cs = ds := by
  cases t <;> cases u <;> simp_all [ValType.name]

/-- Names each after a comma are told from what follows them, as long as
that does not start with a comma. -/
theorem flatMap_comma_inj {ts us : List ValType} {cs ds : List Char}
    (h : (ts.flatMap fun t => ',' :: t.name.toList) ++ '/' :: cs =
      (us.flatMap fun t => ',' :: t.name.toList) ++ '/' :: ds) : ts = us ∧ cs = ds := by
  induction ts generalizing us with
  | nil =>
      cases us with
      | nil => simpa using h
      | cons u us => simp at h
  | cons t ts ih =>
      cases us with
      | nil => simp at h
      | cons u us =>
          simp only [List.flatMap_cons, List.cons_append, List.append_assoc, List.cons.injEq,
            true_and] at h
          obtain ⟨rfl, hrest⟩ := name_append_inj h
          obtain ⟨rfl, rfl⟩ := ih hrest
          exact ⟨rfl, rfl⟩

theorem spell_append_inj {ts us : List ValType} {cs ds : List Char}
    (h : spell ts ++ '/' :: cs = spell us ++ '/' :: ds) : ts = us ∧ cs = ds := by
  have hslash : ∀ (t : ValType) (cs ds : List Char), '/' :: cs ≠ t.name.toList ++ ds := by
    intro t cs ds
    cases t <;> simp [ValType.name]
  cases ts with
  | nil =>
      cases us with
      | nil => simpa [spell] using h
      | cons u us =>
          rw [spell, spell, List.nil_append, List.append_assoc] at h
          exact absurd h (hslash u _ _)
  | cons t ts =>
      cases us with
      | nil =>
          rw [spell, spell, List.nil_append, List.append_assoc] at h
          exact absurd h.symm (hslash t _ _)
      | cons u us =>
          rw [spell, spell, List.append_assoc, List.append_assoc] at h
          obtain ⟨rfl, hrest⟩ := name_append_inj h
          obtain ⟨rfl, rfl⟩ := flatMap_comma_inj hrest
          exact ⟨rfl, rfl⟩

/-- **A key tells its signature.** -/
theorem key_injective : Function.Injective key := by
  rintro ⟨ps, rs⟩ ⟨ps', rs'⟩ h
  have hlist := congrArg String.toList h
  rw [toList_key, toList_key] at hlist
  obtain ⟨rfl, hresults⟩ := spell_append_inj hlist
  have hend : spell rs ++ ['/'] = spell rs' ++ ['/'] := congrArg (· ++ ['/']) hresults
  obtain ⟨rfl, -⟩ := spell_append_inj hend
  rfl

/-- Whether a block can be written with the signature itself in place of
a type index. -/
def isShort (t : FuncType) : Bool := t.params.isEmpty && t.results.length ≤ 1

end FuncType

theorem eraseDups_concat (signatures : List FuncType) (s : FuncType) :
    (signatures ++ [s]).eraseDups =
      if s ∈ signatures then signatures.eraseDups else signatures.eraseDups ++ [s] := by
  rw [List.eraseDups_append]
  by_cases h : s ∈ signatures
  · simp [List.removeAll, h]
  · simp [List.removeAll, h, List.eraseDups_cons]

theorem nodup_append_singleton {signatures : List FuncType} {s : FuncType} :
    (signatures ++ [s]).Nodup ↔ signatures.Nodup ∧ s ∉ signatures := by
  rw [(List.perm_append_singleton s signatures).nodup_iff, List.nodup_cons, and_comm]

theorem nodup_eraseDups (signatures : List FuncType) : signatures.eraseDups.Nodup := by
  induction signatures using List.reverseRecOn with
  | nil => exact List.nodup_nil
  | append_singleton signatures s ih =>
      rw [eraseDups_concat]
      split
      · exact ih
      · next h => exact nodup_append_singleton.2 ⟨ih, fun hmem => h (List.mem_eraseDups.1 hmem)⟩

/-- What is found in a list is found there in a longer one. -/
theorem idxOf?_of_isPrefix {α : Type} [BEq α] {as bs : List α} {a : α} {i : Nat} (h : as <+: bs)
    (hi : as.idxOf? a = some i) : bs.idxOf? a = some i := by
  obtain ⟨more, rfl⟩ := h
  rw [List.idxOf?] at hi
  rw [List.idxOf?, List.findIdx?_append, hi]
  rfl

theorem Scope.lookup?_bind {κ : Type} [DecidableEq κ] (scope : Scope κ) (key key' : κ) (i : Nat) :
    (scope.bind key i).lookup? key' = if key = key' then some i else scope.lookup? key' := by
  rw [lookup?, bind, List.find?_cons]
  by_cases h : key = key'
  · simp [h]
  · simp [h, lookup?]

/-- A new binding is found after all others. -/
theorem Scope.lookup?_bindNew {κ : Type} [DecidableEq κ] (scope : Scope κ) (key key' : κ)
    (i : Nat) : (scope.bindNew key i).lookup? key' =
      (scope.lookup? key').or (if key = key' then some i else none) := by
  rw [bindNew]
  by_cases h : key = key'
  · subst h
    cases hfound : scope.lookup? key with
    | none => simp [lookup?_bind]
    | some j => simp [hfound]
  · rw [if_neg h, Option.or_none]
    split
    · rfl
    · rw [lookup?_bind, if_neg h]

namespace TypeTable

variable {table table' : TypeTable} {t : FuncType} {i : Nat}

/-! ## Registration -/

/-- **The map finds what a search finds**, the first entry with a key. -/
theorem lookup?_keysOf (types : List FuncType) (key : String) :
    (FuncType.keysOf types).lookup? key = types.findIdx? (·.key == key) := by
  induction types using List.reverseRecOn with
  | nil => rfl
  | append_singleton types t ih =>
      rw [FuncType.keysOf_concat, Scope.lookup?_bindNew, ih, List.findIdx?_append]
      by_cases h : t.key = key
      · simp [h]
      · simp [h]

theorem indexOfKey?_eq (table : TypeTable) (key : String) :
    table.indexOfKey? key = table.entries.findIdx? (·.key == key) := by
  rw [indexOfKey?, table.keys_eq, lookup?_keysOf]

theorem indexOfKey?_key (table : TypeTable) (t : FuncType) :
    table.indexOfKey? t.key = table.entries.idxOf? t := by
  rw [indexOfKey?_eq, List.idxOf?]
  congr 1
  funext u
  rw [Bool.eq_iff_iff, beq_iff_eq, beq_iff_eq, FuncType.key_injective.eq_iff]

/-- **Registering a signature** finds it, or puts it at the end. -/
theorem intern_cases (table : TypeTable) (t : FuncType) :
    (∃ i, table.entries.idxOf? t = some i ∧ table.intern t = (i, table)) ∨
      (t ∉ table.entries ∧ table.intern t = (table.count, ofEntries (table.entries ++ [t]))) := by
  have hkey := table.indexOfKey?_key t
  unfold intern
  split
  next i hfound => exact Or.inl ⟨i, hkey.symm.trans hfound, rfl⟩
  next hnone =>
    exact Or.inr ⟨List.idxOf?_eq_none_iff.1 (hkey.symm.trans hnone), Prod.ext rfl (ext rfl)⟩

/-- Tables that come from a table by registering signatures. -/
def Grows : TypeTable → TypeTable → Prop :=
  Relation.ReflTransGen fun table table' => ∃ t, table' = (table.intern t).2

theorem Grows.intern (table : TypeTable) (t : FuncType) : table.Grows (table.intern t).2 :=
  Relation.ReflTransGen.single ⟨t, rfl⟩

theorem prefix_intern (table : TypeTable) (t : FuncType) :
    table.entries <+: (table.intern t).2.entries := by
  obtain ⟨i, -, h⟩ | ⟨-, h⟩ := table.intern_cases t
  · simp [h]
  · simp [h]

/-- **A table only grows at its end.** -/
theorem Grows.isPrefix (h : table.Grows table') : table.entries <+: table'.entries := by
  induction h with
  | refl => exact List.prefix_refl _
  | @tail b c _ hstep ih =>
      obtain ⟨t, rfl⟩ := hstep
      exact ih.trans (b.prefix_intern t)

theorem lt_count_of_idxOf? (h : table.entries.idxOf? t = some i) : i < table.count :=
  (List.findIdx?_eq_some_iff_getElem.1 h).1

/-- The index that registering gives is where the signature is found. -/
theorem idxOf?_intern (table : TypeTable) (t : FuncType) :
    (table.intern t).2.entries.idxOf? t = some (table.intern t).1 := by
  obtain ⟨i, hi, h⟩ | ⟨hnew, h⟩ := table.intern_cases t
  · rw [h]
    exact hi
  · rw [h]
    simp only [entries_ofEntries, List.idxOf?, List.findIdx?_append]
    have hnone : table.entries.findIdx? (· == t) = none := List.idxOf?_eq_none_iff.2 hnew
    rw [hnone]
    simp [count]

/-- Registering signatures one after the other lists each of them once. -/
theorem entries_intern {signatures : List FuncType} (h : table.entries = signatures.eraseDups)
    (s : FuncType) : (table.intern s).2.entries = (signatures ++ [s]).eraseDups := by
  rw [eraseDups_concat]
  obtain ⟨i, hi, hintern⟩ | ⟨hnew, hintern⟩ := table.intern_cases s
  · have hmem : s ∈ signatures := by
      rw [← List.mem_eraseDups, ← h]
      by_contra hnone
      cases hi.symm.trans (List.idxOf?_eq_none_iff.2 hnone)
    rw [hintern, if_pos hmem]
    exact h
  · rw [h, List.mem_eraseDups] at hnew
    rw [hintern, if_neg hnew, ← h]
    rfl

end TypeTable

end WasmText
