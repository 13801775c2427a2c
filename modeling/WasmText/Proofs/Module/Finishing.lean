import WasmText.Proofs.Compile
/-!
# When a draft can be finished

Targets are looked up only when a draft is finished. Finishing succeeds
exactly when everything referred to is there, and else fails at the first
thing that is not, in the order exports, start function, element segments,
table (`build_outcome`). What is written then refers to nothing that is
not written (`BinaryModule.Linked`).
-/

namespace WasmText

namespace BinaryModule

variable {m : BinaryModule}

/-- A module in which every reference leads to an entry, and which has
tables to export and to fill. -/
structure Linked (m : BinaryModule) : Prop where
  exports : ∀ e ∈ m.exports, e.2.2 < m.count e.2.1.space
  start : ∀ index ∈ m.start, index < m.count .function
  elements : ∀ s ∈ m.elements, ∀ index ∈ s.contents, index < m.count .function
  tables : (m.elements ≠ [] ∨ ∃ e ∈ m.exports, e.2.1 = .table) → 4 ∈ m.sections.map (·.1)

/-- Tables have a section as soon as there are any. -/
theorem table_mem_sections (h : m.tables ≠ []) : 4 ∈ m.sections.map (·.1) := by
  obtain hsome | ⟨hnil, -⟩ :=
    optionalContents_cases (fun l : Limits => 0x70 :: l.encode) m.tables
  · have hfound : m.sections.lookup 4 = _ := lookup_sections (congrArg some hsome)
    exact List.mem_map.2 ⟨_, mem_of_lookup hfound, rfl⟩
  · exact absurd hnil h

/-- **References read back.** The sections of a linked module say what it
exports, where it starts and, where offsets are expressions, how tables
are filled. -/
theorem Linked.reads_back (h : m.Linked) (hsize : m.encode.length < 2 ^ 32) :
    readItems m.sections 7 Reader.exportItem = some m.exports ∧
      readStart m.sections = some m.start ∧
      ((∀ s ∈ m.elements, IsExpression s.offset) →
        readItems m.sections 9 (.segment (.vector .u32 .u32)) = some m.elements) := by
  have hlt : ∀ {s : Space} {index : Nat}, index < m.count s → index < 2 ^ 32 := fun hindex =>
    lt_of_lt_of_le hindex ((m.count_le _).trans hsize.le)
  refine ⟨readItems_exports hsize fun e he => hlt (h.exports e he),
    readStart_sections fun index hindex => hlt (h.start index hindex), fun hoffsets => ?_⟩
  exact readItems_elements hsize fun s hs =>
    ⟨hoffsets s hs, fun index hindex => hlt (h.elements s hs index hindex)⟩

end BinaryModule

namespace Draft

/-! ## Demands -/

/-- A name refers to something once it is registered, and an index once
its space has as many entries. -/
def Resolves (s : Logged) (space : Space) : Target → Prop
  | .name name _ => ∃ r ∈ s.2, r.space = space ∧ r.name = some name
  | .index index _ => index < (s.1.space space).length

/-- What has to be there for a draft to be finished: what a target refers
to, or a table for the element segments, of which the first stands at the
given place. -/
inductive Demand where
  | target (space : Space) (target : Target)
  | table (span : Span)

namespace Demand

def Met (s : Logged) : Demand → Prop
  | target space t => Resolves s space t
  | table _ => s.1.tables ≠ []

/-- The error for a demand that is not met. -/
def fault : Demand → CompileError
  | target space (.name name span) => .unresolved space name span
  | target space (.index index span) => .malformed (.unknownIndex space index) span
  | table span => .malformed .elementsWithoutTable span

end Demand

/-- What a draft demands, in the order in which it is looked for. -/
def demands (d : Draft) : List Demand :=
  d.exports.map (fun e => .target e.kind.space e.target) ++
    (d.start.toList.map (.target .function) ++
      (d.elements.flatMap (fun e => e.functions.map (.target .function)) ++
        (d.elements.head?.map fun e => .table e.span).toList))

/-- That the first of some demands that is not met has the given fault. -/
inductive FirstUnmet (s : Logged) : List Demand → CompileError → Prop
  | here {x : Demand} {ds : List Demand} (unmet : ¬ x.Met s) : FirstUnmet s (x :: ds) x.fault
  | later {x : Demand} {ds : List Demand} {e : CompileError} (met : x.Met s)
      (rest : FirstUnmet s ds e) : FirstUnmet s (x :: ds) e

/-- That a step succeeds when all of some demands are met, and else fails
with the fault of the first that is not. -/
def Settles (s : Logged) (ds : List Demand) {α : Type} : Except CompileError α → Prop
  | .ok _ => ∀ x ∈ ds, x.Met s
  | .error e => FirstUnmet s ds e

variable {s : Logged} {ds ds' : List Demand} {e : CompileError}

namespace FirstUnmet

theorem append (h : FirstUnmet s ds e) : FirstUnmet s (ds ++ ds') e := by
  induction h with
  | here unmet => exact .here unmet
  | later met _ ih => exact .later met ih

theorem behind (hmet : ∀ x ∈ ds, x.Met s) (h : FirstUnmet s ds' e) :
    FirstUnmet s (ds ++ ds') e := by
  induction ds with
  | nil => exact h
  | cons x ds ih =>
      obtain ⟨hx, hds⟩ := List.forall_mem_cons.1 hmet
      exact .later hx (ih hds)

theorem not_all_met (h : FirstUnmet s ds e) : ¬ ∀ x ∈ ds, x.Met s := by
  intro hmet
  induction h with
  | here unmet => exact unmet (List.forall_mem_cons.1 hmet).1
  | later _ _ ih => exact ih (List.forall_mem_cons.1 hmet).2

theorem unique {e' : CompileError} (h : FirstUnmet s ds e) (h' : FirstUnmet s ds e') : e = e' := by
  induction h with
  | here unmet =>
      cases h' with
      | here => rfl
      | later met => exact absurd met unmet
  | later met _ ih =>
      cases h' with
      | here unmet => exact absurd met unmet
      | later _ rest => exact ih rest

end FirstUnmet

namespace Settles

variable {α β : Type} {x : Except CompileError α}

theorem pure (s : Logged) (a : α) : Settles s [] (.ok a) := List.forall_mem_nil _

/-- The next step may count on the demands of the step before. -/
theorem bind {f : α → Except CompileError β} (h : Settles s ds x)
    (hf : (∀ y ∈ ds, y.Met s) → ∀ a, Settles s ds' (f a)) : Settles s (ds ++ ds') (x >>= f) := by
  cases x with
  | error e => exact FirstUnmet.append h
  | ok a =>
      have hnext := hf h a
      change Settles s (ds ++ ds') (f a)
      cases hfa : f a with
      | ok b =>
          rw [hfa] at hnext
          exact List.forall_mem_append.2 ⟨h, hnext⟩
      | error e =>
          rw [hfa] at hnext
          exact FirstUnmet.behind h hnext

/-- A step that only puts a result into another form demands nothing. -/
theorem map {f : α → β} (h : Settles s ds x) : Settles s ds (do return f (← x)) := by
  rw [← List.append_nil ds]
  exact h.bind fun _ a => pure s (f a)

theorem mapM {as : List α} {f : α → Except CompileError β} {g : α → List Demand}
    (h : ∀ a, Settles s (g a) (f a)) : Settles s (as.flatMap g) (as.mapM f) := by
  induction as with
  | nil => exact pure s []
  | cons a as ih =>
      rw [List.flatMap_cons, List.mapM_cons]
      exact (h a).bind fun _ b => ih.map

/-- **Whether a step succeeds** is whether its demands are met. -/
theorem exists_ok_iff (h : Settles s ds x) : (∃ a, x = .ok a) ↔ ∀ y ∈ ds, y.Met s := by
  cases x with
  | ok a => exact ⟨fun _ => h, fun _ => ⟨a, rfl⟩⟩
  | error e =>
      refine ⟨fun hok => ?_, fun hmet => absurd hmet (FirstUnmet.not_all_met h)⟩
      obtain ⟨a, ha⟩ := hok
      cases ha

/-- **With which error a step fails** is which demand is the first that is
not met. -/
theorem eq_error_iff (h : Settles s ds x) : x = .error e ↔ FirstUnmet s ds e := by
  cases x with
  | ok a =>
      refine ⟨fun herror => ?_, fun hunmet => absurd h hunmet.not_all_met⟩
      cases herror
  | error e' =>
      refine ⟨fun herror => ?_, fun hunmet => congrArg Except.error (FirstUnmet.unique h hunmet)⟩
      obtain rfl := Except.error.inj herror
      exact h

end Settles

/-! ## Finishing -/

theorem latest_isSome_iff {log : List Registration} {space : Space} {name : String} :
    (latest log space name).isSome = true ↔ ∃ r ∈ log, r.space = space ∧ r.name = some name := by
  simp [latest]

variable (h : Consistent s)

include h

theorem settles_resolve (space : Space) (target : Target) :
    Settles s [.target space target] (s.1.resolve space target) := by
  cases target with
  | name name span =>
      rw [resolve, indexOfName, h.names]
      cases hlatest : latest s.2 space name with
      | some index =>
          have hbound := latest_isSome_iff.1 (Option.isSome_of_eq_some hlatest)
          exact List.forall_mem_singleton.2 hbound
      | none =>
          refine .here fun hbound => ?_
          have hsome := latest_isSome_iff.2 hbound
          rw [hlatest] at hsome
          cases hsome
  | index index span =>
      rw [resolve, h.numbered.count_eq]
      split
      next hlt => exact List.forall_mem_singleton.2 hlt
      next hlt => exact .here hlt

/-- Where a target resolves, its space has an entry. -/
theorem Resolves.space_ne_nil {space : Space} {target : Target} (hr : Resolves s space target) :
    s.1.space space ≠ [] := by
  rw [← List.length_pos_iff]
  cases target with
  | name name span =>
      obtain ⟨r, hmem, rfl, -⟩ := hr
      exact Nat.zero_lt_of_lt (List.getElem?_eq_some_iff.1 (h.placed r hmem)).1
  | index index span => exact Nat.zero_lt_of_lt hr

theorem settles_start (start : Option Target) :
    Settles s (start.toList.map (.target .function)) (start.mapM (s.1.resolve .function)) := by
  cases start with
  | none => exact .pure s none
  | some target => exact (settles_resolve h .function target).map

/-- An exported table is there, so only element segments can be without
one. -/
theorem settles_writtenTables (hexports : ∀ e ∈ s.1.exports, Resolves s e.kind.space e.target) :
    Settles s (s.1.elements.head?.map fun e => Demand.table e.span).toList s.1.writtenTables := by
  unfold writtenTables
  split
  next hneeds =>
    have helements : s.1.elements = [] := by simp_all [needsTables]
    rw [helements]
    exact .pure s []
  next hneeds =>
    split
    next hempty =>
      have hnil : s.1.tables = [] := List.isEmpty_iff.1 hempty
      cases helements : s.1.elements with
      | nil =>
          have hexport : ∃ e ∈ s.1.exports, e.kind = .table := by
            have hneeds' : s.1.needsTables = true := by simpa using hneeds
            exact (needsTables_iff.1 hneeds').resolve_left (by simp [helements])
          obtain ⟨e, he, hkind⟩ := hexport
          have hspace := Resolves.space_ne_nil h (hexports e he)
          rw [hkind] at hspace
          simp [ExportKind.space, space, definitions, importsOf_eq_nil, hnil] at hspace
      | cons e es => exact .here fun hmet => hmet hnil
    next hempty =>
      have hne : s.1.tables ≠ [] := fun hnil => hempty (by simp [hnil])
      intro x hx
      obtain ⟨e, -, rfl⟩ := Option.map_eq_some_iff.1 (Option.mem_toList.1 hx)
      exact hne

/-- **Finishing settles what a draft demands.** -/
theorem settles_finish : Settles s s.1.demands s.1.finish := by
  have hexports : Settles s (s.1.exports.map fun e => .target e.kind.space e.target)
      (s.1.exports.mapM fun e => do
        return (e.name, e.kind, ← s.1.resolve e.kind.space e.target)) := by
    rw [List.map_eq_flatMap]
    exact .mapM fun e => (settles_resolve h e.kind.space e.target).map
  have helements : ∀ e : Element, Settles s (e.functions.map (.target .function))
      (do return (⟨e.offset, ← e.functions.mapM (s.1.resolve .function)⟩ : Segment Nat)) := by
    intro e
    rw [List.map_eq_flatMap]
    exact (Settles.mapM fun target => settles_resolve h .function target).map
  refine hexports.bind fun hmet _ => (settles_start h s.1.start).bind fun _ _ =>
    (Settles.mapM helements).bind fun _ _ => (settles_writtenTables h ?_).map
  exact fun e he => hmet _ (List.mem_map.2 ⟨e, he, rfl⟩)

omit h in
/-- The demands of a draft, kind by kind. -/
theorem demands_met_iff : (∀ x ∈ s.1.demands, x.Met s) ↔
    (∀ e ∈ s.1.exports, Resolves s e.kind.space e.target) ∧
      (∀ target ∈ s.1.start, Resolves s .function target) ∧
      (∀ e ∈ s.1.elements, ∀ target ∈ e.functions, Resolves s .function target) ∧
      (s.1.elements ≠ [] → s.1.tables ≠ []) := by
  have htable : (∀ x ∈ (s.1.elements.head?.map fun e => Demand.table e.span).toList, x.Met s) ↔
      (s.1.elements ≠ [] → s.1.tables ≠ []) := by
    cases s.1.elements with
    | nil => simp
    | cons e es => simp [Demand.Met]
  rw [demands, List.forall_mem_append, List.forall_mem_append, List.forall_mem_append, htable,
    List.forall_mem_map, List.forall_mem_map, List.forall_mem_flatMap]
  simp only [List.forall_mem_map, Option.mem_toList, Option.mem_def, Demand.Met]

/-! ## What is written -/

/-- **A finished module is linked.** -/
theorem Declares.linked {m : BinaryModule} (hd : s.1.Declares m)
    (htables : s.1.elements ≠ [] → s.1.tables ≠ []) : m.Linked := by
  refine ⟨fun e he => ?_, fun index hindex => ?_, fun seg hseg index hindex => ?_, fun hrefer => ?_⟩
  · obtain ⟨x, hx, -, hkind, hr⟩ := exists_of_mem_forall₂ hd.exports he
    rw [hkind]
    exact hd.export_lt h hx hr
  · have hrel := hd.start
    rw [Option.mem_def.1 hindex] at hrel
    generalize s.1.start = target at hrel
    cases hrel with
    | some hr => exact hd.function_lt h hr
  · obtain ⟨e, -, -, hcontents⟩ := exists_of_mem_forall₂ hd.elements hseg
    obtain ⟨target, -, hr⟩ := exists_of_mem_forall₂ hcontents hindex
    exact hd.function_lt h hr
  · -- what refers to a table is in the draft too, which then has one
    have hdraft : (s.1.elements ≠ [] ∨ ∃ e ∈ s.1.exports, e.kind = .table) ∧ s.1.tables ≠ [] := by
      rcases hrefer with hne | ⟨e, he, hkind⟩
      · have helements : s.1.elements ≠ [] := fun hnil =>
          hne (List.forall₂_nil_left_iff.1 (hnil ▸ hd.elements))
        exact ⟨.inl helements, htables helements⟩
      · obtain ⟨x, hx, -, hsame, hr⟩ := exists_of_mem_forall₂ hd.exports he
        rw [hkind] at hsame
        have hlt := h.resolve_lt hr
        rw [← hsame] at hlt
        exact ⟨.inr ⟨x, hx, hsame.symm⟩, List.length_pos_iff.1 (Nat.zero_lt_of_lt hlt)⟩
    refine BinaryModule.table_mem_sections ?_
    rw [hd.tables, if_pos hdraft.1]
    simpa using hdraft.2

omit h in
/-- **A draft is finished exactly when all it refers to is there.** After
any sequence of operations, building succeeds if and only if every export
resolves in the space of its kind, the start function and the functions of
every element segment in that of functions, and there is a table for the
element segments. It fails with the fault of the first demand that is not
met, in that order. The bytes are those of a module whose references all
lead to entries, and whose exports, start function and segments read back
from the sections where there is room. -/
theorem build_outcome (ops : List Operation) (d : Draft) (log : List Registration)
    (h : Logged.run ops = (d, log)) :
    ((∃ bytes, d.build = .ok bytes) ↔
      (∀ e ∈ d.exports, Resolves (d, log) e.kind.space e.target) ∧
        (∀ target ∈ d.start, Resolves (d, log) .function target) ∧
        (∀ e ∈ d.elements, ∀ target ∈ e.functions, Resolves (d, log) .function target) ∧
        (d.elements ≠ [] → d.tables ≠ [])) ∧
      (∀ e, d.build = .error e ↔ FirstUnmet (d, log) d.demands e) ∧
      ∀ bytes, d.build = .ok bytes → ∃ m, d.Declares m ∧ m.encode = bytes ∧ m.Linked ∧
        (bytes.length < 2 ^ 32 → readSections bytes = some m.sections ∧
          readItems m.sections 7 Reader.exportItem = some m.exports ∧
          readStart m.sections = some m.start ∧
          ((∀ s ∈ m.elements, IsExpression s.offset) →
            readItems m.sections 9 (.segment (.vector .u32 .u32)) = some m.elements)) := by
  have hc : Consistent (d, log) := h ▸ Consistent.run ops
  have hsettles : Settles (d, log) d.demands d.build := (settles_finish hc).map
  have hsucceeds := hsettles.exists_ok_iff.trans (demands_met_iff (s := (d, log)))
  refine ⟨hsucceeds, fun e => hsettles.eq_error_iff, fun bytes hbuild => ?_⟩
  obtain ⟨-, -, -, htables⟩ := hsucceeds.1 ⟨bytes, hbuild⟩
  obtain ⟨m, hfinish, rfl⟩ := build_eq_ok.1 hbuild
  have hd := finish_declares hfinish
  have hlinked := Declares.linked hc hd htables
  refine ⟨m.written, hd, m.encode_written, hlinked, fun hsize => ?_⟩
  rw [← m.encode_written] at hsize ⊢
  exact ⟨BinaryModule.readSections_encode hsize, hlinked.reads_back hsize⟩

/-- A function, and a table that is exported and filled with it by
name. -/
def linkedOperations : List Operation :=
  [.addExport ⟨"t", .table, .index 0 .zero⟩, .addElement ⟨[0x41, 0], [.name "f" .zero], .zero⟩,
    .addFunction (some "f") 0, .addTable none ⟨1, none, false⟩]

/-- The same with a start function that is not there, and in a further
segment another one. -/
def unlinkedOperations : List Operation :=
  linkedOperations ++
    [.addElement ⟨[0x41, 1], [.name "g" .zero], .zero⟩, .setStart (.index 1 ⟨4, 7, 1, 5⟩)]

omit h in
theorem build_outcome_linked :
    (∃ bytes, (Logged.run linkedOperations).1.build = .ok bytes) ∧
      (Logged.run unlinkedOperations).1.build =
        .error (.malformed (.unknownIndex .function 1) ⟨4, 7, 1, 5⟩) := by
  constructor
  · refine (build_outcome linkedOperations _ _ rfl).1.2 ⟨?_, ?_, ?_, ?_⟩
    · exact List.forall_mem_singleton.2 Nat.zero_lt_one
    · exact fun target hnone => (by cases hnone)
    · have hf : Resolves (Logged.run linkedOperations) .function (.name "f" .zero) :=
        ⟨_, List.mem_cons_self, rfl, rfl⟩
      exact List.forall_mem_singleton.2 (List.forall_mem_singleton.2 hf)
    · exact fun _ => List.cons_ne_nil _ _
  · refine ((build_outcome unlinkedOperations _ _ rfl).2.1 _).2 (.later ?_ (.here ?_))
    · exact Nat.zero_lt_one
    · exact Nat.lt_irrefl 1

end Draft

end WasmText
