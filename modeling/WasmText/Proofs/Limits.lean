import WasmText.Proofs.Compile
/-!
# Memory limits in the binary

The limits that a memory was registered with are read back from the
sections of the finished module: minimum and maximum always, and the
shared flag where there is a maximum (`memory_limits_read_back`). The
format has no form for shared limits without a maximum. Defining such a
memory is refused. Importing one is not, and its flag does not reach the
bytes (`shared_import_unshared`).
-/

namespace WasmText

/-! ## Limits of memories -/

def ImportDesc.memory? : ImportDesc → Option Limits
  | memory limits => some limits
  | _ => none

/-- The limits of a memory, imported or defined here. -/
def Entity.memory? : Entity → Option Limits
  | imported i => i.desc.memory?
  | memory limits => some limits
  | _ => none

/-- Whether the format has a form for the limits. -/
def Limits.Expressible (l : Limits) : Prop := l.shared → l.max.isSome

theorem Limits.written_eq_self {l : Limits} : l.written = l ↔ l.Expressible := by
  rcases l with ⟨min, max, _ | _⟩
  · simp [written, Expressible]
  · simp [written, Expressible]

theorem Limits.map_written_eq_self {ls : List Limits} :
    ls.map written = ls ↔ ∀ l ∈ ls, l.Expressible := by
  induction ls with
  | nil => simp
  | cons l ls ih => rw [List.map_cons, List.cons.injEq, written_eq_self, ih, List.forall_mem_cons]

theorem ImportDesc.memory?_written (desc : ImportDesc) :
    desc.written.memory? = desc.memory?.map Limits.written := by
  cases desc <;> rfl

theorem ImportDesc.memory?_eq_some {desc : ImportDesc} {l : Limits} :
    desc.memory? = some l ↔ desc = .memory l := by
  cases desc <;> simp [memory?]

theorem ImportDesc.memory?_eq_none {desc : ImportDesc} (h : desc.space ≠ .memory) :
    desc.memory? = none := by
  cases desc with
  | memory limits => exact absurd rfl h
  | _ => rfl

/-- Type indices and sizes of 32 bits. -/
def ImportDesc.InWords : ImportDesc → Prop
  | function type => type < 2 ^ 32
  | memory limits => limits.InWords
  | global _ => True

theorem ImportDesc.InWords.written_fits {desc : ImportDesc} (h : desc.InWords) :
    desc.written.Fits := by
  cases desc with
  | function type => exact h
  | memory limits => exact Limits.InWords.written_fits h
  | global type => trivial

/-- What may be registered: numbers are words, and a memory that is
defined here is not shared without a maximum. -/
def Entity.Admissible : Entity → Prop
  | imported i => i.desc.InWords
  | memory limits => limits.InWords ∧ limits.Expressible
  | _ => True

namespace Draft

variable {d d' : Draft} {log : List Registration}

/-! ## What is registered -/

/-- Type indices of imports and limits of memories are words. -/
def Operation.InWords : Operation → Prop
  | importFunction _ _ _ type _ => type < 2 ^ 32
  | importMemory _ _ _ limits _ | addMemory _ limits _ => limits.InWords
  | _ => True

/-- A memory that is defined here has limits that can be written. -/
theorem expressible_of_addMemory {name : Option String} {limits : Limits} {span : Span}
    {index : Nat} (h : d.addMemory name limits span = .ok (index, d')) : limits.Expressible := by
  unfold addMemory at h
  split at h
  next => cases h
  next hboth =>
    intro hshared
    simpa [hshared, ← Option.isSome_iff_ne_none] using hboth

/-- An operation registers only what is admissible. -/
theorem admissible_of_perform {op : Operation} (hop : op.InWords) {r : Registration}
    (hrun : d.perform op = .ok (some r, d')) : r.entity.Admissible := by
  cases op with
  | internType type =>
      cases hrun
      trivial
  | addType name type =>
      cases hrun
      trivial
  | importFunction name module field type span =>
      obtain ⟨⟨index, d₁⟩, -, hrun⟩ := bind_eq_ok.1 hrun
      cases pure_eq_ok.1 hrun
      exact hop
  | importMemory name module field limits span =>
      obtain ⟨⟨index, d₁⟩, -, hrun⟩ := bind_eq_ok.1 hrun
      cases pure_eq_ok.1 hrun
      exact hop
  | importGlobal name module field type span =>
      obtain ⟨⟨index, d₁⟩, -, hrun⟩ := bind_eq_ok.1 hrun
      cases pure_eq_ok.1 hrun
      trivial
  | addFunction name type =>
      cases hrun
      trivial
  | addTable name limits =>
      cases hrun
      trivial
  | addMemory name limits span =>
      obtain ⟨⟨index, d₁⟩, hadd, hrun⟩ := bind_eq_ok.1 hrun
      cases pure_eq_ok.1 hrun
      exact ⟨hop, expressible_of_addMemory hadd⟩
  | addGlobal name global =>
      cases hrun
      trivial
  | setCode | addExport | setStart | addElement | addData => cases hrun

/-- One operation adds at most an admissible entry to the log. -/
theorem Logged.step_admissible {s : Logged} (h : ∀ r ∈ s.2, r.entity.Admissible)
    {op : Operation} (hop : op.InWords) : ∀ r ∈ (s.step op).2, r.entity.Admissible := by
  unfold Logged.step
  cases hrun : s.1.perform op with
  | error e => exact h
  | ok result =>
      obtain ⟨registered, d'⟩ := result
      intro r hr
      rcases List.mem_append.1 hr with hr | hr
      · exact h r hr
      · rw [Option.mem_toList.1 hr] at hrun
        exact admissible_of_perform hop hrun

/-- **A log holds only what is admissible.** -/
theorem Logged.run_admissible {ops : List Operation} (hops : ∀ op ∈ ops, op.InWords) :
    ∀ r ∈ (Logged.run ops).2, r.entity.Admissible := by
  unfold Logged.run
  suffices ∀ s : Logged, (∀ r ∈ s.2, r.entity.Admissible) →
      ∀ r ∈ (ops.foldl Logged.step s).2, r.entity.Admissible from
    this _ (List.forall_mem_nil _)
  induction ops with
  | nil => exact fun s h => h
  | cons op ops ih =>
      obtain ⟨hop, hops⟩ := List.forall_mem_cons.1 hops
      exact fun s h => ih hops _ (Logged.step_admissible h hop)

/-! ## What the draft holds -/

/-- The registrations in a space, in order, are its entries. -/
theorem Consistent.entities (h : Consistent (d, log)) {s : Space} (hs : s ≠ .type) :
    (log.filter (·.space = s)).map (·.entity) = d.space s := by
  have horder := congrArg (List.map Prod.fst) (h.inOrder s hs)
  simpa [Function.comp_def] using horder

theorem Consistent.exists_registration (h : Consistent (d, log)) {s : Space} (hs : s ≠ .type)
    {e : Entity} (he : e ∈ d.space s) : ∃ r ∈ log, r.entity = e := by
  rw [← h.entities hs] at he
  obtain ⟨r, hr, rfl⟩ := List.mem_map.1 he
  exact ⟨r, (List.mem_filter.1 hr).1, rfl⟩

theorem Consistent.import_inWords (h : Consistent (d, log))
    (hlog : ∀ r ∈ log, r.entity.Admissible) {i : Import} (hi : i ∈ d.imports) :
    i.desc.InWords := by
  have hmem : Entity.imported i ∈ d.space i.desc.space :=
    List.mem_append_left _ (List.mem_map.2 ⟨i, List.mem_filter.2 ⟨hi, by simp⟩, rfl⟩)
  obtain ⟨r, hr, hentity⟩ := h.exists_registration (by cases i.desc <;> simp [ImportDesc.space]) hmem
  have hadmissible := hlog r hr
  rwa [hentity] at hadmissible

theorem Consistent.memory_admissible (h : Consistent (d, log))
    (hlog : ∀ r ∈ log, r.entity.Admissible) {l : Limits} (hl : l ∈ d.memories) :
    l.InWords ∧ l.Expressible := by
  have hmem : Entity.memory l ∈ d.space .memory :=
    List.mem_append_right _ (List.mem_map.2 ⟨l, hl, rfl⟩)
  obtain ⟨r, hr, hentity⟩ := h.exists_registration (by simp) hmem
  have hadmissible := hlog r hr
  rwa [hentity] at hadmissible

/-- The limits that memories were registered with, in order. -/
def registeredMemories (log : List Registration) : List Limits :=
  (log.filter (·.space = .memory)).filterMap (·.entity.memory?)

/-- A memory stands in the memory space only. -/
theorem eq_memory_of_mem_space {s : Space} {e : Entity} {l : Limits} (he : e ∈ d.space s)
    (hl : e.memory? = some l) : s = .memory := by
  rcases List.mem_append.1 he with he | he
  · obtain ⟨i, hi, rfl⟩ := List.mem_map.1 he
    obtain rfl : i.desc.space = s := of_decide_eq_true (List.mem_filter.1 hi).2
    by_contra hs
    cases (ImportDesc.memory?_eq_none hs).symm.trans hl
  · cases s with
    | memory => rfl
    | «local» | label => cases he
    | _ =>
        obtain ⟨entry, -, rfl⟩ := List.mem_map.1 he
        cases hl

theorem Consistent.mem_registeredMemories (h : Consistent (d, log)) {l : Limits} :
    l ∈ registeredMemories log ↔ ∃ r ∈ log, r.entity.memory? = some l := by
  constructor
  · intro hl
    obtain ⟨r, hr, hentity⟩ := List.mem_filterMap.1 hl
    exact ⟨r, (List.mem_filter.1 hr).1, hentity⟩
  · rintro ⟨r, hr, hentity⟩
    have hspace := eq_memory_of_mem_space (List.mem_of_getElem? (h.placed r hr)) hentity
    exact List.mem_filterMap.2 ⟨r, List.mem_filter.2 ⟨hr, decide_eq_true hspace⟩, hentity⟩

/-- Only the imports into the memory space are memories. -/
theorem filterMap_memory?_imports (d : Draft) :
    d.imports.filterMap (·.desc.memory?) = (d.importsOf .memory).filterMap (·.desc.memory?) := by
  rw [importsOf, List.filterMap_filter]
  refine List.filterMap_congr fun i _ => ?_
  by_cases h : i.desc.space = .memory
  · simp [h]
  · simp [h, ImportDesc.memory?_eq_none h]

/-- **The registered memories are those of the draft**, imports first. -/
theorem Consistent.registeredMemories_eq (h : Consistent (d, log)) :
    registeredMemories log = d.imports.filterMap (·.desc.memory?) ++ d.memories := by
  have hspace : registeredMemories log = (d.space .memory).filterMap Entity.memory? := by
    rw [← h.entities (by simp), List.filterMap_map]
    rfl
  rw [hspace, filterMap_memory?_imports, space, List.filterMap_append, List.filterMap_map,
    definitions, List.filterMap_map]
  simp [Function.comp_def, Entity.memory?]

/-! ## What is read back -/

/-- The sections of a build hold its imports and its memories as they are
written. -/
theorem Consistent.sections_of_build (h : Consistent (d, log))
    (hlog : ∀ r ∈ log, r.entity.Admissible) {bytes : List UInt8} (hbuild : d.build = .ok bytes)
    (hsize : bytes.length < 2 ^ 32) :
    ∃ sections, readSections bytes = some sections ∧
      readItems sections 2 Reader.importItem = some (d.imports.map Import.written) ∧
      readItems sections 5 Reader.limits = some (d.memories.map Limits.written) := by
  obtain ⟨m, hfinish, rfl⟩ := build_eq_ok.1 hbuild
  have hdeclares := finish_declares hfinish
  -- the bytes are also those of the module with limits as written
  rw [← m.encode_written] at hsize ⊢
  refine ⟨m.written.sections, BinaryModule.readSections_encode hsize, ?_, ?_⟩
  · rw [← hdeclares.imports]
    refine BinaryModule.readItems_imports hsize fun i hi => ?_
    rw [hdeclares.imports] at hi
    obtain ⟨j, hj, rfl⟩ := List.mem_map.1 hi
    exact (h.import_inWords hlog hj).written_fits
  · rw [← hdeclares.memories]
    refine BinaryModule.readItems_sections hsize rfl (BinaryModule.optionalContents_cases _ _)
      Limits.encode_ne_nil fun l hl _ => Reads.limits ?_
    rw [hdeclares.memories] at hl
    obtain ⟨k, hk, rfl⟩ := List.mem_map.1 hl
    exact (h.memory_admissible hlog hk).1.written_fits

/-- **Memory limits read back as they are written.** After any sequence of
operations on words, the import section and the memory section of a build
give the limits of all memories that were registered, in order, with their
minimum and maximum, and shared where they were shared with a maximum. The
limits of a memory that is defined here are never shared without one. So
all limits survive exactly if none that was registered with an import is
shared without a maximum. -/
theorem memory_limits_read_back (ops : List Operation) (d : Draft) (log : List Registration)
    (bytes : List UInt8) (hrun : Logged.run ops = (d, log)) (hwords : ∀ op ∈ ops, op.InWords)
    (hbuild : d.build = .ok bytes) (hsize : bytes.length < 2 ^ 32) :
    ∃ sections imports memories, readSections bytes = some sections ∧
      readItems sections 2 Reader.importItem = some imports ∧
      readItems sections 5 Reader.limits = some memories ∧
      imports.filterMap (·.desc.memory?) ++ memories =
        (registeredMemories log).map Limits.written ∧
      (∀ r ∈ log, ∀ l, r.entity = .memory l → l.Expressible) ∧
      (imports.filterMap (·.desc.memory?) ++ memories = registeredMemories log ↔
        ∀ r ∈ log, ∀ i l, r.entity = .imported i → i.desc = .memory l → l.Expressible) := by
  have hc : Consistent (d, log) := hrun ▸ Consistent.run ops
  have hlog : ∀ r ∈ log, r.entity.Admissible := by
    have hadmissible := Logged.run_admissible hwords
    rwa [hrun] at hadmissible
  obtain ⟨sections, hsections, himports, hmemories⟩ := hc.sections_of_build hlog hbuild hsize
  have hread : (d.imports.map Import.written).filterMap (·.desc.memory?) ++
      d.memories.map Limits.written = (registeredMemories log).map Limits.written := by
    rw [hc.registeredMemories_eq, List.map_append, List.map_filterMap, List.filterMap_map]
    simp only [Function.comp_def, Import.written, ImportDesc.memory?_written]
  have hdefined : ∀ r ∈ log, ∀ l, r.entity = .memory l → l.Expressible := by
    intro r hr l hl
    have hadmissible := hlog r hr
    rw [hl] at hadmissible
    exact hadmissible.2
  refine ⟨sections, _, _, hsections, himports, hmemories, hread, hdefined, ?_⟩
  rw [hread, Limits.map_written_eq_self]
  constructor
  · intro hall r hr i l hi hl
    refine hall l (hc.mem_registeredMemories.2 ⟨r, hr, ?_⟩)
    rw [hi, Entity.memory?, hl, ImportDesc.memory?]
  · intro himported l hl
    obtain ⟨r, hr, hl⟩ := hc.mem_registeredMemories.1 hl
    cases hentity : r.entity with
    | imported i =>
        rw [hentity] at hl
        exact himported r hr i l hentity (ImportDesc.memory?_eq_some.1 hl)
    | memory k =>
        rw [hentity] at hl
        obtain rfl := Option.some.inj hl
        exact hdefined r hr k hentity
    | type | function | table | global =>
        rw [hentity] at hl
        cases hl

/-- An import that is shared without a maximum, one that is shared with
one, a definition that is refused and one that is not. -/
def limitOperations : List Operation :=
  [.importMemory none "m" "f" ⟨1, none, true⟩ .zero,
    .importMemory none "m" "g" ⟨1, some 2, true⟩ .zero, .addMemory none ⟨3, none, true⟩ .zero,
    .addMemory none ⟨300, some 400, true⟩ .zero]

def limitBytes : List UInt8 :=
  [0x00, 0x61, 0x73, 0x6D, 0x01, 0x00, 0x00, 0x00,
    1, 1, 0,
    2, 16, 2, 1, 0x6D, 1, 0x66, 0x02, 0x00, 1, 1, 0x6D, 1, 0x67, 0x02, 0x03, 1, 2,
    3, 1, 0,
    5, 6, 1, 0x03, 0xAC, 0x02, 0x90, 0x03,
    10, 1, 0]

theorem memory_limits_read_back_shared :
    (Logged.run limitOperations).1.build = .ok limitBytes ∧
      registeredMemories (Logged.run limitOperations).2 =
        [⟨1, none, true⟩, ⟨1, some 2, true⟩, ⟨300, some 400, true⟩] ∧
      ∃ sections imports memories, readSections limitBytes = some sections ∧
        readItems sections 2 Reader.importItem = some imports ∧
        readItems sections 5 Reader.limits = some memories ∧
        imports.filterMap (·.desc.memory?) ++ memories =
          [⟨1, none, false⟩, ⟨1, some 2, true⟩, ⟨300, some 400, true⟩] := by
  have hbuild : (Logged.run limitOperations).1.build = .ok limitBytes := by decide +kernel
  have hwords : ∀ op ∈ limitOperations, op.InWords := by
    simp [limitOperations, Operation.InWords, Limits.InWords]
  obtain ⟨sections, imports, memories, hsections, himports, hmemories, hread, -⟩ :=
    memory_limits_read_back limitOperations _ _ limitBytes rfl hwords hbuild (by decide)
  exact ⟨hbuild, rfl, sections, imports, memories, hsections, himports, hmemories, hread⟩

def sharedImport : List Operation := [.importMemory none "m" "n" ⟨1, none, true⟩ .zero]

def sharedImportBytes : List UInt8 :=
  [0x00, 0x61, 0x73, 0x6D, 0x01, 0x00, 0x00, 0x00,
    1, 1, 0, 2, 8, 1, 1, 0x6D, 1, 0x6E, 0x02, 0x00, 1, 3, 1, 0, 10, 1, 0]

/-- **A shared import is written unshared** when it has no maximum. -/
theorem shared_import_unshared :
    registeredMemories (Logged.run sharedImport).2 = [⟨1, none, true⟩] ∧
      (Logged.run sharedImport).1.build = .ok sharedImportBytes ∧
      ∃ sections, readSections sharedImportBytes = some sections ∧
        readItems sections 2 Reader.importItem =
          some [⟨"m", "n", .memory ⟨1, none, false⟩⟩] := by
  have hbuild : (Logged.run sharedImport).1.build = .ok sharedImportBytes := by decide +kernel
  have hwords : ∀ op ∈ sharedImport, op.InWords := by
    simp [sharedImport, Operation.InWords, Limits.InWords]
  obtain ⟨sections, hsections, himports, -⟩ := (Consistent.run sharedImport).sections_of_build
    (Logged.run_admissible hwords) hbuild (by decide)
  exact ⟨rfl, hbuild, sections, hsections, himports⟩

end Draft

end WasmText
