import WasmText.Proofs.Module.Declaration
/-!
# Compiled modules read back

The bytes of a compiled source, given to a reader of the format that knows
nothing of the source, give the declarations that the draft held when it
was finished (`compile_reads_back`). The one condition is room: the bytes,
and the locals of each function with its parameters, are fewer than
`2 ^ 32`. Every other length and every index is bounded by these.
-/

namespace WasmText

/-! ## Written limits -/

theorem Limits.InWords.written_fits {l : Limits} (h : l.InWords) : l.written.Fits :=
  ⟨h.1, h.2, fun hshared => (Bool.and_eq_true_iff.1 hshared).2⟩

/-- What a draft knows fits in its written form. -/
theorem Draft.Knows.written_fits {d : Draft} {desc : ImportDesc} (h : d.Knows desc)
    (hd : d.types.count < 2 ^ 32) : desc.written.Fits := by
  cases desc with
  | function type => exact lt_trans h hd
  | memory limits => exact Limits.InWords.written_fits h
  | global type => trivial

theorem ImportDesc.space_written (desc : ImportDesc) : desc.written.space = desc.space := by
  cases desc <;> rfl

/-! ## Entries -/

namespace BinaryModule

/-- How many entries an index space of a module has, imports included. -/
def count (m : BinaryModule) (s : Space) : Nat :=
  m.imports.countP (·.desc.space = s) + match s with
    | .type => m.types.length
    | .function => m.functions.length
    | .table => m.tables.length
    | .memory => m.memories.length
    | .global => m.globals.length
    | .local | .label => 0

/-- Imports and definitions are in different sections, so their bytes add
up. -/
theorem count_le (m : BinaryModule) (s : Space) : m.count s ≤ m.encode.length := by
  have hall := m.length_le_encode
  have himports : m.imports.countP (·.desc.space = s) ≤ m.imports.length := List.countP_le_length
  unfold count
  cases s <;> dsimp only <;> omega

end BinaryModule

namespace Draft

variable {d : Draft} {m : BinaryModule}

/-! ## What a draft declares -/

/-- The module that a draft declares, field by field. Definitions of
functions stand in one order in two places. Targets are resolved, limits
are as the format can say them, and tables are left out when no element
segment and no export refers to one. -/
structure Declares (d : Draft) (m : BinaryModule) : Prop where
  types : m.types = d.types.entries
  imports : m.imports = d.imports.map Import.written
  functions : m.functions = d.defined.map (·.type)
  code : m.code = d.defined.map (·.code)
  tables : m.tables = if d.elements ≠ [] ∨ ∃ e ∈ d.exports, e.kind = .table then
    d.tables.map Limits.written else []
  memories : m.memories = d.memories.map Limits.written
  globals : m.globals = d.globals
  exports : List.Forall₂ (fun e (name, kind, index) => name = e.name ∧ kind = e.kind ∧
    d.resolve e.kind.space e.target = .ok index) d.exports m.exports
  start : Option.Rel (fun target index => d.resolve .function target = .ok index) d.start m.start
  elements : List.Forall₂ (fun e s => s.offset = e.offset ∧
    List.Forall₂ (fun target index => d.resolve .function target = .ok index) e.functions
      s.contents) d.elements m.elements
  data : m.data = d.data

/-- Tables are needed by an element segment, or by an export of one. -/
theorem needsTables_iff :
    d.needsTables = true ↔ d.elements ≠ [] ∨ ∃ e ∈ d.exports, e.kind = .table := by
  simp [needsTables]

/-- The tables written are all of them if they are needed, and none
otherwise. -/
theorem writtenTables_eq_ok {tables : List Limits} (h : d.writtenTables = .ok tables) :
    tables = if d.elements ≠ [] ∨ ∃ e ∈ d.exports, e.kind = .table then d.tables else [] := by
  unfold writtenTables at h
  simp only [← needsTables_iff]
  split at h
  next hneeds =>
    obtain rfl := Except.ok.inj h
    rw [if_neg (by simpa using hneeds)]
  next hneeds =>
    split at h
    · cases h
    · obtain rfl := Except.ok.inj h
      rw [if_pos (by simpa using hneeds)]

theorem mapM_start_eq_ok {start : Option Nat} (h : d.start.mapM (d.resolve .function) = .ok start) :
    Option.Rel (fun target index => d.resolve .function target = .ok index) d.start start := by
  cases hstart : d.start with
  | none =>
      rw [hstart] at h
      obtain rfl := pure_eq_ok.1 h
      exact .none
  | some target =>
      rw [hstart] at h
      obtain ⟨index, hindex, h⟩ := bind_eq_ok.1 h
      obtain rfl := pure_eq_ok.1 h
      exact .some hindex

/-- **A finished module is the one that its draft declares**, up to what
the format cannot say. -/
theorem finish_declares (h : d.finish = .ok m) : d.Declares m.written := by
  obtain ⟨exports, hexports, h⟩ := bind_eq_ok.1 h
  obtain ⟨start, hstart, h⟩ := bind_eq_ok.1 h
  obtain ⟨elements, helements, h⟩ := bind_eq_ok.1 h
  obtain ⟨tables, htables, h⟩ := bind_eq_ok.1 h
  obtain rfl := pure_eq_ok.1 h
  refine ⟨rfl, rfl, rfl, rfl, ?_, rfl, rfl, ?_, mapM_start_eq_ok hstart, ?_, rfl⟩
  · rw [BinaryModule.written, writtenTables_eq_ok htables]
    split <;> rfl
  · refine (mapM_eq_ok.1 hexports).imp fun e written he => ?_
    obtain ⟨index, hindex, he⟩ := bind_eq_ok.1 he
    obtain rfl := pure_eq_ok.1 he
    exact ⟨rfl, rfl, hindex⟩
  · refine (mapM_eq_ok.1 helements).imp fun e s hs => ?_
    obtain ⟨contents, hcontents, hs⟩ := bind_eq_ok.1 hs
    obtain rfl := pure_eq_ok.1 hs
    exact ⟨rfl, mapM_eq_ok.1 hcontents⟩

/-- The bytes of a draft are those of the module it finishes as. -/
theorem build_eq_ok {bytes : List UInt8} :
    d.build = .ok bytes ↔ ∃ m, d.finish = .ok m ∧ m.encode = bytes := by
  rw [build]
  cases d.finish <;> simp [Except.map]

/-! ## Room -/

/-- Whether each function has fewer than `2 ^ 32` parameters and locals
together. -/
def LocalsFit (d : Draft) : Prop :=
  ∀ f ∈ d.defined, ∀ t ∈ d.types.at? f.type, t.params.length + f.code.locals.length < 2 ^ 32

instance (d : Draft) : Decidable d.LocalsFit := by
  unfold LocalsFit
  infer_instance

/-- What a target resolves to is in range. -/
theorem Consistent.resolve_lt {s : Logged} (h : Consistent s) {space : Space} {target : Target}
    {index : Nat} (hr : s.1.resolve space target = .ok index) : index < s.1.count space := by
  cases target with
  | name name span => exact h.index?_lt (resolved_eq_ok.1 hr)
  | index i span =>
      rw [resolve] at hr
      split at hr
      next hlt =>
        obtain rfl := Except.ok.inj hr
        exact hlt
      next => cases hr

/-- A target resolves to something that there is. -/
theorem Sound.resolve_lt (h : d.Sound) {s : Space} {target : Target} {index : Nat}
    (hr : d.resolve s target = .ok index) : index < d.count s := by
  obtain ⟨log, hlog⟩ := h.consistent
  exact hlog.resolve_lt hr

namespace Declares

/-- **A space is counted alike in the module**, as long as its tables are
written. -/
theorem count_eq (hd : d.Declares m) {s : Space}
    (hs : s = .table → d.elements ≠ [] ∨ ∃ e ∈ d.exports, e.kind = .table) :
    m.count s = (d.space s).length := by
  have himports : m.imports.countP (·.desc.space = s) = (d.importsOf s).length := by
    rw [hd.imports, List.countP_map, importsOf, ← List.countP_eq_length_filter]
    simp only [Function.comp_def, Import.written, ImportDesc.space_written]
  rw [space, List.length_append, List.length_map, BinaryModule.count.eq_def, himports]
  cases s with
  | type => simp [definitions, hd.types]
  | function => simp [definitions, hd.functions]
  | table => simp [definitions, hd.tables, if_pos (hs rfl)]
  | memory => simp [definitions, hd.memories]
  | global => simp [definitions, hd.globals]
  | «local» => simp [definitions]
  | label => simp [definitions]

/-- The spaces whose entries are always written count fewer than the
bytes. -/
theorem space_le (hd : d.Declares m) {s : Space} (hs : s ≠ .table) :
    (d.space s).length ≤ m.encode.length := by
  rw [← hd.count_eq fun htable => absurd htable hs]
  exact m.count_le s

/-- What an export resolves to is in the module, since a table that is
exported is written. -/
theorem export_lt (hd : d.Declares m) {log : List Registration} (h : Consistent (d, log))
    {e : Export} (he : e ∈ d.exports) {index : Nat}
    (hr : d.resolve e.kind.space e.target = .ok index) : index < m.count e.kind.space := by
  have hneeds : e.kind.space = .table → d.elements ≠ [] ∨ ∃ e ∈ d.exports, e.kind = .table := by
    intro hspace
    refine .inr ⟨e, he, ?_⟩
    cases hkind : e.kind <;> simp_all [ExportKind.space]
  rw [hd.count_eq hneeds, ← h.numbered.count_eq]
  exact h.resolve_lt hr

/-- A function that is referred to is in the module. -/
theorem function_lt (hd : d.Declares m) {log : List Registration} (h : Consistent (d, log))
    {target : Target} {index : Nat} (hr : d.resolve .function target = .ok index) :
    index < m.count .function := by
  rw [hd.count_eq fun hspace => (by cases hspace), ← h.numbered.count_eq]
  exact h.resolve_lt hr

variable (hd : d.Declares m) (h : d.Sound) (hsize : m.encode.length < 2 ^ 32)

include hd hsize

/-- A module of less than 2^32 bytes has room for all indices of operands. -/
theorem roomy : d.Roomy := by
  intro s hs
  have hne : s ≠ .table := by
    rintro rfl
    revert hs
    decide
  exact (hd.space_le hne).trans hsize.le

/-- There are fewer types than bytes. -/
theorem types_lt : d.types.count < 2 ^ 32 := by
  rw [count_type]
  exact lt_of_le_of_lt (hd.space_le nofun) hsize

/-- Instructions outside functions that are written are an expression. -/
theorem isExpression {bytes : List UInt8} (hc : d.Coded 0 bytes)
    (hle : bytes.length ≤ m.encode.length) : IsExpression bytes :=
  hc.isExpression (hd.roomy hsize) (Nat.zero_le _) (lt_of_le_of_lt hle hsize)

include h

theorem import_fits {i : Import} (hi : i ∈ m.imports) : i.desc.Fits := by
  rw [hd.imports] at hi
  obtain ⟨j, hj, rfl⟩ := List.mem_map.1 hi
  exact (h.contents.imports j hj).written_fits (hd.types_lt hsize)

theorem global_fits {g : Global} (hg : g ∈ m.globals) : IsExpression g.init := by
  have hle := BinaryModule.length_item_le 6 rfl (BinaryModule.optionalContents_cases _ _) hg
  rw [hd.globals] at hg
  refine hd.isExpression hsize (h.contents.globals g hg) (le_trans ?_ hle)
  simp only [Global.encode, encodeExpression, List.length_append]
  omega

/-- An element segment fits: its offset is an expression, its functions
have words as indices. -/
theorem element_fits {s : Segment Nat} (hs : s ∈ m.elements) :
    IsExpression s.offset ∧ ∀ i ∈ s.contents, i < 2 ^ 32 := by
  have hle := BinaryModule.length_item_le 9 rfl (BinaryModule.optionalContents_cases _ _) hs
  obtain ⟨e, he, hoffset, hcontents⟩ := exists_of_mem_forall₂ hd.elements hs
  constructor
  · refine hd.isExpression hsize (hoffset ▸ h.contents.elements e he) (le_trans ?_ hle)
    simp only [encodeExpression, List.length_append, List.length_cons]
    omega
  · intro index hindex
    obtain ⟨target, -, hr⟩ := exists_of_mem_forall₂ hcontents hindex
    obtain ⟨log, hlog⟩ := h.consistent
    exact (hd.function_lt hlog hr).trans_le ((m.count_le _).trans hsize.le)

theorem data_fits {s : Segment UInt8} (hs : s ∈ m.data) : IsExpression s.offset := by
  have hle := BinaryModule.length_item_le 11 rfl (BinaryModule.optionalContents_cases _ _) hs
  rw [hd.data] at hs
  refine hd.isExpression hsize (h.contents.data s hs) (le_trans ?_ hle)
  simp only [encodeExpression, List.length_append, List.length_cons]
  omega

/-- The code of a function fits if there are not too many locals. -/
theorem code_fits (hlocals : d.LocalsFit) {c : Code} (hc : c ∈ m.code) :
    c.locals.length < 2 ^ 32 ∧ IsExpression c.body := by
  have hle := BinaryModule.length_item_le 10 rfl (.inl rfl) hc
  have hbody : c.body.length ≤ c.encode.length := by
    refine le_trans ?_ (Binary.length_byteVector _)
    simp only [encodeExpression, List.length_append]
    omega
  rw [hd.code] at hc
  obtain ⟨f, hf, rfl⟩ := List.mem_map.1 hc
  obtain ⟨hmem, himported⟩ : f ∈ d.functions ∧ f.imported = false := by
    simpa using List.mem_filter.1 hf
  -- the body points at the parameters of its type too, which are in `hlocals`
  obtain ⟨t, ht⟩ := exists_at? (h.contents.types f hmem)
  have hroom := hlocals f hf t ht
  refine ⟨by omega, (h.contents.code f hmem himported t ht).isExpression (hd.roomy hsize) hroom.le ?_⟩
  exact lt_of_le_of_lt (hbody.trans hle) hsize

/-- **What a sound draft declares fits the format** where there is room. -/
theorem fits (hlocals : d.LocalsFit) : m.Fits where
  size := hsize
  imports i hi := hd.import_fits h hsize hi
  functions type htype := by
    rw [hd.functions] at htype
    obtain ⟨f, hf, rfl⟩ := List.mem_map.1 htype
    exact lt_trans (h.contents.types f (List.mem_filter.1 hf).1) (hd.types_lt hsize)
  tables l hl := by
    rw [hd.tables] at hl
    split at hl
    · obtain ⟨k, hk, rfl⟩ := List.mem_map.1 hl
      exact (h.contents.tables k hk).written_fits
    · cases hl
  memories l hl := by
    rw [hd.memories] at hl
    obtain ⟨k, hk, rfl⟩ := List.mem_map.1 hl
    exact (h.contents.memories k hk).written_fits
  globals g hg := hd.global_fits h hsize hg
  exports e he := by
    obtain ⟨x, hx, -, -, hr⟩ := exists_of_mem_forall₂ hd.exports he
    obtain ⟨log, hlog⟩ := h.consistent
    exact (hd.export_lt hlog hx hr).trans_le ((m.count_le _).trans hsize.le)
  start index hindex := by
    have hrel := hd.start
    rw [Option.mem_def.1 hindex] at hrel
    generalize d.start = target at hrel
    cases hrel with
    | some hr =>
        obtain ⟨log, hlog⟩ := h.consistent
        exact (hd.function_lt hlog hr).trans_le ((m.count_le _).trans hsize.le)
  elements s hs := hd.element_fits h hsize hs
  code c hc := hd.code_fits h hsize hlocals hc
  data s hs := hd.data_fits h hsize hs
  paired := by rw [hd.functions, hd.code, List.length_map, List.length_map]

end Declares

end Draft

/-! ## Sources -/

/-- **A compiled source reads back as what it declares.** The draft of a
source that compiles is finished into bytes that the reader of the format
takes to the end, with the identifiers of the sections going up and the
type, function and code sections always there. What it makes of them is
what the draft declares. -/
theorem compile_reads_back [HexReader] {source : String} {bytes : List UInt8}
    (h : compile source = .ok bytes) :
    ∃ n d, parse source = .ok n ∧ Draft.ofNode n = .ok d ∧
      (bytes.length < 2 ^ 32 → d.LocalsFit → ∃ sections m,
        readSections bytes = some sections ∧ (sections.map (·.1)).Pairwise (· < ·) ∧
          (∀ id ∈ [1, 3, 10], id ∈ sections.map (·.1)) ∧
          readModule bytes = some m ∧ d.Declares m) := by
  unfold compile at h
  split at h
  next n hparse =>
    obtain ⟨d, hdraft, h⟩ := bind_eq_ok.1 h
    refine ⟨n, d, hparse, hdraft, fun hsize hlocals => ?_⟩
    obtain ⟨m, hfinish, rfl⟩ : ∃ m, d.finish = .ok m ∧ m.encode = bytes := by
      cases hf : d.finish with
      | error e =>
          rw [Draft.build, hf] at h
          cases h
      | ok m =>
          rw [Draft.build, hf] at h
          exact ⟨m, rfl, Except.ok.inj h⟩
    have hdeclares := Draft.finish_declares hfinish
    -- the bytes are also those of the module with limits as written
    rw [← m.encode_written] at hsize ⊢
    have hfits := hdeclares.fits (Draft.ofNode_sound hdraft) hsize hlocals
    exact ⟨m.written.sections, m.written, BinaryModule.readSections_encode hsize,
      m.written.sections_pairwise, m.written.id_mem_sections,
      BinaryModule.readModule_encode hfits, hdeclares⟩
  next => cases h

/-- A shared import without a maximum, a table that an element segment
fills by name, and a function with locals in two runs. -/
def assortedSource : String :=
  "(module (import \"m\" \"n\" (memory 1 shared)) (table 1 funcref) " ++
  "(func $f (export \"f\") (param i32) (local i64 i64 f32) (block $l (br $l))) " ++
  "(elem (i32.const 0) $f))"

def assortedBytes : List UInt8 :=
  [0x00, 0x61, 0x73, 0x6D, 0x01, 0x00, 0x00, 0x00,
    1, 5, 1, 0x60, 1, 0x7F, 0,
    2, 8, 1, 1, 0x6D, 1, 0x6E, 0x02, 0x00, 1,
    3, 2, 1, 0,
    4, 4, 1, 0x70, 0x00, 1,
    7, 5, 1, 1, 0x66, 0x00, 0,
    9, 7, 1, 0x00, 0x41, 0, 0x0B, 1, 0,
    10, 13, 1, 11, 2, 2, 0x7E, 1, 0x7D, 0x02, 0x40, 0x0C, 0, 0x0B, 0x0B]

theorem compile_reads_back_assorted :
    compile assortedSource = .ok assortedBytes ∧ assortedBytes.length < 2 ^ 32 ∧
      ∃ n d, parse assortedSource = .ok n ∧ Draft.ofNode n = .ok d ∧ d.LocalsFit ∧
        ∃ sections m, readSections assortedBytes = some sections ∧
          (sections.map (·.1)).Pairwise (· < ·) ∧
          (∀ id ∈ [1, 3, 10], id ∈ sections.map (·.1)) ∧
          readModule assortedBytes = some m ∧ d.Declares m := by
  have hcompile : compile assortedSource = .ok assortedBytes := by decide +kernel
  have hlocals : ((parse assortedSource).toOption.bind fun n => (Draft.ofNode n).toOption).all
      (fun d => d.LocalsFit) = true := by
    decide +kernel
  obtain ⟨n, d, hparse, hdraft, hreads⟩ := compile_reads_back hcompile
  have hfit : d.LocalsFit := by
    simpa [hparse, hdraft, Except.toOption] using hlocals
  exact ⟨hcompile, by decide, n, d, hparse, hdraft, hfit, hreads (by decide) hfit⟩

end WasmText
