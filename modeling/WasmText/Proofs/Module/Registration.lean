import WasmText.Module.Draft
import WasmText.Proofs.Module.Types
import WasmText.Proofs.Steps
/-!
# Registration

A draft is built by operations, of which some are refused and change
nothing. What the accepted ones have registered is a log. A draft agrees
with its log: every registration was answered with the position that its
entity has in the index space of the module, imports of the kind first and
definitions after them, and a name means what was last registered under
it.
-/

namespace WasmText

/-! ## Index spaces -/

def ImportDesc.space : ImportDesc → Space
  | function _ => .function
  | memory _ => .memory
  | global _ => .global

/-- An entry of an index space of the module. -/
inductive Entity where
  | imported (i : Import)
  | type (type : FuncType)
  | function (type : Nat)
  | table (limits : Limits)
  | memory (limits : Limits)
  | global (global : Global)
deriving DecidableEq

/-- Something registered: where, under what name, and the index that was
answered. -/
structure Registration where
  space : Space
  name : Option String
  entity : Entity
  index : Nat

namespace Draft

/-- The imports into a space, in order. -/
def importsOf (d : Draft) (s : Space) : List Import := d.imports.filter (·.desc.space = s)

/-- The definitions in a space, in order. -/
def definitions (d : Draft) : Space → List Entity
  | .type => d.types.entries.map .type
  | .function => d.defined.map fun f => .function f.type
  | .table => d.tables.map .table
  | .memory => d.memories.map .memory
  | .global => d.globals.map .global
  | .local | .label => []

/-- An index space of the module: what is imported, then what is
defined. -/
def space (d : Draft) (s : Space) : List Entity :=
  (d.importsOf s).map .imported ++ d.definitions s

/-! ## Operations -/

/-- What can be done to a draft. -/
inductive Operation where
  | internType (type : FuncType)
  | addType (name : Option String) (type : FuncType)
  | importFunction (name : Option String) (module field : String) (type : Nat) (span : Span)
  | importMemory (name : Option String) (module field : String) (limits : Limits) (span : Span)
  | importGlobal (name : Option String) (module field : String) (type : GlobalType) (span : Span)
  | addFunction (name : Option String) (type : Nat)
  | setCode (index : Nat) (code : Code)
  | addTable (name : Option String) (limits : Limits)
  | addMemory (name : Option String) (limits : Limits) (span : Span)
  | addGlobal (name : Option String) (global : Global)
  | addExport (e : Export)
  | setStart (target : Target)
  | addElement (e : Element)
  | addData (s : Segment UInt8)

/-- The draft after an operation, and what the operation registered. -/
def perform (d : Draft) : Operation → Except CompileError (Option Registration × Draft)
  | .internType type =>
    let (index, d) := d.internType type
    .ok (some ⟨.type, none, .type type, index⟩, d)
  | .addType name type =>
    let (index, d) := d.addType name type
    .ok (some ⟨.type, name, .type type, index⟩, d)
  | .importFunction name module field type span => do
    let (index, d) ← d.importFunction name module field type span
    return (some ⟨.function, name, .imported ⟨module, field, .function type⟩, index⟩, d)
  | .importMemory name module field limits span => do
    let (index, d) ← d.importMemory name module field limits span
    return (some ⟨.memory, name, .imported ⟨module, field, .memory limits⟩, index⟩, d)
  | .importGlobal name module field type span => do
    let (index, d) ← d.importGlobal name module field type span
    return (some ⟨.global, name, .imported ⟨module, field, .global type⟩, index⟩, d)
  | .addFunction name type =>
    let (index, d) := d.addFunction name type
    .ok (some ⟨.function, name, .function type, index⟩, d)
  | .setCode index code => .ok (none, d.setCode index code)
  | .addTable name limits =>
    let (index, d) := d.addTable name limits
    .ok (some ⟨.table, name, .table limits, index⟩, d)
  | .addMemory name limits span => do
    let (index, d) ← d.addMemory name limits span
    return (some ⟨.memory, name, .memory limits, index⟩, d)
  | .addGlobal name global =>
    let (index, d) := d.addGlobal name global
    .ok (some ⟨.global, name, .global global, index⟩, d)
  | .addExport e => .ok (none, d.addExport e)
  | .setStart target => .ok (none, d.setStart target)
  | .addElement e => .ok (none, d.addElement e)
  | .addData s => .ok (none, d.addData s)

/-- A draft and the log of what was registered in it. -/
abbrev Logged := Draft × List Registration

/-- One operation. A refused one changes nothing. -/
def Logged.step (s : Logged) (op : Operation) : Logged :=
  match s.1.perform op with
  | .ok (registered, d) => (d, s.2 ++ registered.toList)
  | .error _ => s

/-- A sequence of operations, from the empty draft on. -/
def Logged.run (ops : List Operation) : Logged := ops.foldl step (empty, [])

/-- The index of the latest registration under a name. -/
def latest (log : List Registration) (s : Space) (name : String) : Option Nat :=
  (log.reverse.find? fun r => r.space = s ∧ r.name = some name).map (·.index)

/-! ## Names -/

theorem index?_declare (names : Names) {s : Space} (hs : s.inFunction = false) (s' : Space)
    (name name' : String) (index : Nat) :
    (names.declare s name index).index? s' name' =
      if s = s' ∧ name = name' then some index else names.index? s' name' := by
  rw [Names.declare, hs, if_neg Bool.false_ne_true, Names.index?, Scope.lookup?_bind]
  simp only [Prod.mk.injEq]
  rfl

variable {d d' : Draft} {r : Registration} {log : List Registration}

theorem latest_append (log : List Registration) (r : Registration) (s : Space) (name : String) :
    latest (log ++ [r]) s name =
      if r.space = s ∧ r.name = some name then some r.index else latest log s name := by
  unfold latest
  rw [List.reverse_append, List.reverse_singleton, List.singleton_append]
  by_cases h : r.space = s ∧ r.name = some name
  · simp [h]
  · simp [h]

/-- Binding a name makes it mean the index, and leaves all other names. -/
theorem index?_bind (hs : r.space.inFunction = false) (s : Space) (name : String) :
    (d.bind r.space r.name r.index).names.index? s name =
      if r.space = s ∧ r.name = some name then some r.index else d.names.index? s name := by
  cases h : r.name with
  | none => simp [bind]
  | some own => simp only [bind, index?_declare d.names hs, Option.some.injEq]

/-! ## What an operation changes -/

/-- What an operation does to the index spaces and the names: nothing, or
it finds what it registers in place, or it puts it at the end of its
space. -/
inductive Change (d : Draft) : Option Registration → Draft → Prop
  | kept {d' : Draft} (space : ∀ s, d'.space s = d.space s) (names : d'.names = d.names) :
      Change d none d'
  | found {d' : Draft} {r : Registration} (space : ∀ s, d'.space s = d.space s)
      (type : r.space = .type) (index : (d.space r.space)[r.index]? = some r.entity)
      (names : d'.names = (d.bind r.space r.name r.index).names) : Change d (some r) d'
  | added {d' : Draft} {r : Registration}
      (space : ∀ s, d'.space s = d.space s ++ if s = r.space then [r.entity] else [])
      (index : r.index = (d.space r.space).length) (outside : r.space.inFunction = false)
      (names : d'.names = (d.bind r.space r.name r.index).names) : Change d (some r) d'

/-- The bookkeeping of a draft: entries of imported functions come first,
one for each function import in order, entries are numbered by position,
and imported memories and globals are counted. -/
structure Numbered (d : Draft) : Prop where
  functions : d.functions.map (fun f => (ImportDesc.function f.type, f.imported)) =
    (d.importsOf .function).map (fun i => (i.desc, true)) ++
      d.defined.map fun f => (.function f.type, false)
  indices : d.functions.map (·.index) = List.range d.functions.length
  memories : d.importedMemories = (d.importsOf .memory).length
  globals : d.importedGlobals = (d.importsOf .global).length

theorem importsOf_eq_nil {s : Space} (h : s ∉ [.function, .memory, .global]) :
    d.importsOf s = [] := by
  rw [importsOf, List.filter_eq_nil_iff]
  intro i _ hi
  apply h
  rw [← of_decide_eq_true hi]
  cases i.desc <;> simp [ImportDesc.space]

/-- **A space counts its entries.** -/
theorem Numbered.count_eq (h : d.Numbered) (s : Space) : d.count s = (d.space s).length := by
  rw [space, List.length_append, List.length_map]
  cases s with
  | type => simp [count, definitions, importsOf_eq_nil, TypeTable.count]
  | function => simpa [count, definitions] using congrArg List.length h.functions
  | table => simp [count, definitions, importsOf_eq_nil]
  | memory => simp [count, definitions, h.memories]
  | global => simp [count, definitions, h.globals]
  | «local» => simp [count, definitions, importsOf_eq_nil]
  | label => simp [count, definitions, importsOf_eq_nil]

theorem space_bind (d : Draft) (s : Space) (name : Option String) (index : Nat) :
    (d.bind s name index).space = d.space := by
  cases name <;> rfl

theorem names_bind_congr (h : d'.names = d.names) (s : Space) (name : Option String) (index : Nat) :
    (d'.bind s name index).names = (d.bind s name index).names := by
  cases name with
  | none => exact h
  | some name => simp [bind, h]

theorem Numbered.bind (h : d.Numbered) (s : Space) (name : Option String) (index : Nat) :
    (d.bind s name index).Numbered := by
  cases name with
  | none => exact h
  | some name => exact ⟨h.functions, h.indices, h.memories, h.globals⟩

theorem importsOf_append {i : Import} (imports : d'.imports = d.imports ++ [i]) (s : Space) :
    d'.importsOf s = d.importsOf s ++ if s = i.desc.space then [i] else [] := by
  rw [importsOf, importsOf, imports, List.filter_append]
  by_cases hs : s = i.desc.space
  · simp [hs]
  · have hs' : ¬ i.desc.space = s := fun h => hs h.symm
    simp [hs, hs']

/-- Another definition goes to the end of its space. -/
theorem Change.definition (imports : d'.imports = d.imports) (names : d'.names = d.names)
    (definitions : ∀ s, d'.definitions s = d.definitions s ++ if s = r.space then [r.entity] else [])
    (index : r.index = (d.space r.space).length) (outside : r.space.inFunction = false) :
    Change d (some r) (d'.bind r.space r.name r.index) := by
  refine .added (fun s => ?_) index outside (names_bind_congr names _ _ _)
  rw [space_bind, space, importsOf, imports, definitions, ← List.append_assoc]
  rfl

/-- Another import goes to the end of its space, as long as nothing is
defined there. -/
theorem Change.importing {i : Import} {name : Option String} {index : Nat}
    (imports : d'.imports = d.imports ++ [i]) (names : d'.names = d.names)
    (definitions : ∀ s, d'.definitions s = d.definitions s)
    (undefined : d.definitions i.desc.space = [])
    (index_eq : index = (d.space i.desc.space).length) :
    Change d (some ⟨i.desc.space, name, .imported i, index⟩)
      (d'.bind i.desc.space name index) := by
  refine .added (fun s => ?_) index_eq (by cases i.desc <;> rfl) (names_bind_congr names _ _ _)
  rw [space_bind, space, space, definitions, importsOf_append imports]
  -- the import goes before the definitions of its space, of which there are none
  by_cases hs : s = i.desc.space
  · subst hs
    simp [undefined]
  · simp [hs]

/-! ## Each operation -/

/-- Registering a signature finds it or adds it. -/
theorem change_internType (d : Draft) (type : FuncType) (name : Option String) :
    Change d (some ⟨.type, name, .type type, (d.internType type).1⟩)
      ((d.internType type).2.bind .type name (d.internType type).1) := by
  obtain ⟨i, hi, h⟩ | ⟨-, h⟩ := d.types.intern_cases type
  · have hd : d.internType type = (i, d) := by rw [internType, h]
    rw [hd]
    refine .found (fun s => congrFun (space_bind d _ _ _) s) rfl ?_ rfl
    obtain ⟨hlt, hat, -⟩ := List.idxOf?_eq_some_iff.1 hi
    simp [space, definitions, importsOf_eq_nil, hlt, hat]
  · have hd : d.internType type =
        (d.types.count, { d with types := .ofEntries (d.types.entries ++ [type]) }) := by
      rw [internType, h]
    rw [hd]
    refine .definition rfl rfl (fun s => ?_) ?_ rfl
    · cases s <;> simp [definitions, defined]
    · simp [space, definitions, importsOf_eq_nil, TypeTable.count]

/-- Where every function is imported none is defined. -/
theorem defined_eq_nil (h : d.functions.any (!·.imported) = false) : d.defined = [] :=
  List.filter_eq_nil_iff.2 fun f hf => by simpa using List.any_eq_false.1 h f hf

theorem defined_map_congr {β : Type}
    (functions : d'.functions.map (fun f => (f.index, f.type, f.imported)) =
      d.functions.map fun f => (f.index, f.type, f.imported)) (g : Nat × Nat × Bool → β) :
    d'.defined.map (fun f => g (f.index, f.type, f.imported)) =
      d.defined.map fun f => g (f.index, f.type, f.imported) := by
  have := congrArg (fun entries => (entries.filter (!·.2.2)).map g) functions
  simpa [defined, List.filter_map, Function.comp_def] using this

namespace Numbered

/-- Only the index, the type and the origin of a function matter. -/
theorem congr (h : d.Numbered) (imports : d'.imports = d.imports)
    (functions : d'.functions.map (fun f => (f.index, f.type, f.imported)) =
      d.functions.map fun f => (f.index, f.type, f.imported))
    (memories : d'.importedMemories = d.importedMemories)
    (globals : d'.importedGlobals = d.importedGlobals) : d'.Numbered := by
  have hall : ∀ {β : Type} (g : Nat × Nat × Bool → β),
      d'.functions.map (fun f => g (f.index, f.type, f.imported)) =
        d.functions.map fun f => g (f.index, f.type, f.imported) := by
    intro β g
    simpa [Function.comp_def] using congrArg (List.map g) functions
  have hlen : d'.functions.length = d.functions.length := by
    simpa using congrArg List.length functions
  have hdefined := defined_map_congr functions fun f => (ImportDesc.function f.2.1, false)
  refine ⟨?_, ?_, ?_, ?_⟩
  · rw [importsOf, imports]
    exact (hall fun f => (ImportDesc.function f.2.1, f.2.2)).trans
      (h.functions.trans (congrArg _ hdefined.symm))
  · rw [hlen]
    exact (hall fun f => f.1).trans h.indices
  · rw [importsOf, imports, memories]
    exact h.memories
  · rw [importsOf, imports, globals]
    exact h.globals

/-- Importing a function while none is defined. -/
theorem import_function (h : d.Numbered) (hnone : d.defined = []) {f : Function} {i : Import}
    (hi : i.desc = .function f.type) (imported : f.imported = true)
    (index : f.index = d.functions.length) (imports : d'.imports = d.imports ++ [i])
    (functions : d'.functions = d.functions ++ [f])
    (memories : d'.importedMemories = d.importedMemories)
    (globals : d'.importedGlobals = d.importedGlobals) : d'.Numbered := by
  have hnone' : d'.defined = [] := by
    rw [defined] at hnone
    simp [defined, functions, imported, hnone]
  have hbefore := h.functions
  rw [hnone, List.map_nil, List.append_nil] at hbefore
  refine ⟨?_, ?_, ?_, ?_⟩
  · rw [importsOf_append imports, functions, hnone', List.map_append, hbefore]
    simp [hi, ImportDesc.space, imported]
  · rw [functions, List.map_append, h.indices, List.length_append, List.length_singleton,
      List.range_succ, List.map_singleton, index]
  · simp [importsOf_append imports, hi, ImportDesc.space, memories, h.memories]
  · simp [importsOf_append imports, hi, ImportDesc.space, globals, h.globals]

/-- Importing anything else is counted. -/
theorem import_other (h : d.Numbered) {i : Import} (hi : i.desc.space ≠ .function)
    (imports : d'.imports = d.imports ++ [i]) (functions : d'.functions = d.functions)
    (memories : d'.importedMemories =
      d.importedMemories + if .memory = i.desc.space then 1 else 0)
    (globals : d'.importedGlobals =
      d.importedGlobals + if .global = i.desc.space then 1 else 0) : d'.Numbered := by
  refine ⟨?_, ?_, ?_, ?_⟩
  · rw [importsOf_append imports, if_neg hi.symm, List.append_nil, defined, functions]
    exact h.functions
  · rw [functions]
    exact h.indices
  · rw [importsOf_append imports, memories, h.memories]
    split <;> simp
  · rw [importsOf_append imports, globals, h.globals]
    split <;> simp

/-- Defining a function. -/
theorem define_function (h : d.Numbered) {f : Function} (imported : f.imported = false)
    (index : f.index = d.functions.length) (imports : d'.imports = d.imports)
    (functions : d'.functions = d.functions ++ [f])
    (memories : d'.importedMemories = d.importedMemories)
    (globals : d'.importedGlobals = d.importedGlobals) : d'.Numbered := by
  refine ⟨?_, ?_, ?_, ?_⟩
  · rw [functions, List.map_append, h.functions, defined, defined, functions]
    simp [imported, importsOf, imports]
  · rw [functions, List.map_append, h.indices, List.length_append, List.length_singleton,
      List.range_succ, List.map_singleton, index]
  · rw [importsOf, imports, memories]
    exact h.memories
  · rw [importsOf, imports, globals]
    exact h.globals

end Numbered

theorem change_importFunction (h : d.Numbered) {name : Option String} {module field : String}
    {type : Nat} {span : Span} {index : Nat}
    (hrun : d.importFunction name module field type span = .ok (index, d')) :
    Change d (some ⟨.function, name, .imported ⟨module, field, .function type⟩, index⟩) d' ∧
      d'.Numbered := by
  unfold importFunction at hrun
  split at hrun
  · cases hrun
  · next hall =>
      have hnone : d.defined = [] := defined_eq_nil (by simpa using hall)
      obtain ⟨rfl, rfl⟩ := Prod.mk.inj (Except.ok.inj hrun)
      constructor
      · refine Change.importing (i := ⟨module, field, .function type⟩) rfl rfl (fun s => ?_) ?_ ?_
        · cases s <;> simp [definitions, addImport, defined]
        · simp [ImportDesc.space, definitions, hnone]
        · exact h.count_eq .function
      · refine Numbered.bind ?_ _ _ _
        exact h.import_function hnone (f := ⟨_, type, true, ⟨[], []⟩⟩)
          (i := ⟨module, field, .function type⟩) rfl rfl rfl rfl rfl rfl rfl

theorem change_importMemory (h : d.Numbered) {name : Option String} {module field : String}
    {limits : Limits} {span : Span} {index : Nat}
    (hrun : d.importMemory name module field limits span = .ok (index, d')) :
    Change d (some ⟨.memory, name, .imported ⟨module, field, .memory limits⟩, index⟩) d' ∧
      d'.Numbered := by
  unfold importMemory at hrun
  split at hrun
  · cases hrun
  · next hempty =>
      have hnone : d.memories = [] := by simpa using hempty
      obtain ⟨rfl, rfl⟩ := Prod.mk.inj (Except.ok.inj hrun)
      constructor
      · refine Change.importing (i := ⟨module, field, .memory limits⟩) rfl rfl (fun s => ?_) ?_ ?_
        · cases s <;> simp [definitions, addImport, defined]
        · simp [ImportDesc.space, definitions, hnone]
        · have hcount := h.count_eq .memory
          rwa [count, hnone] at hcount
      · refine Numbered.bind ?_ _ _ _
        exact h.import_other (i := ⟨module, field, .memory limits⟩) (by simp [ImportDesc.space])
          rfl rfl rfl rfl

theorem change_importGlobal (h : d.Numbered) {name : Option String} {module field : String}
    {type : GlobalType} {span : Span} {index : Nat}
    (hrun : d.importGlobal name module field type span = .ok (index, d')) :
    Change d (some ⟨.global, name, .imported ⟨module, field, .global type⟩, index⟩) d' ∧
      d'.Numbered := by
  unfold importGlobal at hrun
  split at hrun
  · cases hrun
  · next hempty =>
      have hnone : d.globals = [] := by simpa using hempty
      obtain ⟨rfl, rfl⟩ := Prod.mk.inj (Except.ok.inj hrun)
      constructor
      · refine Change.importing (i := ⟨module, field, .global type⟩) rfl rfl (fun s => ?_) ?_ ?_
        · cases s <;> simp [definitions, addImport, defined]
        · simp [ImportDesc.space, definitions, hnone]
        · have hcount := h.count_eq .global
          rwa [count, hnone] at hcount
      · refine Numbered.bind ?_ _ _ _
        exact h.import_other (i := ⟨module, field, .global type⟩) (by simp [ImportDesc.space])
          rfl rfl rfl rfl

/-- Setting code changes no entry. -/
theorem setCode_entries (d : Draft) (index : Nat) (code : Code) :
    (d.setCode index code).functions.map (fun f => (f.index, f.type, f.imported)) =
      d.functions.map fun f => (f.index, f.type, f.imported) := by
  apply List.ext_getElem?
  intro k
  simp only [setCode, List.getElem?_map, List.getElem?_modify]
  cases d.functions[k]? with
  | none => rfl
  | some f => by_cases h : index = k <;> simp [h]

/-- **Every operation finds, adds or keeps**, and leaves the bookkeeping in
order. -/
theorem Numbered.perform (h : d.Numbered) {op : Operation} {registered : Option Registration}
    (hrun : d.perform op = .ok (registered, d')) : Change d registered d' ∧ d'.Numbered := by
  cases op with
  | internType type =>
      obtain ⟨rfl, rfl⟩ := Prod.mk.inj (Except.ok.inj hrun)
      exact ⟨change_internType d type none, h.congr rfl rfl rfl rfl⟩
  | addType name type =>
      obtain ⟨rfl, rfl⟩ := Prod.mk.inj (Except.ok.inj hrun)
      refine ⟨change_internType d type name, Numbered.bind ?_ _ _ _⟩
      exact h.congr rfl rfl rfl rfl
  | importFunction name module field type span =>
      obtain ⟨⟨index, d₁⟩, himport, hrun⟩ := bind_eq_ok.1 hrun
      obtain ⟨rfl, rfl⟩ := Prod.mk.inj (pure_eq_ok.1 hrun)
      exact change_importFunction h himport
  | importMemory name module field limits span =>
      obtain ⟨⟨index, d₁⟩, himport, hrun⟩ := bind_eq_ok.1 hrun
      obtain ⟨rfl, rfl⟩ := Prod.mk.inj (pure_eq_ok.1 hrun)
      exact change_importMemory h himport
  | importGlobal name module field type span =>
      obtain ⟨⟨index, d₁⟩, himport, hrun⟩ := bind_eq_ok.1 hrun
      obtain ⟨rfl, rfl⟩ := Prod.mk.inj (pure_eq_ok.1 hrun)
      exact change_importGlobal h himport
  | addFunction name type =>
      obtain ⟨rfl, rfl⟩ := Prod.mk.inj (Except.ok.inj hrun)
      refine ⟨.definition rfl rfl (fun s => ?_) (h.count_eq .function) rfl, Numbered.bind ?_ _ _ _⟩
      · cases s <;> simp [definitions, defined]
      · exact h.define_function (f := ⟨_, type, false, ⟨[], []⟩⟩) rfl rfl rfl rfl rfl rfl
  | setCode index code =>
      obtain ⟨rfl, rfl⟩ := Prod.mk.inj (Except.ok.inj hrun)
      have hentries := d.setCode_entries index code
      refine ⟨.kept (fun s => ?_) rfl, h.congr rfl hentries rfl rfl⟩
      have hdefined : ((d.setCode index code).defined.map fun f => Entity.function f.type) =
          d.defined.map fun f => .function f.type :=
        defined_map_congr hentries fun f => Entity.function f.2.1
      rw [space, space]
      refine congrArg (_ ++ ·) ?_
      cases s with
      | function => exact hdefined
      | _ => rfl
  | addTable name limits =>
      obtain ⟨rfl, rfl⟩ := Prod.mk.inj (Except.ok.inj hrun)
      refine ⟨.definition rfl rfl (fun s => ?_) (h.count_eq .table) rfl, Numbered.bind ?_ _ _ _⟩
      · cases s <;> simp [definitions, defined]
      · exact h.congr rfl rfl rfl rfl
  | addMemory name limits span =>
      obtain ⟨⟨index, d₁⟩, hadd, hrun⟩ := bind_eq_ok.1 hrun
      obtain ⟨rfl, rfl⟩ := Prod.mk.inj (pure_eq_ok.1 hrun)
      unfold addMemory at hadd
      split at hadd
      · cases hadd
      · obtain ⟨rfl, rfl⟩ := Prod.mk.inj (Except.ok.inj hadd)
        refine ⟨.definition rfl rfl (fun s => ?_) (h.count_eq .memory) rfl, Numbered.bind ?_ _ _ _⟩
        · cases s <;> simp [definitions, defined]
        · exact h.congr rfl rfl rfl rfl
  | addGlobal name global =>
      obtain ⟨rfl, rfl⟩ := Prod.mk.inj (Except.ok.inj hrun)
      refine ⟨.definition rfl rfl (fun s => ?_) (h.count_eq .global) rfl, Numbered.bind ?_ _ _ _⟩
      · cases s <;> simp [definitions, defined]
      · exact h.congr rfl rfl rfl rfl
  | addExport e =>
      obtain ⟨rfl, rfl⟩ := Prod.mk.inj (Except.ok.inj hrun)
      exact ⟨.kept (fun s => rfl) rfl, h.congr rfl rfl rfl rfl⟩
  | setStart target =>
      obtain ⟨rfl, rfl⟩ := Prod.mk.inj (Except.ok.inj hrun)
      exact ⟨.kept (fun s => rfl) rfl, h.congr rfl rfl rfl rfl⟩
  | addElement e =>
      obtain ⟨rfl, rfl⟩ := Prod.mk.inj (Except.ok.inj hrun)
      exact ⟨.kept (fun s => rfl) rfl, h.congr rfl rfl rfl rfl⟩
  | addData s =>
      obtain ⟨rfl, rfl⟩ := Prod.mk.inj (Except.ok.inj hrun)
      exact ⟨.kept (fun s => rfl) rfl, h.congr rfl rfl rfl rfl⟩

/-! ## Runs -/

/-- A draft that agrees with its log. -/
structure Consistent (s : Logged) : Prop where
  numbered : s.1.Numbered
  placed : ∀ r ∈ s.2, (s.1.space r.space)[r.index]? = some r.entity
  inOrder : ∀ space ≠ .type, ((s.2.filter (·.space = space)).map fun r => (r.entity, r.index)) =
    (s.1.space space).zipIdx
  names : ∀ space name, s.1.names.index? space name = latest s.2 space name

theorem Consistent.empty : Consistent (empty, []) where
  numbered := ⟨rfl, rfl, rfl, rfl⟩
  placed := nofun
  inOrder := fun space _ => by cases space <;> rfl
  names := fun _ _ => rfl

/-- **A step keeps a draft and its log in agreement.** -/
theorem Consistent.step {s : Logged} (h : Consistent s) (op : Operation) :
    Consistent (s.step op) := by
  obtain ⟨d, log⟩ := s
  unfold Logged.step
  cases hrun : d.perform op with
  | error e => exact h
  | ok result =>
      obtain ⟨registered, d'⟩ := result
      obtain ⟨hchange, hnumbered⟩ := h.numbered.perform hrun
      cases hchange with
      | kept space names =>
          simp only [Option.toList_none, List.append_nil]
          refine ⟨hnumbered, fun r hr => ?_, fun s hs => ?_, fun s name => ?_⟩
          · rw [space]
            exact h.placed r hr
          · rw [space]
            exact h.inOrder s hs
          · rw [names]
            exact h.names s name
      | @found _ r space type index names =>
          have outside : r.space.inFunction = false := by rw [type]; rfl
          simp only [Option.toList_some]
          refine ⟨hnumbered, fun r' hr' => ?_, fun s hs => ?_, fun s name => ?_⟩
          · rw [space]
            rcases List.mem_append.1 hr' with hr' | hr'
            · exact h.placed r' hr'
            · rwa [List.mem_singleton.1 hr']
          · -- only a type can be found again, and types are left out here
            have hs' : ¬ r.space = s := fun hr => hs (hr.symm.trans type)
            rw [space, ← h.inOrder s hs]
            simp [hs']
          · rw [names, index?_bind outside, latest_append, h.names]
      | @added _ r space index outside names =>
          simp only [Option.toList_some]
          refine ⟨hnumbered, fun r' hr' => ?_, fun s hs => ?_, fun s name => ?_⟩
          · -- what was placed is in front of what is added
            rw [space]
            rcases List.mem_append.1 hr' with hr' | hr'
            · have hold := h.placed r' hr'
              rwa [List.getElem?_append_left (List.getElem?_eq_some_iff.1 hold).1]
            · rw [List.mem_singleton.1 hr', index]
              simp
          · rw [space, List.filter_append, List.map_append, h.inOrder s hs]
            by_cases hr : s = r.space
            · subst hr
              simp [List.zipIdx_append, index]
            · have hr' : ¬ r.space = s := fun h => hr h.symm
              simp [hr, hr']
          · rw [names, index?_bind outside, latest_append, h.names]

theorem Consistent.run (ops : List Operation) : Consistent (Logged.run ops) := by
  unfold Logged.run
  suffices ∀ s, Consistent s → Consistent (ops.foldl Logged.step s) from this _ .empty
  induction ops with
  | nil => exact fun s h => h
  | cons op ops ih => exact fun s h => ih _ (h.step op)

/-- An entry is numbered by its position. -/
theorem Numbered.index_eq (h : d.Numbered) {k : Nat} {f : Function}
    (hf : d.functions[k]? = some f) : f.index = k := by
  have hlt : k < d.functions.length := (List.getElem?_eq_some_iff.1 hf).1
  have hk : (d.functions.map (·.index))[k]? = some k := by
    rw [h.indices]
    simp [hlt]
  rw [List.getElem?_map, hf] at hk
  exact Option.some.inj hk

/-- What a name means is in range. -/
theorem Consistent.index?_lt {s : Logged} (h : Consistent s) {space : Space} {name : String}
    {index : Nat} (hi : s.1.names.index? space name = some index) : index < s.1.count space := by
  rw [h.names, latest] at hi
  obtain ⟨r, hr, rfl⟩ := Option.map_eq_some_iff.1 hi
  obtain ⟨rfl, -⟩ : r.space = space ∧ r.name = some name := by simpa using List.find?_some hr
  have hmem : r ∈ s.2 := List.mem_reverse.1 (List.mem_of_find?_eq_some hr)
  rw [h.numbered.count_eq]
  exact (List.getElem?_eq_some_iff.1 (h.placed r hmem)).1

/-- **Registration keeps its promises.** After any sequence of operations
the entries of functions are those of the function imports, in order, and
then those of the definitions, and each is numbered by its position. The
counters of imported memories and globals are right. Every registration
was answered with the position of its entity in its index space, and in
every space but that of types, where a signature may be found again, the
registrations in order are the space. A name is resolved to the index that
its latest registration was answered, which is in range, and to nothing
when there was none. -/
theorem registration_positions (ops : List Operation) (d : Draft) (log : List Registration)
    (h : Logged.run ops = (d, log)) :
    d.functions.map (fun f => (ImportDesc.function f.type, f.imported)) =
        (d.importsOf .function).map (fun i => (i.desc, true)) ++
          d.defined.map (fun f => (.function f.type, false)) ∧
      (∀ (k : Nat) (f : Function), d.functions[k]? = some f → f.index = k) ∧
      d.importedMemories = (d.importsOf .memory).length ∧
      d.importedGlobals = (d.importsOf .global).length ∧
      (∀ s, d.count s = (d.space s).length) ∧
      (∀ r ∈ log, (d.space r.space)[r.index]? = some r.entity) ∧
      (∀ s ≠ .type, ((log.filter (·.space = s)).map fun r => (r.entity, r.index)) =
        (d.space s).zipIdx) ∧
      ∀ s name span,
        d.resolve s (.name name span) =
          (match latest log s name with
          | some index => .ok index
          | none => .error (.unresolved s name span)) ∧
        ∀ index, latest log s name = some index → index < d.count s := by
  have hc : Consistent (d, log) := h ▸ Consistent.run ops
  refine ⟨hc.numbered.functions, fun k f => hc.numbered.index_eq, hc.numbered.memories,
    hc.numbered.globals, hc.numbered.count_eq, hc.placed, hc.inOrder, fun s name span => ⟨?_, ?_⟩⟩
  · rw [resolve, indexOfName, hc.names]
    cases latest log s name with
    | none => rfl
    | some index => rfl
  · intro index hindex
    exact hc.index?_lt ((hc.names s name).trans hindex)

/-- Two memories of one name after an imported one, and an import that
comes too late. -/
def memoryOperations : List Operation :=
  [.importMemory none "m" "f" ⟨1, none, false⟩ .zero, .addMemory (some "a") ⟨2, none, false⟩ .zero,
    .importMemory (some "a") "m" "g" ⟨3, none, false⟩ .zero,
    .addMemory (some "a") ⟨4, none, false⟩ .zero]

theorem registration_positions_memory :
    (Logged.run memoryOperations).1.space .memory =
        [.imported ⟨"m", "f", .memory ⟨1, none, false⟩⟩, .memory ⟨2, none, false⟩,
          .memory ⟨4, none, false⟩] ∧
      (Logged.run memoryOperations).1.resolve .memory (.name "a" .zero) = .ok 2 := by
  obtain ⟨-, -, -, -, -, -, -, hresolve⟩ := registration_positions memoryOperations _ _ rfl
  exact ⟨rfl, (hresolve .memory "a" .zero).1⟩

end Draft

end WasmText
