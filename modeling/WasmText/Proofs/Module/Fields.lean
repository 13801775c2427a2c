import WasmText.Proofs.Module.Slots
/-!
# What fields bring

Each field of a module brings something to the draft: an imported or a
defined function, the first value of a global, the offset of a segment, or
nothing that has a type or a body. What the fields brought stands in their
order (`Inventory`), with every type index standing for the signature that
its form gives, in the type section that the module ends up with
(`Written`). This is so field by field (`Progress.brings_of_declare`). A
function brings its body as it is written, to be compiled when all fields
are in.
-/

namespace WasmText

/-! ## Fields of a source -/

namespace Node

/-- The form that gives the signature of an imported function: what its
field describes, or the function field that has an import inside. -/
def importedFunction? (field : Node) : Option Node :=
  if field.instr = "import" then field.childNodes.head?.filter (·.instr = "func")
  else if field.instr = "func" ∧ field.hasChild "import" then some field
  else none

/-- Whether a field defines a function. -/
def definesFunction (field : Node) : Bool := field.instr = "func" && !field.hasChild "import"

/-- The first value of a global: all but its type and its exports. -/
def initial? (field : Node) : Option (List Expr) :=
  if field.instr = "global" then some (field.children.filter (!·.isNode "export")).tail else none

/-- The offset of a segment of the given kind, which an `offset` form may
wrap. -/
def offset? (kind : String) (field : Node) : Option (List Expr) :=
  match field.children with
  | .node head children :: _ =>
    if field.instr = kind then
      some (if head.instr = Keyword.offset.word then children else [.node head children])
    else none
  | _ => none

/-- What the names of types mean after some fields, the latest of them
first. A type field may refer to those before it. -/
def typeNamesAfter (types : List FuncType) : List Node → TypeNames
  | [], _ => none
  | field :: earlier, name =>
    if field.label? = some name then
      (field.child? "func").bind (·.signature? types (typeNamesAfter types earlier))
    else typeNamesAfter types earlier name

/-- The fields of a module that declare types. -/
def typeFields (n : Node) : List Node := n.childNodes.filter (·.instr = "type")

/-- What the names of types mean in a module with the given type
section. -/
def typeNames (n : Node) (types : List FuncType) : TypeNames :=
  typeNamesAfter types n.typeFields.reverse

end Node

/-! ## What is brought -/

/-- The type of an imported function. -/
def ImportDesc.functionType? : ImportDesc → Option Nat
  | function type => some type
  | _ => none

/-- What fields bring that has a type or a body, each kind in order. -/
structure Inventory where
  imported : List Nat
  defined : List Function
  bodies : List DeferredBody
  initials : List (List UInt8)
  elements : List (List UInt8)
  data : List (List UInt8)

namespace Inventory

def empty : Inventory := ⟨[], [], [], [], [], []⟩

def append (a b : Inventory) : Inventory where
  imported := a.imported ++ b.imported
  defined := a.defined ++ b.defined
  bodies := a.bodies ++ b.bodies
  initials := a.initials ++ b.initials
  elements := a.elements ++ b.elements
  data := a.data ++ b.data

theorem append_empty (a : Inventory) : a.append empty = a := by
  simp [append, empty]

theorem append_assoc (a b c : Inventory) : (a.append b).append c = a.append (b.append c) := by
  simp [append]

end Inventory

/-- What has been brought so far. -/
def Progress.inventory (p : Progress) : Inventory where
  imported := p.draft.imports.filterMap (·.desc.functionType?)
  defined := p.draft.defined
  bodies := p.bodies
  initials := p.draft.globals.map (·.init)
  elements := p.draft.elements.map (·.offset)
  data := p.draft.data.map (·.offset)

/-- A step that brings something. Types are only added, and their names
mean what they meant. -/
structure Progress.Takes (p p' : Progress) (brought : Inventory) : Prop where
  types : p.draft.types.entries <+: p'.draft.types.entries
  names : ∀ name, p'.draft.names.index? .type name = p.draft.names.index? .type name
  inventory : p'.inventory = p.inventory.append brought

namespace Progress

variable {p p' p'' : Progress} {a b : Inventory} {d d' : Draft} {bodies : List DeferredBody}

/-- A step that brings nothing. -/
theorem Takes.nothing (htypes : p.draft.types.entries <+: p'.draft.types.entries)
    (hnames : p'.draft.names = p.draft.names) (h : p'.inventory = p.inventory) :
    p.Takes p' .empty :=
  ⟨htypes, fun _ => by rw [hnames], by rw [h, Inventory.append_empty]⟩

theorem Takes.refl (p : Progress) : p.Takes p .empty := .nothing List.prefix_rfl rfl rfl

/-- What two steps bring is brought one after the other. -/
theorem Takes.trans (h : p.Takes p' a) (h' : p'.Takes p'' b) : p.Takes p'' (a.append b) where
  types := h.types.trans h'.types
  names name := (h'.names name).trans (h.names name)
  inventory := by rw [h'.inventory, h.inventory, Inventory.append_assoc]

/-- A step that brings nothing goes unnoticed. -/
theorem Takes.then_nothing (h : p.Takes p' a) (h' : p'.Takes p'' .empty) : p.Takes p'' a := by
  have htrans := h.trans h'
  rwa [Inventory.append_empty] at htrans

/-! ## Operations -/

/-- Types may be registered on the way. -/
theorem takes_types {types : TypeTable} (h : d.types.entries <+: types.entries) :
    Takes ⟨d, bodies⟩ ⟨{ d with types }, bodies⟩ .empty :=
  .nothing h rfl rfl

/-- Names of other kinds are not names of types. -/
theorem takes_bind {s : Space} (hs : s ≠ .type) (name : Option String) (index : Nat) :
    Takes ⟨d, bodies⟩ ⟨d.bind s name index, bodies⟩ .empty := by
  cases name with
  | none => exact .refl _
  | some own =>
      refine ⟨List.prefix_rfl, fun name => ?_, (Inventory.append_empty _).symm⟩
      change (d.names.declare s own index).index? .type name = _
      cases hin : s.inFunction with
      | true => rw [Names.declare, if_pos hin]
      | false => rw [Draft.index?_declare d.names hin, if_neg fun h => hs h.1]

/-- Exports are no part of the inventory. -/
theorem takes_exportAll (kind : ExportKind) (index : Nat) (exports : List (String × Span)) :
    Takes ⟨d, bodies⟩ ⟨d.exportAll kind index exports, bodies⟩ .empty := by
  unfold Draft.exportAll
  induction exports generalizing d with
  | nil => exact .refl _
  | cons e exports ih =>
      have hfirst : Takes ⟨d, bodies⟩ ⟨d.addExport ⟨e.1, kind, .index index e.2⟩, bodies⟩ .empty :=
        .nothing List.prefix_rfl rfl rfl
      exact hfirst.then_nothing ih

/-- An imported function brings its type. -/
theorem takes_importFunction {name : Option String} {module field : String} {type index : Nat}
    {span : Span} (h : d.importFunction name module field type span = .ok (index, d')) :
    Takes ⟨d, bodies⟩ ⟨d', bodies⟩ { Inventory.empty with imported := [type] } := by
  unfold Draft.importFunction at h
  split at h
  next => cases h
  next =>
    obtain ⟨rfl, rfl⟩ := Prod.mk.inj (Except.ok.inj h)
    refine Takes.then_nothing ?_ (takes_bind (by decide) _ _)
    refine ⟨List.prefix_rfl, fun _ => rfl, ?_⟩
    simp [inventory, Inventory.append, Inventory.empty, Draft.addImport, Draft.defined,
      ImportDesc.functionType?]

/-- An imported memory brings nothing that counts here. -/
theorem takes_importMemory {name : Option String} {module field : String} {limits : Limits}
    {index : Nat} {span : Span}
    (h : d.importMemory name module field limits span = .ok (index, d')) :
    Takes ⟨d, bodies⟩ ⟨d', bodies⟩ .empty := by
  unfold Draft.importMemory at h
  split at h
  next => cases h
  next =>
    obtain ⟨rfl, rfl⟩ := Prod.mk.inj (Except.ok.inj h)
    refine Takes.then_nothing ?_ (takes_bind (by decide) _ _)
    refine ⟨List.prefix_rfl, fun _ => rfl, ?_⟩
    simp [inventory, Inventory.append, Inventory.empty, Draft.addImport, Draft.defined,
      ImportDesc.functionType?]

/-- Neither does an imported global. -/
theorem takes_importGlobal {name : Option String} {module field : String} {type : GlobalType}
    {index : Nat} {span : Span} (h : d.importGlobal name module field type span = .ok (index, d')) :
    Takes ⟨d, bodies⟩ ⟨d', bodies⟩ .empty := by
  unfold Draft.importGlobal at h
  split at h
  next => cases h
  next =>
    obtain ⟨rfl, rfl⟩ := Prod.mk.inj (Except.ok.inj h)
    refine Takes.then_nothing ?_ (takes_bind (by decide) _ _)
    refine ⟨List.prefix_rfl, fun _ => rfl, ?_⟩
    simp [inventory, Inventory.append, Inventory.empty, Draft.addImport, Draft.defined,
      ImportDesc.functionType?]

/-- A defined function brings its type, with no code yet, and its body. -/
theorem takes_addFunction (name : Option String) (type : Nat) (body : DeferredBody) :
    Takes ⟨d, bodies⟩ ⟨(d.addFunction name type).2, bodies ++ [body]⟩
      { Inventory.empty with
        defined := [⟨d.functions.length, type, false, ⟨[], []⟩⟩]
        bodies := [body] } := by
  refine Takes.then_nothing ?_ (takes_bind (by decide) _ _)
  refine ⟨List.prefix_rfl, fun _ => rfl, ?_⟩
  simp [inventory, Inventory.append, Inventory.empty, Draft.defined]

theorem takes_addMemory {name : Option String} {limits : Limits} {index : Nat} {span : Span}
    (h : d.addMemory name limits span = .ok (index, d')) :
    Takes ⟨d, bodies⟩ ⟨d', bodies⟩ .empty := by
  unfold Draft.addMemory at h
  split at h
  next => cases h
  next =>
    obtain ⟨rfl, rfl⟩ := Prod.mk.inj (Except.ok.inj h)
    refine Takes.then_nothing ?_ (takes_bind (by decide) _ _)
    exact .nothing List.prefix_rfl rfl rfl

theorem takes_addTable (name : Option String) (limits : Limits) :
    Takes ⟨d, bodies⟩ ⟨(d.addTable name limits).2, bodies⟩ .empty := by
  refine Takes.then_nothing ?_ (takes_bind (by decide) _ _)
  exact .nothing List.prefix_rfl rfl rfl

/-- A global brings the code of its first value. -/
theorem takes_addGlobal (name : Option String) (global : Global) :
    Takes ⟨d, bodies⟩ ⟨(d.addGlobal name global).2, bodies⟩
      { Inventory.empty with initials := [global.init] } := by
  refine Takes.then_nothing ?_ (takes_bind (by decide) _ _)
  refine ⟨List.prefix_rfl, fun _ => rfl, ?_⟩
  simp [inventory, Inventory.append, Inventory.empty, Draft.defined]

/-- An element segment brings the code of its offset. -/
theorem takes_addElement (e : Element) :
    Takes ⟨d, bodies⟩ ⟨d.addElement e, bodies⟩ { Inventory.empty with elements := [e.offset] } := by
  refine ⟨List.prefix_rfl, fun _ => rfl, ?_⟩
  simp [inventory, Inventory.append, Inventory.empty, Draft.addElement, Draft.defined]

/-- So does a data segment. -/
theorem takes_addData (s : Segment UInt8) :
    Takes ⟨d, bodies⟩ ⟨d.addData s, bodies⟩ { Inventory.empty with data := [s.offset] } := by
  refine ⟨List.prefix_rfl, fun _ => rfl, ?_⟩
  simp [inventory, Inventory.append, Inventory.empty, Draft.addData, Draft.defined]

end Progress

/-! ## What fields say -/

/-- A type index that stands for the signature of a form. -/
def Node.Signed (types : List FuncType) (named : TypeNames) (form : Node) (index : Nat) : Prop :=
  ∃ t, form.HasType types named t ∧ types[index]? = some t

/-- A body put aside as the form of its function says it. -/
structure Node.Defers (types : List FuncType) (named : TypeNames) (form : Node) (b : DeferredBody) :
    Prop where
  params : ∃ t, form.HasType types named t ∧ b.params.length = t.params.length ∧
    b.params.map (·.name) = form.parameterNames t
  localNames : b.locals.map (·.name) = form.slotNames "local"
  localTypes : form.typesOf? "local" = some (b.locals.map (·.type))
  body : b.body = form.instructions

/-- The bytes of trees. Read as instructions, they have type indices for
the signatures of the forms. -/
def Expr.Codes (types : List FuncType) (named : TypeNames) (es : List Expr) (bytes : List UInt8) :
    Prop :=
  ∃ instrs, (Reader.instr .any).many bytes = some instrs ∧
    List.Forall₂ (Mark.Typed types named) (Expr.linearAll [] es) instrs

/-- **What is compiled codes what it is compiled from**, in any type
section that holds what was registered. -/
theorem Expr.codes_of_compileAll [HexReader] {types : List FuncType} {named : TypeNames} {env : Env}
    {es : List Expr} {t t' : TypeTable} {instrs : List Instr} (hlabels : env.labels = [])
    (hnames : env.names.Mean types named) (hfinal : t'.entries <+: types)
    (h : compileAll env es t = .ok instrs t') :
    Expr.Codes types named es (Instr.encodeAll instrs) :=
  ⟨instrs, many_of_compileAll h, hlabels ▸ compileAll_typed hnames hfinal h⟩

/-- What is brought is what the fields say, kind by kind and in order. -/
structure Written (types : List FuncType) (named : TypeNames) (fields : List Node)
    (brought : Inventory) : Prop where
  imported : List.Forall₂ (Node.Signed types named) (fields.filterMap Node.importedFunction?)
    brought.imported
  defined : List.Forall₂ (fun form f => form.Signed types named f.type)
    (fields.filter Node.definesFunction) brought.defined
  bodies : List.Forall₂ (Node.Defers types named) (fields.filter Node.definesFunction)
    brought.bodies
  indices : brought.defined.map (·.index) = brought.bodies.map (·.index)
  initials : List.Forall₂ (Expr.Codes types named) (fields.filterMap Node.initial?) brought.initials
  elements : List.Forall₂ (Expr.Codes types named) (fields.filterMap (Node.offset? "elem"))
    brought.elements
  data : List.Forall₂ (Expr.Codes types named) (fields.filterMap (Node.offset? "data")) brought.data

section Fields

variable {types : List FuncType} {named : TypeNames} {fields fields' : List Node} {a b : Inventory}

/-- What fields bring one after another is written if each part is. -/
theorem Written.append (h : Written types named fields a) (h' : Written types named fields' b) :
    Written types named (fields ++ fields') (a.append b) where
  imported := by
    rw [List.filterMap_append]
    exact List.rel_append h.imported h'.imported
  defined := by
    rw [List.filter_append]
    exact List.rel_append h.defined h'.defined
  bodies := by
    rw [List.filter_append]
    exact List.rel_append h.bodies h'.bodies
  indices := by
    simp only [Inventory.append, List.map_append, h.indices, h'.indices]
  initials := by
    rw [List.filterMap_append]
    exact List.rel_append h.initials h'.initials
  elements := by
    rw [List.filterMap_append]
    exact List.rel_append h.elements h'.elements
  data := by
    rw [List.filterMap_append]
    exact List.rel_append h.data h'.data

theorem Written.nil : Written types named [] .empty :=
  ⟨.nil, .nil, .nil, rfl, .nil, .nil, .nil⟩

/-- What a step brings for a field, in every later table. -/
def Progress.Brings (p p' : Progress) (field : Node) : Prop :=
  ∃ brought, p.Takes p' brought ∧ ∀ types named, p'.draft.types.entries <+: types →
    p.draft.names.Mean types named → Written types named [field] brought

/-- A field of another kind has no offset. -/
theorem offset?_eq_none {field : Node} {kind : String} (h : field.instr ≠ kind) :
    field.offset? kind = none := by
  unfold Node.offset?
  split
  next => rw [if_neg h]
  next => rfl

/-- A field of a kind that brings nothing. -/
theorem written_nothing {field : Node} (hkind : field.instr ∉ ["func", "global", "elem", "data"])
    (himport : field.importedFunction? = none) : Written types named [field] .empty := by
  simp only [List.mem_cons, List.not_mem_nil, or_false, not_or] at hkind
  obtain ⟨hfunc, hglobal, helem, hdata⟩ := hkind
  constructor
  all_goals simp [Node.definesFunction, hfunc, himport, Node.initial?, hglobal, Inventory.empty,
    offset?_eq_none helem, offset?_eq_none hdata]

end Fields

/-! ## Each field -/

namespace Progress

variable {p p' : Progress} {d d' : Draft} {bodies : List DeferredBody} {n : Node}

/-- A field that takes nothing and is of no kind that brings something. -/
theorem Takes.brings_nothing (h : p.Takes p' .empty)
    (hkind : n.instr ∉ ["import", "func", "global", "elem", "data"]) : p.Brings p' n := by
  simp only [List.mem_cons, not_or] at hkind
  refine ⟨.empty, h, fun types named _ _ => written_nothing ?_ ?_⟩
  · simpa using hkind.2
  · simp [Node.importedFunction?, hkind.1, hkind.2.1]

/-- An import brings what it describes. -/
theorem brings_import (hinstr : n.instr = "import") (h : d.declareImport n = .ok d') :
    Brings ⟨d, bodies⟩ ⟨d', bodies⟩ n := by
  obtain ⟨⟨module, field⟩, -, h⟩ := bind_eq_ok.1 h
  cases hdesc : n.childNodes.head? with
  | none =>
      rw [hdesc] at h
      exact absurd h throw_ne_ok
  | some desc =>
      have himported : n.importedFunction? = if desc.instr = "func" then some desc else none := by
        simp [Node.importedFunction?, hinstr, hdesc, Option.filter]
      have hkind : n.instr ∉ ["func", "global", "elem", "data"] := by simp [hinstr]
      simp only [hdesc] at h
      split at h
      next hfunc =>
        obtain ⟨⟨type, table⟩, hintern, h⟩ := bind_eq_ok.1 h
        obtain ⟨⟨index, d₁⟩, himport, h⟩ := bind_eq_ok.1 h
        obtain rfl := pure_eq_ok.1 h
        have htakes : Takes ⟨{ d with types := table }, bodies⟩ ⟨d₁, bodies⟩ _ :=
          takes_importFunction himport
        refine ⟨_, (takes_types (Signature.intern_eq_ok hintern).1.isPrefix).trans htakes, ?_⟩
        intro types named hfinal hnames
        have hsigned : desc.Signed types named type :=
          Signature.hasType_of_intern hnames (htakes.types.trans hfinal) hintern
        constructor
        all_goals simp [hinstr, himported, hfunc, hsigned, Node.definesFunction, Node.initial?,
          Inventory.append, Inventory.empty, offset?_eq_none]
      next hmemory =>
        obtain ⟨limits, -, h⟩ := bind_eq_ok.1 h
        obtain ⟨⟨index, d₁⟩, himport, h⟩ := bind_eq_ok.1 h
        obtain rfl := pure_eq_ok.1 h
        refine ⟨_, takes_importMemory himport, fun types named _ _ => written_nothing hkind ?_⟩
        simp [himported, hmemory]
      next hglobal =>
        split at h
        next => exact absurd h throw_ne_ok
        next =>
          obtain ⟨type, -, h⟩ := bind_eq_ok.1 h
          obtain ⟨⟨index, d₁⟩, himport, h⟩ := bind_eq_ok.1 h
          obtain rfl := pure_eq_ok.1 h
          refine ⟨_, takes_importGlobal himport, fun types named _ _ => written_nothing hkind ?_⟩
          simp [himported, hglobal]
      next => exact absurd h throw_ne_ok

/-- A function field brings an imported function, or a defined one with its
body. -/
theorem brings_function (hinstr : n.instr = "func") (h : p.declareFunction n = .ok p') :
    p.Brings p' n := by
  obtain ⟨f, hf, h⟩ := bind_eq_ok.1 h
  obtain ⟨⟨type, params, table⟩, hresolve, h⟩ := bind_eq_ok.1 h
  have hreads := FunctionField.ofNode_reads hf
  have hgrows := (FunctionField.resolveType_eq_ok hf hresolve).1.isPrefix
  have hfirst : p.Takes ⟨{ p.draft with types := table }, p.bodies⟩ .empty := takes_types hgrows
  cases horigin : f.origin with
  | some origin =>
      have himport : n.hasChild "import" = true := by rw [← hreads.origin, horigin]; rfl
      obtain ⟨module, field, span⟩ := origin
      simp only [horigin] at h
      split at h
      next =>
        obtain ⟨⟨index, d⟩, hadd, h⟩ := bind_eq_ok.1 h
        obtain rfl := pure_eq_ok.1 h
        have htakes : Takes ⟨{ p.draft with types := table }, p.bodies⟩
            ⟨d.exportAll .function index f.exports, p.bodies⟩ _ :=
          (takes_importFunction hadd).then_nothing (takes_exportAll _ _ _)
        refine ⟨_, hfirst.trans htakes, fun types named hfinal hnames => ?_⟩
        obtain ⟨t, htype, hentry, -⟩ := FunctionField.hasType_of_resolveType hnames hreads
          (htakes.types.trans hfinal) hresolve
        have hsigned : n.Signed types named type := ⟨t, htype, hentry⟩
        constructor
        all_goals simp [Node.importedFunction?, hinstr, himport, hsigned, Node.definesFunction,
          Node.initial?, Inventory.append, Inventory.empty, offset?_eq_none]
      next => exact absurd h throw_ne_ok
      next => exact absurd h throw_ne_ok
  | none =>
      have himport : n.hasChild "import" = false := by rw [← hreads.origin, horigin]; rfl
      simp only [horigin] at h
      obtain rfl := pure_eq_ok.1 h
      have hadded : Takes ⟨{ p.draft with types := table }, p.bodies⟩ _ _ :=
        takes_addFunction n.label? type ⟨p.draft.functions.length, params, f.locals, f.body⟩
      have htakes := hadded.then_nothing
        (takes_exportAll .function p.draft.functions.length f.exports)
      refine ⟨_, hfirst.trans htakes, fun types named hfinal hnames => ?_⟩
      obtain ⟨t, htype, hentry, hlength, hparams⟩ :=
        FunctionField.hasType_of_resolveType hnames hreads (htakes.types.trans hfinal) hresolve
      have hsigned : n.Signed types named type := ⟨t, htype, hentry⟩
      have hdefers : n.Defers types named ⟨p.draft.functions.length, params, f.locals, f.body⟩ :=
        ⟨⟨t, htype, hlength, hparams⟩, hreads.localNames, hreads.localTypes, hreads.body⟩
      constructor
      all_goals simp [Node.importedFunction?, hinstr, himport, hsigned, hdefers,
        Node.definesFunction, Node.initial?, Inventory.append, Inventory.empty, offset?_eq_none]

theorem takes_memory (h : d.declareMemory n = .ok d') :
    Takes ⟨d, bodies⟩ ⟨d', bodies⟩ .empty := by
  obtain ⟨limits, -, h⟩ := bind_eq_ok.1 h
  obtain ⟨⟨index, d₁⟩, hadd, h⟩ := bind_eq_ok.1 h
  obtain ⟨exports, -, h⟩ := bind_eq_ok.1 h
  obtain rfl := pure_eq_ok.1 h
  exact (takes_addMemory hadd).then_nothing (takes_exportAll _ _ _)

theorem takes_table (h : d.declareTable n = .ok d') : Takes ⟨d, bodies⟩ ⟨d', bodies⟩ .empty := by
  obtain ⟨limits, -, h⟩ := bind_eq_ok.1 h
  obtain ⟨exports, -, h⟩ := bind_eq_ok.1 h
  obtain rfl := pure_eq_ok.1 h
  exact (takes_addTable _ _).then_nothing (takes_exportAll _ _ _)

theorem takes_export (h : d.declareExport n = .ok d') : Takes ⟨d, bodies⟩ ⟨d', bodies⟩ .empty := by
  obtain ⟨name, -, h⟩ := bind_eq_ok.1 h
  split at h
  next => exact absurd h throw_ne_ok
  next =>
    split at h
    next => exact absurd h throw_ne_ok
    next =>
      obtain ⟨target, -, h⟩ := bind_eq_ok.1 h
      obtain rfl := pure_eq_ok.1 h
      exact .nothing List.prefix_rfl rfl rfl

theorem takes_start (h : d.declareStart n = .ok d') : Takes ⟨d, bodies⟩ ⟨d', bodies⟩ .empty := by
  obtain ⟨target, -, h⟩ := bind_eq_ok.1 h
  obtain rfl := pure_eq_ok.1 h
  exact .nothing List.prefix_rfl rfl rfl

/-- An expression outside functions registers types, and gives its
bytes. -/
theorem takes_constant [HexReader] (bodies : List DeferredBody) {es : List Expr}
    {bytes : List UInt8} (h : d.constant es = .ok (bytes, d')) :
    Takes ⟨d, bodies⟩ ⟨d', bodies⟩ .empty ∧ ∀ types named, d'.types.entries <+: types →
      d.names.Mean types named → Expr.Codes types named es bytes := by
  obtain ⟨⟨instrs, d₁⟩, htyping, h⟩ := bind_eq_ok.1 h
  obtain ⟨rfl, rfl⟩ := Prod.mk.inj (pure_eq_ok.1 h)
  obtain ⟨table, hcompile, rfl⟩ := Draft.typing_eq_ok.1 htyping
  refine ⟨takes_types (compileAll_linear hcompile).1.isPrefix, fun types named hfinal hnames => ?_⟩
  exact Expr.codes_of_compileAll rfl hnames hfinal hcompile

/-- A global brings its first value. -/
theorem brings_global [HexReader] (hinstr : n.instr = "global") (h : d.declareGlobal n = .ok d') :
    Brings ⟨d, bodies⟩ ⟨d', bodies⟩ n := by
  unfold Draft.declareGlobal at h
  split at h
  next => exact absurd h throw_ne_ok
  next e es hchildren =>
    obtain ⟨type, -, h⟩ := bind_eq_ok.1 h
    obtain ⟨⟨init, d₁⟩, hinit, h⟩ := bind_eq_ok.1 h
    obtain ⟨exports, -, h⟩ := bind_eq_ok.1 h
    obtain rfl := pure_eq_ok.1 h
    obtain ⟨hfirst, hcodes⟩ := takes_constant bodies hinit
    have hadded : Takes ⟨d₁, bodies⟩ _ _ := takes_addGlobal n.label? ⟨type, init⟩
    have htakes := hadded.then_nothing (takes_exportAll .global (d₁.count .global) exports)
    refine ⟨_, hfirst.trans htakes, fun types named hfinal hnames => ?_⟩
    have hcode := hcodes types named (htakes.types.trans hfinal) hnames
    constructor
    all_goals simp [Node.importedFunction?, hinstr, Node.definesFunction, Node.initial?, hchildren,
      hcode, Inventory.append, Inventory.empty, offset?_eq_none]

/-- The offset of a segment registers types, and gives its bytes. -/
theorem takes_segmentOffset [HexReader] (bodies : List DeferredBody) {offset : List UInt8}
    {rest : List Expr} (h : d.segmentOffset n = .ok (offset, rest, d')) :
    Takes ⟨d, bodies⟩ ⟨d', bodies⟩ .empty ∧ ∃ es, n.offset? n.instr = some es ∧
      ∀ types named, d'.types.entries <+: types → d.names.Mean types named →
        Expr.Codes types named es offset := by
  unfold Draft.segmentOffset at h
  split at h
  next head children rest' hchildren =>
    obtain ⟨⟨bytes, d₁⟩, hconstant, h⟩ := bind_eq_ok.1 h
    obtain ⟨rfl, hpair⟩ := Prod.mk.inj (pure_eq_ok.1 h)
    obtain ⟨-, rfl⟩ := Prod.mk.inj hpair
    obtain ⟨htakes, hcodes⟩ := takes_constant bodies hconstant
    refine ⟨htakes, _, ?_, hcodes⟩
    simp [Node.offset?, hchildren]
  next => exact absurd h throw_ne_ok

/-- An element segment brings its offset. -/
theorem brings_element [HexReader] (hinstr : n.instr = "elem") (h : d.declareElement n = .ok d') :
    Brings ⟨d, bodies⟩ ⟨d', bodies⟩ n := by
  obtain ⟨⟨offset, rest, d₁⟩, hoffset, h⟩ := bind_eq_ok.1 h
  obtain ⟨inner, -, h⟩ := bind_eq_ok.1 h
  obtain ⟨trailing, -, h⟩ := bind_eq_ok.1 h
  obtain rfl := pure_eq_ok.1 h
  obtain ⟨hfirst, es, hes, hcodes⟩ := takes_segmentOffset bodies hoffset
  refine ⟨_, hfirst.trans (takes_addElement _), fun types named hfinal hnames => ?_⟩
  have hcode := hcodes types named hfinal hnames
  rw [hinstr] at hes
  constructor
  all_goals simp [Node.importedFunction?, hinstr, Node.definesFunction, Node.initial?, hes, hcode,
    Inventory.append, Inventory.empty, offset?_eq_none]

/-- A data segment brings its offset. -/
theorem brings_data [HexReader] (hinstr : n.instr = "data") (h : d.declareData n = .ok d') :
    Brings ⟨d, bodies⟩ ⟨d', bodies⟩ n := by
  obtain ⟨⟨offset, rest, d₁⟩, hoffset, h⟩ := bind_eq_ok.1 h
  obtain ⟨inner, -, h⟩ := bind_eq_ok.1 h
  obtain ⟨trailing, -, h⟩ := bind_eq_ok.1 h
  obtain rfl := pure_eq_ok.1 h
  obtain ⟨hfirst, es, hes, hcodes⟩ := takes_segmentOffset bodies hoffset
  refine ⟨_, hfirst.trans (takes_addData _), fun types named hfinal hnames => ?_⟩
  have hcode := hcodes types named hfinal hnames
  rw [hinstr] at hes
  constructor
  all_goals simp [Node.importedFunction?, hinstr, Node.definesFunction, Node.initial?, hes, hcode,
    Inventory.append, Inventory.empty, offset?_eq_none]

/-- **Every field brings what it says.** -/
theorem brings_of_declare [HexReader] {e : Expr} (h : p.declare e = .ok p') :
    ∃ n, e.node? = some n ∧ p.Brings p' n := by
  unfold Progress.declare at h
  split at h
  next => cases h
  next n hnode =>
    refine ⟨n, hnode, ?_⟩
    split at h
    next hinstr =>
      obtain rfl := Except.ok.inj h
      exact (Takes.refl p).brings_nothing (by simp [hinstr])
    next hinstr =>
      obtain ⟨d, hd, rfl⟩ := onDraft_eq_ok.1 h
      exact brings_import hinstr hd
    next hinstr => exact brings_function hinstr h
    next hinstr =>
      obtain ⟨d, hd, rfl⟩ := onDraft_eq_ok.1 h
      exact Takes.brings_nothing (takes_memory hd) (by simp [hinstr])
    next hinstr =>
      obtain ⟨d, hd, rfl⟩ := onDraft_eq_ok.1 h
      exact Takes.brings_nothing (takes_table hd) (by simp [hinstr])
    next hinstr =>
      obtain ⟨d, hd, rfl⟩ := onDraft_eq_ok.1 h
      exact brings_global hinstr hd
    next hinstr =>
      obtain ⟨d, hd, rfl⟩ := onDraft_eq_ok.1 h
      exact Takes.brings_nothing (takes_export hd) (by simp [hinstr])
    next hinstr =>
      obtain ⟨d, hd, rfl⟩ := onDraft_eq_ok.1 h
      exact brings_element hinstr hd
    next hinstr =>
      obtain ⟨d, hd, rfl⟩ := onDraft_eq_ok.1 h
      exact brings_data hinstr hd
    next hinstr =>
      obtain ⟨d, hd, rfl⟩ := onDraft_eq_ok.1 h
      exact Takes.brings_nothing (takes_start hd) (by simp [hinstr])
    next => cases h

end Progress

end WasmText
