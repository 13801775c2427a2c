import WasmText.Proofs.Compile
import WasmText.Proofs.Module.Fields
/-!
# What a module form declares

A module is gone through three times: types first, then every field, then
the bodies. After the first the names of types mean what their fields say.
After the second everything but code is in place, and the third puts the
code of each body into the entry of its function and touches nothing else.
So the draft in the end holds what the form declares, field by field
(`Draft.ofNode_holds`).
-/

namespace WasmText

/-! ## Types -/

/-- The draft after some type fields: nothing but types, whose names mean
what the fields say. -/
structure Draft.Named (d : Draft) (fields : List Node) : Prop where
  inventory : Progress.inventory ⟨d, []⟩ = .empty
  mean : ∀ types, d.types.entries <+: types →
    d.names.Mean types (Node.typeNamesAfter types fields.reverse)

namespace Draft

variable {d d' : Draft} {n : Node}

theorem inventory_addType (name : Option String) (type : FuncType) :
    Progress.inventory ⟨(d.addType name type).2, []⟩ = Progress.inventory ⟨d, []⟩ := by
  cases name <;> rfl

theorem entries_addType (name : Option String) (type : FuncType) :
    (d.addType name type).2.types = (d.types.intern type).2 := by
  cases name <;> rfl

theorem index?_addType (name : Option String) (type : FuncType) (other : String) :
    (d.addType name type).2.names.index? .type other =
      if name = some other then some (d.types.intern type).1 else d.names.index? .type other := by
  cases name with
  | none => rfl
  | some own =>
      change (d.names.declare .type own (d.types.intern type).1).index? .type other = _
      rw [index?_declare d.names rfl]
      simp

theorem Named.declareType {fields : List Node} (hd : d.Named fields)
    (h : d.declareType n = .ok d') : d'.Named (fields ++ [n]) := by
  unfold Draft.declareType at h
  split at h
  next => exact absurd h throw_ne_ok
  next func hfunc =>
    obtain ⟨⟨type, use⟩, hsig, h⟩ := bind_eq_ok.1 h
    obtain rfl := pure_eq_ok.1 h
    refine ⟨(inventory_addType _ _).trans hd.inventory, fun types hfinal name i hi => ?_⟩
    rw [entries_addType] at hfinal
    have hbefore := (d.types.prefix_intern type).trans hfinal
    rw [index?_addType] at hi
    rw [List.reverse_append, List.reverse_singleton, List.singleton_append, Node.typeNamesAfter]
    split at hi
    next hname =>
      obtain rfl := Option.some.inj hi
      have hmeans := (Signature.hasType_of_ofNode (hd.mean types hbefore) hbefore hsig).1
      rw [if_pos hname, hfunc, Option.bind_some, hmeans.signature, TypeTable.getElem?_intern hfinal]
    next hname =>
      rw [if_neg hname]
      exact hd.mean types hbefore name i hi

theorem named_of_foldlM {fields : List Node} (h : fields.foldlM declareType .empty = .ok d) :
    d.Named fields := by
  refine foldlM_prefix_induction (P := fun fields d => Named d fields) ?_ ⟨rfl, ?_⟩ h
  · intro before n after d d' _ hd hstep
    exact hd.declareType hstep
  · intro types _ name i hi
    cases hi

end Draft

/-! ## Fields -/

theorem Progress.Takes.mean {p p' : Progress} {brought : Inventory} (h : p.Takes p' brought)
    {types : List FuncType} {named : TypeNames} (hnames : p.draft.names.Mean types named) :
    p'.draft.names.Mean types named := by
  intro name i hi
  rw [h.names] at hi
  exact hnames name i hi

/-- **All fields together** bring what they say, one after the other. -/
theorem Progress.brings_of_foldlM [HexReader] {p p' : Progress} {es : List Expr}
    (h : es.foldlM Progress.declare p = .ok p') :
    ∃ brought, p.Takes p' brought ∧ ∀ types named, p'.draft.types.entries <+: types →
      p.draft.names.Mean types named → Written types named (es.filterMap Expr.node?) brought := by
  refine foldlM_prefix_induction (P := fun es p' => ∃ brought, p.Takes p' brought ∧
    ∀ types named, p'.draft.types.entries <+: types → p.draft.names.Mean types named →
      Written types named (es.filterMap Expr.node?) brought) ?_ ?_ h
  · rintro before e after p₁ p₂ - ⟨brought, htakes, hwritten⟩ hstep
    obtain ⟨n, hnode, more, hmore, hfield⟩ := brings_of_declare hstep
    refine ⟨brought.append more, htakes.trans hmore, fun types named hfinal hnames => ?_⟩
    rw [List.filterMap_append, List.filterMap_cons_some hnode, List.filterMap_nil]
    exact (hwritten types named (hmore.types.trans hfinal) hnames).append
      (hfield types named hfinal (htakes.mean hnames))
  · exact ⟨.empty, .refl p, fun _ _ _ _ => .nil⟩

/-- After the types, what the fields brought is all there is. -/
theorem Draft.Named.written [HexReader] {typed : Draft} {fields : List Node}
    (hnamed : typed.Named fields)
    {es : List Expr} {p : Progress} (h : es.foldlM Progress.declare ⟨typed, []⟩ = .ok p)
    {types : List FuncType} (hfinal : p.draft.types.entries <+: types) :
    Written types (Node.typeNamesAfter types fields.reverse) (es.filterMap Expr.node?) p.inventory := by
  obtain ⟨brought, htakes, hwritten⟩ := Progress.brings_of_foldlM h
  have hinventory : p.inventory = brought := by
    rw [htakes.inventory, hnamed.inventory]
    rfl
  rw [hinventory]
  exact hwritten _ _ hfinal (hnamed.mean _ (htakes.types.trans hfinal))

/-! ## Bodies -/

/-- The code of a body, compiled when the type table was no larger than
the given one. -/
def DeferredBody.Compiled [HexReader] (names : Names) (types : List FuncType) (b : DeferredBody)
    (c : Code) : Prop :=
  c.locals = b.locals.map (·.type) ∧ ∃ t t' instrs,
    compileAll ⟨names, (b.params ++ b.locals).map (·.name), []⟩ b.body t = .ok instrs t' ∧
      t'.entries <+: types ∧ Instr.encodeAll instrs = c.body

/-- A draft that differs from another in the code of some bodies, and in
types that are added. -/
structure Draft.Filled [HexReader] (d : Draft) (bodies : List DeferredBody) (d' : Draft) :
    Prop where
  names : d'.names = d.names
  types : d.types.entries <+: d'.types.entries
  imports : d'.imports = d.imports
  globals : d'.globals = d.globals
  elements : d'.elements = d.elements
  data : d'.data = d.data
  functions : d'.functions.map (fun f => (f.index, f.type, f.imported)) =
    d.functions.map fun f => (f.index, f.type, f.imported)
  code : (bodies.map (·.index)).Nodup → ∀ types, d'.types.entries <+: types → ∀ b ∈ bodies,
    ∀ f, d'.functions[b.index]? = some f → b.Compiled d.names types f.code

namespace Draft

variable {d d' d'' : Draft} {bodies : List DeferredBody} {b : DeferredBody}

theorem getElem?_setCode (d : Draft) (index : Nat) (code : Code) (k : Nat) :
    (d.setCode index code).functions[k]? =
      if index = k then d.functions[k]?.map ({ · with code }) else d.functions[k]? := by
  rw [setCode, List.getElem?_modify]
  split
  next => rfl
  next => exact Option.map_id'

theorem compileBody_eq_ok [HexReader] : d.compileBody b = .ok d' ↔ ∃ (instrs : List Instr)
    (types : TypeTable),
    compileAll ⟨d.names, (b.params ++ b.locals).map Slot.name, []⟩ b.body d.types = .ok instrs types ∧
      d' = { d with types }.setCode b.index ⟨b.locals.map Slot.type, Instr.encodeAll instrs⟩ := by
  constructor
  · intro h
    obtain ⟨⟨instrs, d₁⟩, htyping, h⟩ := bind_eq_ok.1 h
    obtain ⟨types, hcompile, rfl⟩ := typing_eq_ok.1 htyping
    exact ⟨instrs, types, hcompile, (pure_eq_ok.1 h).symm⟩
  · rintro ⟨instrs, types, hcompile, rfl⟩
    exact bind_eq_ok.2 ⟨_, typing_eq_ok.2 ⟨types, hcompile, rfl⟩, rfl⟩

theorem Filled.compileBody [HexReader] (hd : d.Filled bodies d') (h : d'.compileBody b = .ok d'') :
    d.Filled (bodies ++ [b]) d'' := by
  obtain ⟨instrs, table, hcompile, rfl⟩ := compileBody_eq_ok.1 h
  have hgrows := (compileAll_linear hcompile).1.isPrefix
  refine ⟨hd.names, hd.types.trans hgrows, hd.imports, hd.globals, hd.elements, hd.data, ?_, ?_⟩
  · rw [← hd.functions]
    exact setCode_entries _ _ _
  · intro hnodup types hfinal other hother f hf
    rw [List.map_append, List.nodup_append] at hnodup
    obtain ⟨hbefore, -, hnew⟩ := hnodup
    rw [getElem?_setCode] at hf
    rcases List.mem_append.1 hother with hmem | hmem
    · -- an entry filled before is not the one filled now
      have hne : b.index ≠ other.index := fun heq =>
        hnew _ (List.mem_map_of_mem hmem) _ (List.mem_singleton.2 rfl) heq.symm
      rw [if_neg hne] at hf
      exact hd.code hbefore types (hgrows.trans hfinal) other hmem f hf
    · obtain rfl := List.mem_singleton.1 hmem
      rw [if_pos rfl] at hf
      obtain ⟨g, -, rfl⟩ := Option.map_eq_some_iff.1 hf
      rw [← hd.names]
      exact ⟨rfl, _, _, instrs, hcompile, hfinal, rfl⟩

theorem filled_of_foldlM [HexReader] (h : bodies.foldlM compileBody d = .ok d') :
    d.Filled bodies d' := by
  refine foldlM_prefix_induction (P := fun bodies d' => d.Filled bodies d') ?_ ?_ h
  · intro before b after d₁ d₂ _ hd hstep
    exact hd.compileBody hstep
  · exact ⟨rfl, List.prefix_rfl, rfl, rfl, rfl, rfl, rfl, fun _ _ _ _ => nofun⟩

end Draft

/-! ## The whole module -/

/-- A function as its form defines it: with the signature that the form
gives, and the code of its body. -/
def Node.Defines [HexReader] (types : List FuncType) (named : TypeNames) (names : Names)
    (form : Node) (f : Function) : Prop :=
  form.Signed types named f.type ∧ ∃ b, form.Defers types named b ∧ b.Compiled names types f.code

/-- A draft that holds what a module form declares, kind by kind and in
order. -/
structure Draft.Holds [HexReader] (d : Draft) (types : List FuncType) (named : TypeNames)
    (n : Node) : Prop where
  mean : d.names.Mean types named
  imported : List.Forall₂ (Node.Signed types named) (n.childNodes.filterMap Node.importedFunction?)
    (d.imports.filterMap (·.desc.functionType?))
  defined : List.Forall₂ (Node.Defines types named d.names)
    (n.childNodes.filter Node.definesFunction) d.defined
  initials : List.Forall₂ (Expr.Codes types named) (n.childNodes.filterMap Node.initial?)
    (d.globals.map (·.init))
  elements : List.Forall₂ (Expr.Codes types named) (n.childNodes.filterMap (Node.offset? "elem"))
    (d.elements.map (·.offset))
  data : List.Forall₂ (Expr.Codes types named) (n.childNodes.filterMap (Node.offset? "data"))
    (d.data.map (·.offset))

namespace Draft

variable {d d' : Draft} {n : Node}

/-- An entry of the function space stands at its index. -/
theorem Numbered.getElem?_index (h : d.Numbered) {f : Function} (hf : f ∈ d.functions) :
    d.functions[f.index]? = some f := by
  obtain ⟨k, hk⟩ := List.getElem?_of_mem hf
  have hlt := (List.getElem?_eq_some_iff.1 hk).1
  have hindex : (d.functions.map (·.index))[k]? = some f.index := by
    rw [List.getElem?_map, hk]
    rfl
  rw [h.indices, List.getElem?_range hlt] at hindex
  rw [← Option.some.inj hindex]
  exact hk

theorem Numbered.nodup_defined (h : d.Numbered) : (d.defined.map (·.index)).Nodup := by
  have hall : (d.functions.map (·.index)).Nodup := h.indices ▸ List.nodup_range
  exact hall.sublist (List.filter_sublist.map _)

/-- **Each body is compiled into the entry of its function.** -/
theorem Filled.defined [HexReader] {bodies : List DeferredBody} (hd : d.Filled bodies d')
    (hn : d'.Numbered)
    (hindices : d.defined.map (·.index) = bodies.map (·.index)) {types : List FuncType}
    (hfinal : d'.types.entries <+: types) :
    List.Forall₂ (fun b f => b.Compiled d.names types f.code) bodies d'.defined := by
  have hsame : d'.defined.map (·.index) = bodies.map (·.index) :=
    (defined_map_congr hd.functions fun entry => entry.1).trans hindices
  have hnodup : (bodies.map (·.index)).Nodup := hsame ▸ hn.nodup_defined
  rw [List.forall₂_iff_zip]
  refine ⟨by simpa using (congrArg List.length hsame).symm, fun {b f} hmem => ?_⟩
  obtain ⟨hb, hf⟩ := List.of_mem_zip hmem
  have hindex : b.index = f.index := by
    obtain ⟨k, hk⟩ := List.getElem?_of_mem hmem
    obtain ⟨hbk, hfk⟩ := List.getElem?_zip_eq_some.1 hk
    have hk := congrArg (·[k]?) hsame
    simp only [List.getElem?_map, hbk, hfk, Option.map_some, Option.some.injEq] at hk
    exact hk.symm
  refine hd.code hnodup types hfinal b hb f ?_
  rw [hindex]
  exact hn.getElem?_index (List.mem_filter.1 hf).1

/-- **The draft of a module form holds what the form declares**, said with
the type section that it ends up with. -/
theorem ofNode_holds [HexReader] (h : ofNode n = .ok d) :
    d.Holds d.types.entries (n.typeNames d.types.entries) n := by
  obtain ⟨log, hlog⟩ := (ofNode_sound h).consistent
  obtain ⟨-, progress, hprogress, hbodies⟩ := ofNode_eq_ok.1 h
  obtain ⟨typed, htyped, hfields⟩ := bind_eq_ok.1 hprogress
  have hnamed := named_of_foldlM htyped
  obtain ⟨brought, htakes, -⟩ := Progress.brings_of_foldlM hfields
  have hfilled := filled_of_foldlM hbodies
  have hmean : typed.names.Mean d.types.entries (n.typeNames d.types.entries) :=
    hnamed.mean _ (htakes.types.trans hfilled.types)
  have hall := hnamed.written hfields hfilled.types
  have htypes : d.defined.map (·.type) = progress.draft.defined.map (·.type) :=
    defined_map_congr hfilled.functions fun entry => entry.2.1
  have hsigned := List.forall₂_map_right_iff.2 hall.defined
  rw [show progress.inventory.defined.map (·.type) = d.defined.map (·.type) from htypes.symm,
    List.forall₂_map_right_iff] at hsigned
  have hcode := forall₂_comp hall.bodies
    (hfilled.defined hlog.numbered hall.indices List.prefix_rfl)
  refine ⟨?_, ?_, ?_, ?_, ?_, ?_⟩
  · rw [hfilled.names]
    exact htakes.mean hmean
  · rw [hfilled.imports]
    exact hall.imported
  · rw [hfilled.names]
    exact hsigned.mp (fun form f hform hbody => ⟨hform, hbody⟩) hcode
  · rw [hfilled.globals]
    exact hall.initials
  · rw [hfilled.elements]
    exact hall.elements
  · rw [hfilled.data]
    exact hall.data

end Draft

/-- A source that compiles gives a draft that can be finished. -/
theorem exists_finish_of_compile [HexReader] {source : String} {bytes : List UInt8}
    (h : compile source = .ok bytes) :
    ∃ n d m, parse source = .ok n ∧ Draft.ofNode n = .ok d ∧ d.finish = .ok m ∧ m.encode = bytes := by
  unfold compile at h
  split at h
  next n hparse =>
    obtain ⟨d, hdraft, h⟩ := bind_eq_ok.1 h
    obtain ⟨m, hfinish, hbytes⟩ := Draft.build_eq_ok.1 h
    exact ⟨n, d, m, hparse, hdraft, hfinish, hbytes⟩
  next => cases h

/-- A module of a finished draft reads back where there is room. -/
theorem Draft.readModule_of_finish [HexReader] {n : Node} {d : Draft} {m : BinaryModule}
    (hdraft : ofNode n = .ok d) (hfinish : d.finish = .ok m) (hsize : m.encode.length < 2 ^ 32)
    (hlocals : d.LocalsFit) : readModule m.encode = some m.written := by
  rw [← m.encode_written] at hsize ⊢
  exact BinaryModule.readModule_encode
    ((finish_declares hfinish).fits (ofNode_sound hdraft) hsize hlocals)

/-- What a source compiles to, with the draft on the way: the bytes of the
module that the draft declares. Where there is room they read back. -/
theorem exists_of_compile [HexReader] {source : String} {bytes : List UInt8}
    (h : compile source = .ok bytes) :
    ∃ n d m, parse source = .ok n ∧ Draft.ofNode n = .ok d ∧ d.Declares m ∧ m.encode = bytes ∧
      (bytes.length < 2 ^ 32 → d.LocalsFit → readModule bytes = some m) := by
  obtain ⟨n, d, m, hparse, hdraft, hfinish, rfl⟩ := exists_finish_of_compile h
  exact ⟨n, d, m.written, hparse, hdraft, Draft.finish_declares hfinish, m.encode_written,
    Draft.readModule_of_finish hdraft hfinish⟩

/-- The locals fit where computing says so. -/
theorem localsFit_of_all [HexReader] {source : String} {n : Node} {d : Draft}
    (hparse : parse source = .ok n) (hdraft : Draft.ofNode n = .ok d)
    (h : ((parse source).toOption.bind fun n => (Draft.ofNode n).toOption).all
      (fun d => d.LocalsFit) = true) : d.LocalsFit := by
  simpa [hparse, hdraft, Except.toOption] using h

end WasmText
