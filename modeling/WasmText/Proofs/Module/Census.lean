import WasmText.Proofs.Module.Declared
/-!
# What fields add

A field adds an import, or an entry to an index space, or both. Counted
over all fields of a module (`Progress.addsFor_of_foldlM`), the imports of
a draft are those of its `import` forms in order, up to the ones that no
field looks at, and an index space has as many entries as there are fields
of its kind.
-/

namespace WasmText

namespace Node

/-- The `import` forms among the children of a field. -/
def importsInside (field : Node) : List Node := field.childNodes.filter (·.instr = "import")

/-- The `import` forms that a field adds imports for: itself, or the last
of those inside a function. -/
def importing (field : Node) : List Node :=
  if field.instr = "import" then [field]
  else if field.instr = "func" then field.importsInside.getLast?.toList
  else []

/-- The kind of thing that a field adds to its index space. -/
def addedKind? (field : Node) : Option ExportKind :=
  if field.instr = "import" then field.childNodes.head?.bind (ExportKind.ofWord? ·.instr)
  else ExportKind.ofWord? field.instr

/-- That an `import` form gives the names of an import. -/
def NamesImport (form : Node) (i : Import) : Prop := form.originNames = .ok (i.module, i.field)

end Node

/-! ## Inline imports -/

namespace FunctionField

/-- What an `import` form inside a function says of its origin. -/
def Originates (form : Node) (origin : String × String × Span) : Prop :=
  form.originNames = .ok (origin.1, origin.2.1) ∧ origin.2.2 = form.span

/-- A child of a function gives it an origin if it is an `import` form. -/
theorem origin_of_ofChild {e : Expr} {f : FunctionField} (h : ofChild e = .ok f) :
    Option.Rel Originates (e.node?.filter (·.instr = "import")) f.origin := by
  have hother : ∀ {o : Option (String × String × Span)}, o.isSome = false →
      Option.Rel Originates none o := by
    intro o hnone
    cases o with
    | none => exact .none
    | some origin => cases hnone
  have horigin := (ofChild_contributed h).origin
  cases e with
  | ref => exact hother horigin
  | data => exact hother horigin
  | node head children =>
      by_cases himport : head.instr = "import"
      · simp only [ofChild, Expr.node?, himport] at h
        obtain ⟨⟨module, field⟩, hnames, h⟩ := bind_eq_ok.1 h
        obtain rfl := pure_eq_ok.1 h
        simp only [Expr.node?, Option.filter_some, himport, decide_true, if_true]
        exact .some ⟨hnames, rfl⟩
      · simp only [Expr.node?, Option.filter_some, himport, decide_false, Bool.false_eq_true, if_false]
        exact hother (horigin.trans (beq_eq_false_iff_ne.2 himport))

/-- **The origin of a function** is what the last `import` form inside it
says. -/
theorem origin_of_ofNode {n : Node} {f : FunctionField} (h : ofNode n = .ok f) :
    Option.Rel Originates n.importsInside.getLast? f.origin := by
  obtain ⟨parts, hparts, h⟩ := bind_eq_ok.1 h
  obtain rfl := pure_eq_ok.1 h
  have hlast : n.importsInside.getLast? =
      n.children.reverse.findSome? fun e => e.node?.filter (·.instr = "import") := by
    rw [Node.importsInside, Node.childNodes, List.filter_filterMap, List.getLast?_filterMap]
  have hall := List.forall₂_reverse_iff.2 (mapM_eq_ok.1 hparts)
  rw [hlast]
  change Option.Rel Originates _ (parts.reverse.findSome? (·.origin))
  generalize n.children.reverse = es at hall
  generalize parts.reverse = parts at hall
  induction hall with
  | nil => exact .none
  | @cons e part es parts hchild _ ih =>
      rw [List.findSome?_cons, List.findSome?_cons]
      have hfirst := origin_of_ofChild hchild
      generalize e.node?.filter (·.instr = "import") = form at hfirst
      generalize part.origin = origin at hfirst
      cases hfirst with
      | none => exact ih
      | some hnames => exact .some hnames

end FunctionField

/-! ## Operations -/

namespace Draft

/-- That the second draft has some imports more than the first, and in the
index spaces an entry more for each kind in a list. -/
structure Adds (d d' : Draft) (imports : List Import) (kinds : List ExportKind) : Prop where
  imports : d'.imports = d.imports ++ imports
  count : ∀ kind, d'.count kind.space = d.count kind.space + kinds.count kind

namespace Adds

variable {d d' d'' : Draft} {imports imports' : List Import} {kinds kinds' : List ExportKind}

/-- A step that adds nothing. -/
theorem nothing (himports : d'.imports = d.imports)
    (hcount : ∀ kind : ExportKind, d'.count kind.space = d.count kind.space) : d.Adds d' [] [] :=
  ⟨by rw [himports, List.append_nil], hcount⟩

theorem refl (d : Draft) : d.Adds d [] [] := nothing rfl fun _ => rfl

/-- What two steps add is added one after the other. -/
theorem trans (h : d.Adds d' imports kinds) (h' : d'.Adds d'' imports' kinds') :
    d.Adds d'' (imports ++ imports') (kinds ++ kinds') where
  imports := by rw [h'.imports, h.imports, List.append_assoc]
  count kind := by rw [h'.count, h.count, List.count_append, Nat.add_assoc]

/-- A step that adds nothing goes unnoticed. -/
theorem then_nothing (h : d.Adds d' imports kinds) (h' : d'.Adds d'' [] []) :
    d.Adds d'' imports kinds := by
  have htrans := h.trans h'
  rwa [List.append_nil, List.append_nil] at htrans

end Adds

section

variable {d d' : Draft}

theorem adds_types (d : Draft) (types : TypeTable) : d.Adds { d with types } [] [] :=
  .nothing rfl fun kind => by cases kind <;> rfl

/-- A name is no entry. -/
theorem adds_bind (d : Draft) (s : Space) (name : Option String) (index : Nat) :
    d.Adds (d.bind s name index) [] [] := by
  cases name with
  | none => exact .refl d
  | some name => exact .nothing rfl fun kind => by cases kind <;> rfl

/-- An export is no entry either. -/
theorem adds_exportAll (d : Draft) (kind : ExportKind) (index : Nat)
    (exports : List (String × Span)) : d.Adds (d.exportAll kind index exports) [] [] := by
  unfold exportAll
  induction exports generalizing d with
  | nil => exact .refl d
  | cons e exports ih =>
      have hfirst : d.Adds (d.addExport ⟨e.1, kind, .index index e.2⟩) [] [] :=
        .nothing rfl fun kind => by cases kind <;> rfl
      exact hfirst.then_nothing (ih _)

/-- An imported function is an import and an entry of its space. -/
theorem adds_importFunction {name : Option String} {module field : String} {type index : Nat}
    {span : Span} (h : d.importFunction name module field type span = .ok (index, d')) :
    d.Adds d' [⟨module, field, .function type⟩] [.function] := by
  unfold importFunction at h
  split at h
  next => cases h
  next =>
    obtain ⟨-, rfl⟩ := Prod.mk.inj (Except.ok.inj h)
    refine Adds.then_nothing ?_ (adds_bind _ _ _ _)
    refine ⟨rfl, fun kind => ?_⟩
    cases kind <;> simp [ExportKind.space, count, addImport]

/-- So is an imported memory. -/
theorem adds_importMemory {name : Option String} {module field : String} {limits : Limits}
    {index : Nat} {span : Span}
    (h : d.importMemory name module field limits span = .ok (index, d')) :
    d.Adds d' [⟨module, field, .memory limits⟩] [.memory] := by
  unfold importMemory at h
  split at h
  next => cases h
  next =>
    obtain ⟨-, rfl⟩ := Prod.mk.inj (Except.ok.inj h)
    refine Adds.then_nothing ?_ (adds_bind _ _ _ _)
    refine ⟨rfl, fun kind => ?_⟩
    cases kind <;> simp [ExportKind.space, count, addImport, Nat.add_right_comm]

/-- So is an imported global. -/
theorem adds_importGlobal {name : Option String} {module field : String} {type : GlobalType}
    {index : Nat} {span : Span}
    (h : d.importGlobal name module field type span = .ok (index, d')) :
    d.Adds d' [⟨module, field, .global type⟩] [.global] := by
  unfold importGlobal at h
  split at h
  next => cases h
  next =>
    obtain ⟨-, rfl⟩ := Prod.mk.inj (Except.ok.inj h)
    refine Adds.then_nothing ?_ (adds_bind _ _ _ _)
    refine ⟨rfl, fun kind => ?_⟩
    cases kind <;> simp [ExportKind.space, count, addImport, Nat.add_right_comm]

/-- A defined function is an entry and no import. -/
theorem adds_addFunction (d : Draft) (name : Option String) (type : Nat) :
    d.Adds (d.addFunction name type).2 [] [.function] := by
  refine Adds.then_nothing ?_ (adds_bind _ _ _ _)
  refine ⟨(List.append_nil _).symm, fun kind => ?_⟩
  cases kind <;> simp [ExportKind.space, count]

theorem adds_addTable (d : Draft) (name : Option String) (limits : Limits) :
    d.Adds (d.addTable name limits).2 [] [.table] := by
  refine Adds.then_nothing ?_ (adds_bind _ _ _ _)
  refine ⟨(List.append_nil _).symm, fun kind => ?_⟩
  cases kind <;> simp [ExportKind.space, count]

/-- A memory that is refused adds nothing, so one that is accepted is an
entry. -/
theorem adds_addMemory {name : Option String} {limits : Limits} {index : Nat} {span : Span}
    (h : d.addMemory name limits span = .ok (index, d')) : d.Adds d' [] [.memory] := by
  unfold addMemory at h
  split at h
  next => cases h
  next =>
    obtain ⟨-, rfl⟩ := Prod.mk.inj (Except.ok.inj h)
    refine Adds.then_nothing ?_ (adds_bind _ _ _ _)
    refine ⟨(List.append_nil _).symm, fun kind => ?_⟩
    cases kind <;> simp [ExportKind.space, count, Nat.add_assoc]

theorem adds_addGlobal (d : Draft) (name : Option String) (global : Global) :
    d.Adds (d.addGlobal name global).2 [] [.global] := by
  refine Adds.then_nothing ?_ (adds_bind _ _ _ _)
  refine ⟨(List.append_nil _).symm, fun kind => ?_⟩
  cases kind <;> simp [ExportKind.space, count, Nat.add_assoc]

/-- An expression outside functions adds nothing but types. -/
theorem adds_constant [HexReader] {es : List Expr} {bytes : List UInt8}
    (h : d.constant es = .ok (bytes, d')) :
    d.Adds d' [] [] := by
  obtain ⟨⟨instrs, d₁⟩, htyping, h⟩ := bind_eq_ok.1 h
  obtain ⟨-, rfl⟩ := Prod.mk.inj (pure_eq_ok.1 h)
  obtain ⟨types, -, rfl⟩ := typing_eq_ok.1 htyping
  exact adds_types d types

end

/-! ## Fields -/

/-- What a field adds: imports with the names of its forms, and an entry of
its kind. -/
def AddsFor (d d' : Draft) (fields : List Node) : Prop :=
  ∃ imports, d.Adds d' imports (fields.filterMap Node.addedKind?) ∧
    List.Forall₂ Node.NamesImport (fields.flatMap Node.importing) imports

variable {d d' : Draft} {n : Node}

/-- **An `import` field** adds the import that it describes, and an entry
of its kind. -/
theorem addsFor_import (hinstr : n.instr = "import") (h : d.declareImport n = .ok d') :
    d.AddsFor d' [n] := by
  obtain ⟨⟨module, field⟩, hnames, h⟩ := bind_eq_ok.1 h
  cases hdesc : n.childNodes.head? with
  | none =>
      rw [hdesc] at h
      exact absurd h throw_ne_ok
  | some desc =>
      have hforms : [n].flatMap Node.importing = [n] := by simp [Node.importing, hinstr]
      have hkinds : [n].filterMap Node.addedKind? = (ExportKind.ofWord? desc.instr).toList := by
        rw [List.filterMap_cons, Node.addedKind?, if_pos hinstr, hdesc, Option.bind_some]
        cases ExportKind.ofWord? desc.instr <;> rfl
      rw [AddsFor, hforms, hkinds]
      simp only [hdesc] at h
      split at h
      next hfunc =>
        obtain ⟨⟨type, types⟩, -, h⟩ := bind_eq_ok.1 h
        obtain ⟨⟨index, d₁⟩, himport, h⟩ := bind_eq_ok.1 h
        obtain rfl := pure_eq_ok.1 h
        rw [hfunc]
        exact ⟨_, (adds_types d types).trans (adds_importFunction himport), .cons hnames .nil⟩
      next hmemory =>
        obtain ⟨limits, -, h⟩ := bind_eq_ok.1 h
        obtain ⟨⟨index, d₁⟩, himport, h⟩ := bind_eq_ok.1 h
        obtain rfl := pure_eq_ok.1 h
        rw [hmemory]
        exact ⟨_, adds_importMemory himport, .cons hnames .nil⟩
      next hglobal =>
        split at h
        next => exact absurd h throw_ne_ok
        next =>
          obtain ⟨type, -, h⟩ := bind_eq_ok.1 h
          obtain ⟨⟨index, d₁⟩, himport, h⟩ := bind_eq_ok.1 h
          obtain rfl := pure_eq_ok.1 h
          rw [hglobal]
          exact ⟨_, adds_importGlobal himport, .cons hnames .nil⟩
      next => exact absurd h throw_ne_ok

/-- A field of another kind adds an entry of its kind and no import. -/
theorem Adds.addsFor {kinds : List ExportKind} (h : d.Adds d' [] kinds)
    (hinstr : n.instr ∉ ["import", "func"])
    (hkinds : (ExportKind.ofWord? n.instr).toList = kinds) : d.AddsFor d' [n] := by
  obtain ⟨himport, hfunc⟩ : n.instr ≠ "import" ∧ n.instr ≠ "func" := by simpa using hinstr
  refine ⟨[], ?_, ?_⟩
  · have hadded : [n].filterMap Node.addedKind? = kinds := by
      rw [List.filterMap_cons, Node.addedKind?, if_neg himport, ← hkinds]
      cases ExportKind.ofWord? n.instr <;> rfl
    rwa [hadded]
  · have hnone : [n].flatMap Node.importing = [] := by simp [Node.importing, himport, hfunc]
    rw [hnone]
    exact .nil

theorem adds_memory (h : d.declareMemory n = .ok d') : d.Adds d' [] [.memory] := by
  obtain ⟨limits, -, h⟩ := bind_eq_ok.1 h
  obtain ⟨⟨index, d₁⟩, hadd, h⟩ := bind_eq_ok.1 h
  obtain ⟨exports, -, h⟩ := bind_eq_ok.1 h
  obtain rfl := pure_eq_ok.1 h
  exact (adds_addMemory hadd).then_nothing (adds_exportAll _ _ _ _)

theorem adds_table (h : d.declareTable n = .ok d') : d.Adds d' [] [.table] := by
  obtain ⟨limits, -, h⟩ := bind_eq_ok.1 h
  obtain ⟨exports, -, h⟩ := bind_eq_ok.1 h
  obtain rfl := pure_eq_ok.1 h
  exact (adds_addTable _ _ _).then_nothing (adds_exportAll _ _ _ _)

theorem adds_global [HexReader] (h : d.declareGlobal n = .ok d') : d.Adds d' [] [.global] := by
  unfold declareGlobal at h
  split at h
  next => exact absurd h throw_ne_ok
  next =>
    obtain ⟨type, -, h⟩ := bind_eq_ok.1 h
    obtain ⟨⟨init, d₁⟩, hinit, h⟩ := bind_eq_ok.1 h
    obtain ⟨exports, -, h⟩ := bind_eq_ok.1 h
    obtain rfl := pure_eq_ok.1 h
    have hadded := (adds_constant hinit).trans (adds_addGlobal d₁ n.label? ⟨type, init⟩)
    exact hadded.then_nothing (adds_exportAll _ _ _ _)

theorem adds_export (h : d.declareExport n = .ok d') : d.Adds d' [] [] := by
  obtain ⟨name, -, h⟩ := bind_eq_ok.1 h
  split at h
  next => exact absurd h throw_ne_ok
  next =>
    split at h
    next => exact absurd h throw_ne_ok
    next =>
      obtain ⟨target, -, h⟩ := bind_eq_ok.1 h
      obtain rfl := pure_eq_ok.1 h
      exact .nothing rfl fun kind => by cases kind <;> rfl

/-- The offset of a segment adds nothing but types. -/
theorem adds_segmentOffset [HexReader] {offset : List UInt8} {rest : List Expr}
    (h : d.segmentOffset n = .ok (offset, rest, d')) : d.Adds d' [] [] := by
  unfold segmentOffset at h
  split at h
  next =>
    obtain ⟨⟨bytes, d₁⟩, hconstant, h⟩ := bind_eq_ok.1 h
    obtain ⟨-, hpair⟩ := Prod.mk.inj (pure_eq_ok.1 h)
    obtain ⟨-, rfl⟩ := Prod.mk.inj hpair
    exact adds_constant hconstant
  next => exact absurd h throw_ne_ok

theorem adds_element [HexReader] (h : d.declareElement n = .ok d') : d.Adds d' [] [] := by
  obtain ⟨⟨offset, rest, d₁⟩, hoffset, h⟩ := bind_eq_ok.1 h
  obtain ⟨inner, -, h⟩ := bind_eq_ok.1 h
  obtain ⟨trailing, -, h⟩ := bind_eq_ok.1 h
  obtain rfl := pure_eq_ok.1 h
  refine (adds_segmentOffset hoffset).then_nothing ?_
  exact .nothing rfl fun kind => by cases kind <;> rfl

theorem adds_data [HexReader] (h : d.declareData n = .ok d') : d.Adds d' [] [] := by
  obtain ⟨⟨offset, rest, d₁⟩, hoffset, h⟩ := bind_eq_ok.1 h
  obtain ⟨inner, -, h⟩ := bind_eq_ok.1 h
  obtain ⟨trailing, -, h⟩ := bind_eq_ok.1 h
  obtain rfl := pure_eq_ok.1 h
  refine (adds_segmentOffset hoffset).then_nothing ?_
  exact .nothing rfl fun kind => by cases kind <;> rfl

theorem adds_start (h : d.declareStart n = .ok d') : d.Adds d' [] [] := by
  obtain ⟨target, -, h⟩ := bind_eq_ok.1 h
  obtain rfl := pure_eq_ok.1 h
  exact .nothing rfl fun kind => by cases kind <;> rfl

end Draft

namespace Progress

variable {p p' : Progress} {n : Node}

/-- A function adds an entry, and an import where there is a form for it
inside. -/
theorem addsFor_function (hinstr : n.instr = "func") (h : p.declareFunction n = .ok p') :
    p.draft.AddsFor p'.draft [n] := by
  obtain ⟨f, hf, h⟩ := bind_eq_ok.1 h
  obtain ⟨⟨type, params, types⟩, -, h⟩ := bind_eq_ok.1 h
  have horigin := FunctionField.origin_of_ofNode hf
  have hforms : [n].flatMap Node.importing = n.importsInside.getLast?.toList := by
    simp [Node.importing, hinstr]
  have hkinds : [n].filterMap Node.addedKind? = [.function] := by
    simp [Node.addedKind?, hinstr, ExportKind.ofWord?, ExportKind.all, ExportKind.word]
  have htypes := p.draft.adds_types types
  rw [Draft.AddsFor, hforms, hkinds]
  dsimp only at h
  generalize n.importsInside.getLast? = form at horigin
  cases hf : f.origin with
  | none =>
      rw [hf] at horigin h
      cases horigin
      obtain rfl := pure_eq_ok.1 h
      have hadded := htypes.trans (Draft.adds_addFunction _ n.label? type)
      exact ⟨[], hadded.then_nothing (Draft.adds_exportAll _ _ _ _), .nil⟩
  | some origin =>
      obtain ⟨module, field, span⟩ := origin
      rw [hf] at horigin
      simp only [hf] at h
      cases horigin with
      | some hnames =>
          split at h
          next =>
            obtain ⟨⟨index, d⟩, himport, h⟩ := bind_eq_ok.1 h
            obtain rfl := pure_eq_ok.1 h
            have hadded := htypes.trans (Draft.adds_importFunction himport)
            exact ⟨_, hadded.then_nothing (Draft.adds_exportAll _ _ _ _), .cons hnames.1 .nil⟩
          next => exact absurd h throw_ne_ok
          next => exact absurd h throw_ne_ok

/-- **What one field adds.** -/
theorem addsFor_of_declare [HexReader] {e : Expr} (h : p.declare e = .ok p') :
    ∃ n, e.node? = some n ∧ p.draft.AddsFor p'.draft [n] := by
  unfold declare at h
  split at h
  next => cases h
  next n hnode =>
    refine ⟨n, hnode, ?_⟩
    split at h
    next hinstr =>
      obtain rfl := Except.ok.inj h
      exact (Draft.Adds.refl p.draft).addsFor (by simp [hinstr]) (by rw [hinstr]; rfl)
    next hinstr =>
      obtain ⟨d, hd, rfl⟩ := onDraft_eq_ok.1 h
      exact Draft.addsFor_import hinstr hd
    next hinstr => exact addsFor_function hinstr h
    next hinstr =>
      obtain ⟨d, hd, rfl⟩ := onDraft_eq_ok.1 h
      exact (Draft.adds_memory hd).addsFor (by simp [hinstr]) (by rw [hinstr]; rfl)
    next hinstr =>
      obtain ⟨d, hd, rfl⟩ := onDraft_eq_ok.1 h
      exact (Draft.adds_table hd).addsFor (by simp [hinstr]) (by rw [hinstr]; rfl)
    next hinstr =>
      obtain ⟨d, hd, rfl⟩ := onDraft_eq_ok.1 h
      exact (Draft.adds_global hd).addsFor (by simp [hinstr]) (by rw [hinstr]; rfl)
    next hinstr =>
      obtain ⟨d, hd, rfl⟩ := onDraft_eq_ok.1 h
      exact (Draft.adds_export hd).addsFor (by simp [hinstr]) (by rw [hinstr]; rfl)
    next hinstr =>
      obtain ⟨d, hd, rfl⟩ := onDraft_eq_ok.1 h
      exact (Draft.adds_element hd).addsFor (by simp [hinstr]) (by rw [hinstr]; rfl)
    next hinstr =>
      obtain ⟨d, hd, rfl⟩ := onDraft_eq_ok.1 h
      exact (Draft.adds_data hd).addsFor (by simp [hinstr]) (by rw [hinstr]; rfl)
    next hinstr =>
      obtain ⟨d, hd, rfl⟩ := onDraft_eq_ok.1 h
      exact (Draft.adds_start hd).addsFor (by simp [hinstr]) (by rw [hinstr]; rfl)
    next => cases h

/-- **What all fields add**, one after the other. -/
theorem addsFor_of_foldlM [HexReader] {es : List Expr} (h : es.foldlM declare p = .ok p') :
    p.draft.AddsFor p'.draft (es.filterMap Expr.node?) := by
  refine foldlM_prefix_induction
    (P := fun es q => p.draft.AddsFor q.draft (es.filterMap Expr.node?)) ?_ ?_ h
  · rintro before e after q q' - ⟨imports, hadds, hnames⟩ hstep
    obtain ⟨n, hnode, more, hmore, hfield⟩ := addsFor_of_declare hstep
    refine ⟨imports ++ more, ?_, ?_⟩
    · rw [List.filterMap_append, List.filterMap_cons_some hnode, List.filterMap_append]
      exact hadds.trans hmore
    · rw [List.filterMap_append, List.filterMap_cons_some hnode, List.flatMap_append]
      exact List.rel_append hnames hfield
  · exact ⟨[], .refl p.draft, .nil⟩

end Progress

/-! ## The whole module -/

/-- A `type` field adds a type, which is no entry here. -/
theorem Draft.adds_declareType {d d' : Draft} {n : Node} (h : d.declareType n = .ok d') :
    d.Adds d' [] [] := by
  unfold declareType at h
  split at h
  next => exact absurd h throw_ne_ok
  next =>
    obtain ⟨⟨type, use⟩, -, h⟩ := bind_eq_ok.1 h
    obtain rfl := pure_eq_ok.1 h
    exact (adds_types d _).then_nothing (adds_bind _ _ _ _)

/-- Registering types adds nothing else. -/
theorem Draft.adds_types_of_foldlM {fields : List Node} {d : Draft}
    (h : fields.foldlM declareType .empty = .ok d) : Draft.empty.Adds d [] [] := by
  refine foldlM_induction (P := fun d => Draft.empty.Adds d [] []) ?_ (.refl _) h
  intro d d' n _ hd hstep
  exact hd.then_nothing (adds_declareType hstep)

/-- **The imports of a draft** have the names of the `import` forms that
count, in order. -/
theorem Draft.imports_of_ofNode [HexReader] {n : Node} {d : Draft} (h : ofNode n = .ok d) :
    List.Forall₂ Node.NamesImport (n.childNodes.flatMap Node.importing) d.imports := by
  obtain ⟨-, progress, hprogress, hbodies⟩ := ofNode_eq_ok.1 h
  obtain ⟨typed, htyped, hfields⟩ := bind_eq_ok.1 hprogress
  obtain ⟨imports, hadds, hnames⟩ := Progress.addsFor_of_foldlM hfields
  rw [(filled_of_foldlM hbodies).imports, hadds.imports, (adds_types_of_foldlM htyped).imports]
  exact hnames

end WasmText
