import WasmText.Literal.Hexadecimal
import WasmText.Proofs.Module.Finishing
import WasmText.Proofs.Signatures
/-!
# When tables are written

Code calls through the first table, and segments and exports refer to
tables. Only the latter decide whether tables are written: the table
section is there exactly if a field of the source refers to a table, and
then it declares every table, in order (`table_section_iff`). A module
that only calls through its table is written without it
(`unwritten_table`).
-/

namespace WasmText

/-! ## Fields -/

namespace Node

/-- Whether a field exports a table: an `export` field that describes one,
or the field of a table with an export inside. -/
def exportsTable (field : Node) : Bool :=
  if field.instr = "export" then field.childNodes.head?.any (·.instr = "table")
  else field.instr = "table" && field.hasChild "export"

/-- Whether a field refers to a table: an element segment or an export. -/
def refersToTable (field : Node) : Bool := field.instr = "elem" || field.exportsTable

/-- The fields that declare tables. -/
def tableFields (n : Node) : List Node := n.childNodes.filter (·.instr = "table")

/-- That a field gives the limits of a table. -/
def GivesTable (field : Node) (l : Limits) : Prop := Limits.ofHead .table field.toHead = .ok l

/-- Fields of other kinds refer to no table. -/
theorem refersToTable_eq_false {field : Node} (h : field.instr ∉ ["elem", "export", "table"]) :
    field.refersToTable = false := by
  obtain ⟨helem, hexport, htable⟩ : field.instr ≠ "elem" ∧ field.instr ≠ "export" ∧
      field.instr ≠ "table" := by
    simpa using h
  simp [refersToTable, exportsTable, helem, hexport, htable]

/-- A table field refers to its table exactly if there is an export inside.
-/
theorem refersToTable_of_table {field : Node} (h : field.instr = "table") :
    field.refersToTable = field.hasChild "export" := by
  simp [refersToTable, exportsTable, h]

end Node

/-- The kind of thing that an `export` field describes. -/
theorem ExportKind.ofWord?_eq_table {word : String} {kind : ExportKind}
    (h : ofWord? word = some kind) : (kind == .table) = decide (word = "table") := by
  obtain rfl : kind.word = word := by simpa using List.find?_some h
  cases kind <;> decide

/-- Only memories are shared. -/
theorem Limits.shared_of_bounds {ps : List Param} {sizes : List Nat} {shared : Bool}
    (h : bounds .table ps = .ok (sizes, shared)) : shared = false := by
  induction ps generalizing sizes shared with
  | nil =>
      cases h
      rfl
  | cons p ps ih =>
      rw [bounds.eq_def] at h
      simp only at h
      split at h
      · obtain ⟨bound, -, h⟩ := bind_eq_ok.1 h
        obtain ⟨⟨rest, shared'⟩, hrest, h⟩ := bind_eq_ok.1 h
        cases pure_eq_ok.1 h
        exact ih hrest
      · obtain ⟨bound, -, h⟩ := bind_eq_ok.1 h
        obtain ⟨⟨rest, shared'⟩, hrest, h⟩ := bind_eq_ok.1 h
        cases pure_eq_ok.1 h
        exact ih hrest
      · contradiction
      · exact ih h
      · cases h

/-- The limits of a table are never shared, so nothing of them is lost. -/
theorem Node.GivesTable.written {field : Node} {l : Limits} (h : field.GivesTable l) :
    l.written = l := by
  obtain ⟨⟨sizes, shared⟩, hbounds, h⟩ := bind_eq_ok.1 h
  obtain rfl := Limits.shared_of_bounds hbounds
  split at h
  next heq =>
    obtain ⟨-, rfl⟩ := Prod.mk.inj heq
    obtain rfl := pure_eq_ok.1 h
    rfl
  next heq =>
    obtain ⟨-, rfl⟩ := Prod.mk.inj heq
    obtain rfl := pure_eq_ok.1 h
    rfl
  next => exact absurd h throw_ne_ok

/-! ## Operations -/

namespace Draft

/-- That the second draft has some tables more than the first, and whether
something more refers to a table. -/
structure Tabled (d d' : Draft) (limits : List Limits) (refers : Bool) : Prop where
  tables : d'.tables = d.tables ++ limits
  needs : d'.needsTables = (d.needsTables || refers)

namespace Tabled

variable {d d' d'' : Draft} {limits limits' : List Limits} {refers refers' : Bool}

/-- A step that touches neither tables nor what refers to them. -/
theorem same (htables : d'.tables = d.tables) (helements : d'.elements = d.elements)
    (hexports : d'.exports = d.exports) : d.Tabled d' [] false :=
  ⟨by rw [htables, List.append_nil], by rw [needsTables, needsTables, helements, hexports, Bool.or_false]⟩

theorem refl (d : Draft) : d.Tabled d [] false := same rfl rfl rfl

/-- One step after the other declares the tables of both. -/
theorem trans (h : d.Tabled d' limits refers) (h' : d'.Tabled d'' limits' refers') :
    d.Tabled d'' (limits ++ limits') (refers || refers') where
  tables := by rw [h'.tables, h.tables, List.append_assoc]
  needs := by rw [h'.needs, h.needs, Bool.or_assoc]

/-- What follows may leave the tables alone. -/
theorem then_same (h : d.Tabled d' limits refers) (h' : d'.Tabled d'' [] false) :
    d.Tabled d'' limits refers := by
  have htrans := h.trans h'
  rwa [List.append_nil, Bool.or_false] at htrans

/-- What comes before may leave the tables alone. -/
theorem after_same (h : d.Tabled d' [] false) (h' : d'.Tabled d'' limits refers) :
    d.Tabled d'' limits refers := h.trans h'

/-- Names do not matter. -/
theorem bind (h : d.Tabled d' limits refers) (s : Space) (name : Option String) (index : Nat) :
    d.Tabled (d'.bind s name index) limits refers := by
  cases name with
  | none => exact h
  | some name => exact ⟨h.tables, h.needs⟩

end Tabled

variable {d d' : Draft} {n : Node}

theorem tabled_addExport (d : Draft) (e : Export) :
    d.Tabled (d.addExport e) [] (e.kind == .table) := by
  refine ⟨(List.append_nil _).symm, ?_⟩
  simp [needsTables, addExport, Bool.or_assoc]

/-- Exports of another kind, or none at all, refer to no table. -/
theorem tabled_exportAll (d : Draft) (kind : ExportKind) (index : Nat)
    (exports : List (String × Span)) :
    d.Tabled (d.exportAll kind index exports) [] (kind == .table && !exports.isEmpty) := by
  unfold exportAll
  induction exports generalizing d with
  | nil =>
      rw [List.isEmpty_nil, Bool.not_true, Bool.and_false]
      exact .refl d
  | cons e exports ih =>
      have hboth := (d.tabled_addExport ⟨e.1, kind, .index index e.2⟩).trans (ih _)
      have hrefers : (kind == .table || (kind == .table && !exports.isEmpty)) =
          (kind == .table && !(e :: exports).isEmpty) := by
        cases kind == .table <;> rfl
      rwa [hrefers] at hboth

theorem tabled_importFunction {name : Option String} {module field : String} {type index : Nat}
    {span : Span} (h : d.importFunction name module field type span = .ok (index, d')) :
    d.Tabled d' [] false := by
  unfold importFunction at h
  split at h
  next => cases h
  next =>
    obtain ⟨-, rfl⟩ := Prod.mk.inj (Except.ok.inj h)
    refine Tabled.bind ?_ _ _ _
    exact .same rfl rfl rfl

theorem tabled_importMemory {name : Option String} {module field : String} {limits : Limits}
    {index : Nat} {span : Span}
    (h : d.importMemory name module field limits span = .ok (index, d')) :
    d.Tabled d' [] false := by
  unfold importMemory at h
  split at h
  next => cases h
  next =>
    obtain ⟨-, rfl⟩ := Prod.mk.inj (Except.ok.inj h)
    refine Tabled.bind ?_ _ _ _
    exact .same rfl rfl rfl

theorem tabled_importGlobal {name : Option String} {module field : String} {type : GlobalType}
    {index : Nat} {span : Span}
    (h : d.importGlobal name module field type span = .ok (index, d')) :
    d.Tabled d' [] false := by
  unfold importGlobal at h
  split at h
  next => cases h
  next =>
    obtain ⟨-, rfl⟩ := Prod.mk.inj (Except.ok.inj h)
    refine Tabled.bind ?_ _ _ _
    exact .same rfl rfl rfl

theorem tabled_addMemory {name : Option String} {limits : Limits} {index : Nat} {span : Span}
    (h : d.addMemory name limits span = .ok (index, d')) : d.Tabled d' [] false := by
  unfold addMemory at h
  split at h
  next => cases h
  next =>
    obtain ⟨-, rfl⟩ := Prod.mk.inj (Except.ok.inj h)
    refine Tabled.bind ?_ _ _ _
    exact .same rfl rfl rfl

theorem tabled_addTable (d : Draft) (name : Option String) (limits : Limits) :
    d.Tabled (d.addTable name limits).2 [limits] false := by
  refine Tabled.bind ⟨rfl, ?_⟩ _ _ _
  exact (Bool.or_false _).symm

/-- A constant expression may register types, but touches no table. -/
theorem tabled_constant [HexReader] {es : List Expr} {bytes : List UInt8}
    (h : d.constant es = .ok (bytes, d')) : d.Tabled d' [] false := by
  obtain ⟨⟨instrs, d₁⟩, htyping, h⟩ := bind_eq_ok.1 h
  obtain ⟨-, rfl⟩ := Prod.mk.inj (pure_eq_ok.1 h)
  obtain ⟨types, -, rfl⟩ := typing_eq_ok.1 htyping
  exact .same rfl rfl rfl

theorem tabled_segmentOffset [HexReader] {offset : List UInt8} {rest : List Expr}
    (h : d.segmentOffset n = .ok (offset, rest, d')) : d.Tabled d' [] false := by
  unfold segmentOffset at h
  split at h
  next =>
    obtain ⟨⟨bytes, d₁⟩, hconstant, h⟩ := bind_eq_ok.1 h
    obtain ⟨-, hpair⟩ := Prod.mk.inj (pure_eq_ok.1 h)
    obtain ⟨-, rfl⟩ := Prod.mk.inj hpair
    exact tabled_constant hconstant
  next => exact absurd h throw_ne_ok

/-! ## Each field -/

/-- What fields do about tables: each `table` field adds one, with the
limits it gives. -/
def TabledFor (d d' : Draft) (fields : List Node) : Prop :=
  ∃ limits, d.Tabled d' limits (fields.any Node.refersToTable) ∧
    List.Forall₂ Node.GivesTable (fields.filter (·.instr = "table")) limits

/-- A field that declares no table. -/
theorem Tabled.tabledFor {refers : Bool} (h : d.Tabled d' [] refers) (hinstr : n.instr ≠ "table")
    (hrefers : n.refersToTable = refers) : d.TabledFor d' [n] := by
  refine ⟨[], ?_, ?_⟩
  · rwa [List.any_cons, List.any_nil, Bool.or_false, hrefers]
  · rw [List.filter_cons_of_neg (by simpa using hinstr)]
    exact .nil

theorem tabled_import (h : d.declareImport n = .ok d') : d.Tabled d' [] false := by
  obtain ⟨⟨module, field⟩, -, h⟩ := bind_eq_ok.1 h
  cases hdesc : n.childNodes.head? with
  | none =>
      rw [hdesc] at h
      exact absurd h throw_ne_ok
  | some desc =>
      simp only [hdesc] at h
      split at h
      next =>
        obtain ⟨⟨type, types⟩, -, h⟩ := bind_eq_ok.1 h
        obtain ⟨⟨index, d₁⟩, himport, h⟩ := bind_eq_ok.1 h
        obtain rfl := pure_eq_ok.1 h
        have htypes : d.Tabled { d with types } [] false := .same rfl rfl rfl
        exact htypes.after_same (tabled_importFunction himport)
      next =>
        obtain ⟨limits, -, h⟩ := bind_eq_ok.1 h
        obtain ⟨⟨index, d₁⟩, himport, h⟩ := bind_eq_ok.1 h
        obtain rfl := pure_eq_ok.1 h
        exact tabled_importMemory himport
      next =>
        split at h
        next => exact absurd h throw_ne_ok
        next =>
          obtain ⟨type, -, h⟩ := bind_eq_ok.1 h
          obtain ⟨⟨index, d₁⟩, himport, h⟩ := bind_eq_ok.1 h
          obtain rfl := pure_eq_ok.1 h
          exact tabled_importGlobal himport
      next => exact absurd h throw_ne_ok

theorem tabled_memory (h : d.declareMemory n = .ok d') : d.Tabled d' [] false := by
  obtain ⟨limits, -, h⟩ := bind_eq_ok.1 h
  obtain ⟨⟨index, d₁⟩, hadd, h⟩ := bind_eq_ok.1 h
  obtain ⟨exports, -, h⟩ := bind_eq_ok.1 h
  obtain rfl := pure_eq_ok.1 h
  exact (tabled_addMemory hadd).then_same (tabled_exportAll _ _ _ _)

/-- A field has exports inside exactly if there is a form for one. -/
theorem isEmpty_of_inlineExports {exports : List (String × Span)}
    (h : inlineExports n = .ok exports) : (!exports.isEmpty) = n.hasChild "export" := by
  have hlength := (mapM_eq_ok.1 h).length_eq
  rw [Node.hasChild_eq, Bool.eq_iff_iff, Bool.not_eq_true', List.isEmpty_eq_false_iff,
    ← List.length_pos_iff, ← hlength, List.length_pos_iff, ne_eq, List.filter_eq_nil_iff]
  simp

/-- A table field declares one table, with the limits it gives. -/
theorem tabledFor_table (hinstr : n.instr = "table") (h : d.declareTable n = .ok d') :
    d.TabledFor d' [n] := by
  obtain ⟨limits, hlimits, h⟩ := bind_eq_ok.1 h
  obtain ⟨exports, hexports, h⟩ := bind_eq_ok.1 h
  obtain rfl := pure_eq_ok.1 h
  have hadded := (d.tabled_addTable n.label? limits).trans
    (tabled_exportAll _ .table (d.count .table) exports)
  have hrefers : [n].any Node.refersToTable = (false || (ExportKind.table == .table &&
      !exports.isEmpty)) := by
    rw [List.any_cons, List.any_nil, Bool.or_false, Node.refersToTable_of_table hinstr,
      isEmpty_of_inlineExports hexports]
    rfl
  refine ⟨[limits], hrefers ▸ hadded, ?_⟩
  rw [List.filter_cons_of_pos (by simpa using hinstr)]
  exact .cons hlimits .nil

theorem tabled_global [HexReader] (h : d.declareGlobal n = .ok d') : d.Tabled d' [] false := by
  unfold declareGlobal at h
  split at h
  next => exact absurd h throw_ne_ok
  next =>
    obtain ⟨type, -, h⟩ := bind_eq_ok.1 h
    obtain ⟨⟨init, d₁⟩, hinit, h⟩ := bind_eq_ok.1 h
    obtain ⟨exports, -, h⟩ := bind_eq_ok.1 h
    obtain rfl := pure_eq_ok.1 h
    refine (tabled_constant hinit).after_same ?_
    refine Tabled.then_same ?_ (tabled_exportAll _ _ _ _)
    refine Tabled.bind ?_ _ _ _
    exact .same rfl rfl rfl

/-- An export refers to a table exactly if it is of this kind. -/
theorem tabled_export (hinstr : n.instr = "export") (h : d.declareExport n = .ok d') :
    d.Tabled d' [] n.refersToTable := by
  obtain ⟨name, -, h⟩ := bind_eq_ok.1 h
  split at h
  next => exact absurd h throw_ne_ok
  next desc hdesc =>
    split at h
    next => exact absurd h throw_ne_ok
    next kind hkind =>
      obtain ⟨target, -, h⟩ := bind_eq_ok.1 h
      obtain rfl := pure_eq_ok.1 h
      have hrefers : n.refersToTable = (kind == .table) := by
        rw [ExportKind.ofWord?_eq_table hkind, Node.refersToTable, Node.exportsTable, if_pos hinstr,
          hdesc, hinstr]
        rfl
      rw [hrefers]
      exact tabled_addExport _ _

/-- An element segment always refers to a table. -/
theorem tabled_element [HexReader] (h : d.declareElement n = .ok d') : d.Tabled d' [] true := by
  obtain ⟨⟨offset, rest, d₁⟩, hoffset, h⟩ := bind_eq_ok.1 h
  obtain ⟨inner, -, h⟩ := bind_eq_ok.1 h
  obtain ⟨trailing, -, h⟩ := bind_eq_ok.1 h
  obtain rfl := pure_eq_ok.1 h
  refine (tabled_segmentOffset hoffset).after_same ⟨(List.append_nil _).symm, ?_⟩
  simp [needsTables, addElement]

theorem tabled_data [HexReader] (h : d.declareData n = .ok d') : d.Tabled d' [] false := by
  obtain ⟨⟨offset, rest, d₁⟩, hoffset, h⟩ := bind_eq_ok.1 h
  obtain ⟨inner, -, h⟩ := bind_eq_ok.1 h
  obtain ⟨trailing, -, h⟩ := bind_eq_ok.1 h
  obtain rfl := pure_eq_ok.1 h
  exact (tabled_segmentOffset hoffset).then_same (.same rfl rfl rfl)

theorem tabled_start (h : d.declareStart n = .ok d') : d.Tabled d' [] false := by
  obtain ⟨target, -, h⟩ := bind_eq_ok.1 h
  obtain rfl := pure_eq_ok.1 h
  exact .same rfl rfl rfl

end Draft

namespace Progress

variable {p p' : Progress} {n : Node}

/-- A function field leaves tables to its body. -/
theorem tabled_function (h : p.declareFunction n = .ok p') :
    p.draft.Tabled p'.draft [] false := by
  obtain ⟨f, -, h⟩ := bind_eq_ok.1 h
  obtain ⟨⟨type, params, types⟩, -, h⟩ := bind_eq_ok.1 h
  have htypes : p.draft.Tabled { p.draft with types } [] false := .same rfl rfl rfl
  dsimp only at h
  split at h
  next =>
    split at h
    next =>
      obtain ⟨⟨index, d⟩, himport, h⟩ := bind_eq_ok.1 h
      obtain rfl := pure_eq_ok.1 h
      exact htypes.after_same
        ((Draft.tabled_importFunction himport).then_same (Draft.tabled_exportAll _ _ _ _))
    next => exact absurd h throw_ne_ok
    next => exact absurd h throw_ne_ok
  next =>
    obtain rfl := pure_eq_ok.1 h
    refine htypes.after_same (Draft.Tabled.then_same ?_ (Draft.tabled_exportAll _ _ _ _))
    refine Draft.Tabled.bind ?_ _ _ _
    exact .same rfl rfl rfl

/-- **What one field does about tables.** -/
theorem tabledFor_of_declare [HexReader] {e : Expr} (h : p.declare e = .ok p') :
    ∃ n, e.node? = some n ∧ p.draft.TabledFor p'.draft [n] := by
  unfold declare at h
  split at h
  next => cases h
  next n hnode =>
    refine ⟨n, hnode, ?_⟩
    -- fields that have nothing to do with tables
    have hother : n.instr ∉ ["elem", "export", "table"] → p.draft.Tabled p'.draft [] false →
        p.draft.TabledFor p'.draft [n] := fun hinstr htabled =>
      htabled.tabledFor (fun heq => hinstr (by simp [heq])) (Node.refersToTable_eq_false hinstr)
    split at h
    next hinstr =>
      obtain rfl := Except.ok.inj h
      exact hother (by simp [hinstr]) (.refl _)
    next hinstr =>
      obtain ⟨d, hd, rfl⟩ := onDraft_eq_ok.1 h
      exact hother (by simp [hinstr]) (Draft.tabled_import hd)
    next hinstr => exact hother (by simp [hinstr]) (tabled_function h)
    next hinstr =>
      obtain ⟨d, hd, rfl⟩ := onDraft_eq_ok.1 h
      exact hother (by simp [hinstr]) (Draft.tabled_memory hd)
    next hinstr =>
      obtain ⟨d, hd, rfl⟩ := onDraft_eq_ok.1 h
      exact Draft.tabledFor_table hinstr hd
    next hinstr =>
      obtain ⟨d, hd, rfl⟩ := onDraft_eq_ok.1 h
      exact hother (by simp [hinstr]) (Draft.tabled_global hd)
    next hinstr =>
      obtain ⟨d, hd, rfl⟩ := onDraft_eq_ok.1 h
      exact (Draft.tabled_export hinstr hd).tabledFor (by simp [hinstr]) rfl
    next hinstr =>
      obtain ⟨d, hd, rfl⟩ := onDraft_eq_ok.1 h
      exact (Draft.tabled_element hd).tabledFor (by simp [hinstr]) (by simp [Node.refersToTable, hinstr])
    next hinstr =>
      obtain ⟨d, hd, rfl⟩ := onDraft_eq_ok.1 h
      exact hother (by simp [hinstr]) (Draft.tabled_data hd)
    next hinstr =>
      obtain ⟨d, hd, rfl⟩ := onDraft_eq_ok.1 h
      exact hother (by simp [hinstr]) (Draft.tabled_start hd)
    next => cases h

/-- **What all fields do about tables**, one after the other. -/
theorem tabledFor_of_foldlM [HexReader] {es : List Expr} (h : es.foldlM declare p = .ok p') :
    p.draft.TabledFor p'.draft (es.filterMap Expr.node?) := by
  refine foldlM_prefix_induction
    (P := fun es q => p.draft.TabledFor q.draft (es.filterMap Expr.node?)) ?_ ?_ h
  · rintro before e after q q' - ⟨limits, htabled, hgives⟩ hstep
    obtain ⟨n, hnode, more, hmore, hfield⟩ := tabledFor_of_declare hstep
    refine ⟨limits ++ more, ?_, ?_⟩
    · rw [List.filterMap_append, List.filterMap_cons_some hnode, List.any_append]
      exact htabled.trans hmore
    · rw [List.filterMap_append, List.filterMap_cons_some hnode, List.filter_append]
      exact List.rel_append hgives hfield
  · exact ⟨[], .refl p.draft, .nil⟩

end Progress

/-! ## The whole module -/

namespace Draft

variable {d d' : Draft} {n : Node}

theorem tabled_declareType (h : d.declareType n = .ok d') : d.Tabled d' [] false := by
  unfold declareType at h
  split at h
  next => exact absurd h throw_ne_ok
  next =>
    obtain ⟨⟨type, use⟩, -, h⟩ := bind_eq_ok.1 h
    obtain rfl := pure_eq_ok.1 h
    refine Tabled.bind ?_ _ _ _
    exact .same rfl rfl rfl

theorem tabled_compileBody [HexReader] {b : DeferredBody} (h : d.compileBody b = .ok d') :
    d.Tabled d' [] false := by
  obtain ⟨instrs, types, -, rfl⟩ := compileBody_eq_ok.1 h
  exact .same rfl rfl rfl

/-- **The tables of a draft** are those of its fields, and it needs them
where a field refers to one. -/
theorem tables_of_ofNode [HexReader] (h : ofNode n = .ok d) :
    List.Forall₂ Node.GivesTable n.tableFields d.tables ∧
      d.needsTables = n.childNodes.any Node.refersToTable := by
  obtain ⟨-, progress, hprogress, hbodies⟩ := ofNode_eq_ok.1 h
  obtain ⟨typed, htyped, hfields⟩ := bind_eq_ok.1 hprogress
  have htypes : empty.Tabled typed [] false := by
    refine foldlM_induction (P := fun d => empty.Tabled d [] false) ?_ (.refl _) htyped
    intro d d' field _ hd hstep
    exact hd.then_same (tabled_declareType hstep)
  have hfilled : progress.draft.Tabled d [] false := by
    refine foldlM_induction (P := fun d => progress.draft.Tabled d [] false) ?_ (.refl _) hbodies
    intro d d' b _ hd hstep
    exact hd.then_same (tabled_compileBody hstep)
  obtain ⟨limits, htabled, hgives⟩ := Progress.tabledFor_of_foldlM hfields
  have hall := (htypes.after_same htabled).then_same hfilled
  refine ⟨?_, hall.needs⟩
  rw [hall.tables]
  exact hgives

/-- A finished draft has tables where it needs them. -/
theorem tables_ne_nil_of_finish {m : BinaryModule} (h : d.finish = .ok m)
    (hneeds : d.needsTables = true) : d.tables ≠ [] := by
  obtain ⟨exports, -, h⟩ := bind_eq_ok.1 h
  obtain ⟨start, -, h⟩ := bind_eq_ok.1 h
  obtain ⟨elements, -, h⟩ := bind_eq_ok.1 h
  obtain ⟨tables, htables, -⟩ := bind_eq_ok.1 h
  rintro hnil
  rw [writtenTables, hneeds, hnil] at htables
  cases htables

end Draft

/-! ## Indirect calls -/

def Mark.isIndirect : Mark → Bool
  | instr op _ _ => op.shape = .indirect
  | _ => false

def Instr.isIndirect : Instr → Bool
  | op _ (.indirect _) => true
  | _ => false

/-- An instruction is an indirect call exactly if its mark is. -/
theorem Mark.Typed.isIndirect_eq {types : List FuncType} {named : TypeNames} {mark : Mark}
    {i : Instr} (h : mark.Typed types named i) : i.isIndirect = mark.isIndirect := by
  cases h with
  | construct hshape => simp [Instr.isIndirect, Mark.isIndirect, hshape]
  | call hshape => simp [Instr.isIndirect, Mark.isIndirect, hshape]
  | plain hshape himm =>
      rename_i op form labels imm
      have hmark : Mark.isIndirect (.instr op form labels) = false := decide_eq_false hshape.2
      rw [hmark]
      cases imm with
      | indirect => cases himm
      | _ => rfl
  | otherwise => rfl
  | close => rfl

/-- The expressions of a module that are compiled: bodies, first values and
offsets. -/
def Node.expressions (n : Node) : List (List Expr) :=
  (n.childNodes.filter Node.definesFunction).map Node.instructions ++
    n.childNodes.filterMap Node.initial? ++ n.childNodes.filterMap (Node.offset? "elem") ++
    n.childNodes.filterMap (Node.offset? "data")

/-- Whether a source calls through a table. -/
def Node.callsIndirect (n : Node) : Bool :=
  n.expressions.any fun es => (Expr.linearAll [] es).any Mark.isIndirect

namespace BinaryModule

/-- The bodies, first values and offsets of a module. -/
def expressions (m : BinaryModule) : List (List UInt8) :=
  m.code.map (·.body) ++ m.globals.map (·.init) ++ m.elements.map (·.offset) ++
    m.data.map (·.offset)

/-- Whether instructions of a module call through a table. Such a call is
read only with table 0. -/
def CallsIndirect (m : BinaryModule) : Prop :=
  ∃ bytes ∈ m.expressions, ∃ instrs, (Reader.instr .any).many bytes = some instrs ∧
    instrs.any Instr.isIndirect = true

/-- The expressions of a module are those of its source, one by one. -/
theorem Typed.expressions {m : BinaryModule} {n : Node} (h : m.Typed n) :
    List.Forall₂ (Expr.Codes m.types (n.typeNames m.types)) n.expressions m.expressions := by
  refine List.rel_append (List.rel_append (List.rel_append ?_ ?_) ?_) ?_
  · rw [List.forall₂_map_left_iff, List.forall₂_map_right_iff]
    exact h.code
  · rw [List.forall₂_map_right_iff]
    exact h.globals
  · rw [List.forall₂_map_right_iff]
    exact h.elements
  · rw [List.forall₂_map_right_iff]
    exact h.data

end BinaryModule

theorem any_isIndirect_eq {types : List FuncType} {named : TypeNames} {marks : List Mark}
    {instrs : List Instr} (h : List.Forall₂ (Mark.Typed types named) marks instrs) :
    instrs.any Instr.isIndirect = marks.any Mark.isIndirect := by
  induction h with
  | nil => rfl
  | cons hmark _ ih => rw [List.any_cons, List.any_cons, hmark.isIndirect_eq, ih]

/-- The bytes of trees call through a table exactly if the trees do. -/
theorem Expr.Codes.any_isIndirect {types : List FuncType} {named : TypeNames} {es : List Expr}
    {bytes : List UInt8} (h : Expr.Codes types named es bytes) :
    (∃ instrs, (Reader.instr .any).many bytes = some instrs ∧
      instrs.any Instr.isIndirect = true) ↔ (Expr.linearAll [] es).any Mark.isIndirect = true := by
  obtain ⟨instrs, hread, htyped⟩ := h
  rw [← any_isIndirect_eq htyped]
  constructor
  · rintro ⟨instrs', hread', hany⟩
    cases hread.symm.trans hread'
    exact hany
  · exact fun hany => ⟨instrs, hread, hany⟩

/-- **A module calls through a table exactly if its source does.** -/
theorem BinaryModule.Typed.callsIndirect_iff {m : BinaryModule} {n : Node} (h : m.Typed n) :
    m.CallsIndirect ↔ n.callsIndirect = true := by
  rw [CallsIndirect, Node.callsIndirect]
  have hall := h.expressions
  generalize n.expressions = trees at hall
  generalize m.expressions = parts at hall
  induction hall with
  | nil => simp
  | cons hcodes _ ih =>
      rw [List.any_cons, Bool.or_eq_true, ← hcodes.any_isIndirect, List.exists_mem_cons_iff]
      exact or_congr Iff.rfl ih

/-! ## Sources -/

/-- There is a table section exactly if there are tables. -/
theorem BinaryModule.table_mem_sections_iff (m : BinaryModule) :
    4 ∈ m.sections.map (·.1) ↔ m.tables ≠ [] := by
  refine ⟨fun hmem hnil => ?_, table_mem_sections⟩
  have hnone : m.sections.lookup 4 = none :=
    lookup_sections (congrArg (fun tables => some (optionalContents _ tables)) hnil)
  obtain ⟨s, hs, hid⟩ := List.mem_map.1 hmem
  exact bne_iff_ne.1 (List.lookup_eq_none_iff.1 hnone s hs) hid.symm

/-- **Tables are written exactly if a field refers to one.** The bytes of a
source that compiles are those of a module, which is also what they are
read back as where there is room. It calls through its first table exactly
if the source does. Whether or not it does, it has a table section exactly
if the source has an element segment or exports a table, and then the
section declares all tables of the source, of which there is at least one,
in order and with their limits. -/
theorem table_section_iff [HexReader] {source : String} {bytes : List UInt8}
    (h : compile source = .ok bytes) :
    ∃ n d m, parse source = .ok n ∧ Draft.ofNode n = .ok d ∧ m.encode = bytes ∧
      (bytes.length < 2 ^ 32 → readSections bytes = some m.sections) ∧
      (bytes.length < 2 ^ 32 → d.LocalsFit → readModule bytes = some m) ∧
      (m.CallsIndirect ↔ n.callsIndirect = true) ∧
      (4 ∈ m.sections.map (·.1) ↔ ∃ field ∈ n.childNodes, field.refersToTable = true) ∧
      ((∃ field ∈ n.childNodes, field.refersToTable = true) →
        m.tables ≠ [] ∧ List.Forall₂ Node.GivesTable n.tableFields m.tables) := by
  obtain ⟨n, d, m, hparse, hdraft, hfinish, rfl⟩ := exists_finish_of_compile h
  have hdeclares := Draft.finish_declares hfinish
  obtain ⟨hgives, hneeds⟩ := Draft.tables_of_ofNode hdraft
  have hiff : d.needsTables = true ↔ ∃ field ∈ n.childNodes, field.refersToTable = true := by
    rw [hneeds, List.any_eq_true]
  have hwritten : ∀ l ∈ d.tables, l.written = l := by
    intro l hl
    obtain ⟨field, -, hfield⟩ := exists_of_mem_forall₂ hgives hl
    exact hfield.written
  have htables : m.written.tables = if d.needsTables then d.tables else [] := by
    simp only [hdeclares.tables, ← Draft.needsTables_iff, List.map_congr_left hwritten, List.map_id']
  refine ⟨n, d, m.written, hparse, hdraft, m.encode_written, fun hsize => ?_,
    Draft.readModule_of_finish hdraft hfinish,
    (hdeclares.typed (Draft.ofNode_holds hdraft)).callsIndirect_iff, ?_, fun hrefers => ?_⟩
  · rw [← m.encode_written] at hsize ⊢
    exact BinaryModule.readSections_encode hsize
  · rw [BinaryModule.table_mem_sections_iff, htables, ← hiff]
    by_cases hd : d.needsTables = true
    · simp [hd, Draft.tables_ne_nil_of_finish hfinish hd]
    · simp [hd]
  · rw [htables, if_pos (hiff.2 hrefers)]
    exact ⟨Draft.tables_ne_nil_of_finish hfinish (hiff.2 hrefers), hgives⟩

/-- A function that calls through the table, and a segment that puts it
there. -/
def filledTable : String :=
  "(table 1 funcref) (func $f (call_indirect (i32.const 0))) (elem (i32.const 0) $f)"

def filledTableBytes : List UInt8 :=
  [0x00, 0x61, 0x73, 0x6D, 0x01, 0x00, 0x00, 0x00,
    1, 4, 1, 0x60, 0, 0,
    3, 2, 1, 0,
    4, 4, 1, 0x70, 0x00, 1,
    9, 7, 1, 0x00, 0x41, 0, 0x0B, 1, 0,
    10, 9, 1, 7, 0, 0x41, 0, 0x11, 0, 0, 0x0B]

theorem table_section_iff_filled :
    compile filledTable = .ok filledTableBytes ∧
      ∃ (n : Node) (m : BinaryModule), parse filledTable = .ok n ∧ m.encode = filledTableBytes ∧
        readSections filledTableBytes = some m.sections ∧ m.CallsIndirect ∧
        4 ∈ m.sections.map (·.1) ∧ m.tables ≠ [] ∧
        List.Forall₂ Node.GivesTable n.tableFields m.tables := by
  have hcompile : compile filledTable = .ok filledTableBytes := by decide +kernel
  have hsource : (parse filledTable).toOption.any (fun n =>
      n.callsIndirect && n.childNodes.any Node.refersToTable) = true := by
    decide +kernel
  obtain ⟨n, d, m, hparse, -, hbytes, hsections, -, hcalls, hiff, htables⟩ :=
    table_section_iff hcompile
  obtain ⟨hindirect, hrefers⟩ : n.callsIndirect = true ∧
      ∃ field ∈ n.childNodes, field.refersToTable = true := by
    simpa [hparse, Except.toOption] using hsource
  exact ⟨hcompile, n, m, hparse, hbytes, hsections (by decide), hcalls.2 hindirect, hiff.2 hrefers,
    htables hrefers⟩

/-- The same function without the segment. -/
def unfilledTable : String := "(table 1 funcref) (func (call_indirect (i32.const 0)))"

def unfilledTableBytes : List UInt8 :=
  [0x00, 0x61, 0x73, 0x6D, 0x01, 0x00, 0x00, 0x00,
    1, 4, 1, 0x60, 0, 0, 3, 2, 1, 0, 10, 9, 1, 7, 0, 0x41, 0, 0x11, 0, 0, 0x0B]

/-- **A table that is only called through is not written.** -/
theorem unwritten_table :
    compile unfilledTable = .ok unfilledTableBytes ∧
      ((parse unfilledTable).toOption.map fun n => (n.tableFields.length, n.callsIndirect)) =
        some (1, true) ∧
      (readSections unfilledTableBytes).map (fun sections => sections.map (·.1)) =
        some [1, 3, 10] := by
  decide +kernel

end WasmText
