import WasmText.Module.Declaration
/-!
# What no field looks at

Exports, the start function, segments and the bodies put aside are
collected and never looked at until everything is declared. So a field
does the same whatever was collected before it, and what it collects
itself comes behind that (`Progress.declare_behind`).
-/

namespace WasmText

/-- What is collected for the end of a module. -/
structure Outward where
  exports : List Export
  start : Option Target
  elements : List Element
  data : List (Segment UInt8)

namespace Outward

def empty : Outward := ⟨[], none, [], []⟩

end Outward

/-! ## Steps that differ by a map -/

section

variable {ε α α' β β' : Type} {x : Except ε α} {φ : α → α'} {ψ : β → β'}

/-- Two computations of two steps differ by a map if their first steps do
and their second steps carry it on. -/
theorem bind_map {f : α → Except ε β} {f' : α' → Except ε β'} (h : ∀ a, f' (φ a) = (f a).map ψ) :
    (x.map φ >>= f') = (x >>= f).map ψ := by
  cases x with
  | error e => rfl
  | ok a => exact h a

/-- The same where the first step is one and the same. -/
theorem bind_same {f : α → Except ε β} {f' : α → Except ε β'} (h : ∀ a, f' a = (f a).map ψ) :
    (x >>= f') = (x >>= f).map ψ := by
  cases x with
  | error e => rfl
  | ok a => exact h a

end

/-! ## Registration -/

namespace Draft

variable (o : Outward) (d : Draft)

/-- A draft with more collected before it. A start function of its own
counts before an earlier one. -/
def behind : Draft :=
  { d with
    exports := o.exports ++ d.exports
    start := d.start.or o.start
    elements := o.elements ++ d.elements
    data := o.data ++ d.data }

@[simp] theorem behind_types : (d.behind o).types = d.types := rfl

/-- Nothing is behind nothing. -/
theorem behind_empty : d.behind .empty = d := by
  simp [behind, Outward.empty]

/-- A function gets the index that it would have got. -/
theorem addFunctionEntry_behind (name : Option String) (type : Nat) (imported : Bool) :
    (d.behind o).addFunctionEntry name type imported =
      Prod.map id (behind o) (d.addFunctionEntry name type imported) := by
  cases name <;> rfl

theorem addTable_behind (name : Option String) (limits : Limits) :
    (d.behind o).addTable name limits = Prod.map id (behind o) (d.addTable name limits) := by
  cases name <;> rfl

theorem addGlobal_behind (name : Option String) (global : Global) :
    (d.behind o).addGlobal name global = Prod.map id (behind o) (d.addGlobal name global) := by
  cases name <;> rfl

/-- An import is refused for what is defined before it, which is not
collected. -/
theorem importFunction_behind (name : Option String) (module field : String) (type : Nat)
    (span : Span) : (d.behind o).importFunction name module field type span =
      (d.importFunction name module field type span).map (Prod.map id (behind o)) := by
  rw [importFunction, importFunction, show (d.behind o).functions = d.functions from rfl]
  split
  · rfl
  · exact congrArg Except.ok (addFunctionEntry_behind o (d.addImport _) name type true)

theorem importMemory_behind (name : Option String) (module field : String) (limits : Limits)
    (span : Span) : (d.behind o).importMemory name module field limits span =
      (d.importMemory name module field limits span).map (Prod.map id (behind o)) := by
  rw [importMemory, importMemory, show (d.behind o).memories = d.memories from rfl]
  split
  · rfl
  · cases name <;> rfl

theorem importGlobal_behind (name : Option String) (module field : String) (type : GlobalType)
    (span : Span) : (d.behind o).importGlobal name module field type span =
      (d.importGlobal name module field type span).map (Prod.map id (behind o)) := by
  rw [importGlobal, importGlobal, show (d.behind o).globals = d.globals from rfl]
  split
  · rfl
  · cases name <;> rfl

/-- So is a second memory. -/
theorem addMemory_behind (name : Option String) (limits : Limits) (span : Span) :
    (d.behind o).addMemory name limits span =
      (d.addMemory name limits span).map (Prod.map id (behind o)) := by
  rw [addMemory, addMemory]
  split
  · rfl
  · cases name <;> rfl

/-- An export comes behind those that were collected before. -/
theorem addExport_behind (e : Export) : (d.behind o).addExport e = (d.addExport e).behind o := by
  simp [addExport, behind]

/-- So do all inline exports of a field, in their order. -/
theorem exportAll_behind (kind : ExportKind) (index : Nat) (exports : List (String × Span)) :
    (d.behind o).exportAll kind index exports = (d.exportAll kind index exports).behind o := by
  unfold exportAll
  induction exports generalizing d with
  | nil => rfl
  | cons e exports ih =>
      have hadd := addExport_behind o d ⟨e.1, kind, .index index e.2⟩
      exact (congrArg (List.foldl _ · exports) hadd).trans (ih _)

/-- A segment comes behind the segments before it. -/
theorem addElement_behind (e : Element) : (d.behind o).addElement e = (d.addElement e).behind o := by
  simp [addElement, behind]

theorem addData_behind (s : Segment UInt8) : (d.behind o).addData s = (d.addData s).behind o := by
  simp [addData, behind]

/-- A step on the types does not see what was collected. -/
theorem typing_behind {α : Type} (step : Typing α) :
    (d.behind o).typing step = (d.typing step).map (Prod.map id (behind o)) := by
  rw [typing, typing, behind_types]
  cases step d.types with
  | ok a types => rfl
  | error e types => rfl

/-- Neither does a constant expression. -/
theorem constant_behind [HexReader] (es : List Expr) :
    (d.behind o).constant es = (d.constant es).map (Prod.map id (behind o)) := by
  rw [constant, constant, typing_behind]
  exact bind_map fun _ => rfl

/-! ## Fields -/

variable (n : Node)

/-- **An import does the same behind anything.** -/
theorem declareImport_behind :
    (d.behind o).declareImport n = (d.declareImport n).map (behind o) := by
  refine bind_same fun (module, field) => ?_
  dsimp only
  cases n.childNodes.head? with
  | none => rfl
  | some desc =>
      dsimp only
      split
      · refine bind_same fun (type, types) => ?_
        have himport := importFunction_behind o { d with types } desc.label? module field type desc.span
        exact (congrArg (· >>= _) himport).trans (bind_map fun _ => rfl)
      · refine bind_same fun limits => ?_
        rw [importMemory_behind]
        exact bind_map fun _ => rfl
      · cases desc.children.head? with
        | none => rfl
        | some e =>
            refine bind_same fun type => ?_
            rw [importGlobal_behind]
            exact bind_map fun _ => rfl
      · rfl

/-- A new thing, and the exports written inside its field. -/
theorem inlineExports_behind (kind : ExportKind) (index : Nat) :
    (do return (d.behind o).exportAll kind index (← inlineExports n)) =
      (do return d.exportAll kind index (← inlineExports n) : Except _ _).map (behind o) :=
  bind_same fun exports => congrArg Except.ok (exportAll_behind o d kind index exports)

theorem declareMemory_behind :
    (d.behind o).declareMemory n = (d.declareMemory n).map (behind o) := by
  refine bind_same fun limits => ?_
  rw [addMemory_behind]
  exact bind_map fun (index, d) => inlineExports_behind o d n .memory index

theorem declareTable_behind :
    (d.behind o).declareTable n = (d.declareTable n).map (behind o) := by
  refine bind_same fun limits => ?_
  rw [addTable_behind]
  exact inlineExports_behind o _ n .table _

theorem declareGlobal_behind [HexReader] :
    (d.behind o).declareGlobal n = (d.declareGlobal n).map (behind o) := by
  unfold declareGlobal
  cases n.children.filter (!·.isNode "export") with
  | nil => rfl
  | cons e es =>
      refine bind_same fun type => ?_
      rw [constant_behind]
      refine bind_map fun (init, d) => ?_
      dsimp only [Prod.map]
      rw [addGlobal_behind]
      exact inlineExports_behind o _ n .global _

/-- An export adds itself at the end. -/
theorem declareExport_behind :
    (d.behind o).declareExport n = (d.declareExport n).map (behind o) := by
  refine bind_same fun name => ?_
  cases n.childNodes.head? with
  | none => rfl
  | some desc =>
      dsimp only
      cases ExportKind.ofWord? desc.instr with
      | none => rfl
      | some kind =>
          exact bind_same fun target => congrArg Except.ok (addExport_behind o d ⟨name, kind, target⟩)

/-- The offset of a segment is compiled as it would be. -/
theorem segmentOffset_behind [HexReader] : (d.behind o).segmentOffset n =
    (d.segmentOffset n).map fun (bytes, rest, d) => (bytes, rest, d.behind o) := by
  unfold segmentOffset
  split
  · dsimp only
    rw [constant_behind]
    exact bind_map fun _ => rfl
  · rfl

/-- An element segment adds itself at the end. -/
theorem declareElement_behind [HexReader] :
    (d.behind o).declareElement n = (d.declareElement n).map (behind o) := by
  rw [declareElement, declareElement, segmentOffset_behind]
  exact bind_map fun (offset, rest, d) => bind_same fun inner => bind_same fun trailing =>
    congrArg Except.ok (addElement_behind o d _)

/-- So does a data segment. -/
theorem declareData_behind [HexReader] :
    (d.behind o).declareData n = (d.declareData n).map (behind o) := by
  rw [declareData, declareData, segmentOffset_behind]
  exact bind_map fun (offset, rest, d) => bind_same fun inner => bind_same fun trailing =>
    congrArg Except.ok (addData_behind o d _)

/-- The last start function counts, and it is the one of the field. -/
theorem declareStart_behind :
    (d.behind o).declareStart n = (d.declareStart n).map (behind o) :=
  bind_same fun _ => rfl

end Draft

/-! ## All fields -/

namespace Progress

variable (o : Outward) (bodies : List DeferredBody) (p : Progress)

/-- With more collected before, and more bodies put aside. -/
def behind : Progress := ⟨p.draft.behind o, bodies ++ p.bodies⟩

/-- What holds of a step on the draft holds of it beside the bodies. -/
theorem onDraft_behind {step : Draft → Node → Except CompileError Draft} {n : Node}
    (h : step (p.draft.behind o) n = (step p.draft n).map (Draft.behind o)) :
    (p.behind o bodies).onDraft step n = (p.onDraft step n).map (behind o bodies) := by
  rw [onDraft, onDraft, show (p.behind o bodies).draft = p.draft.behind o from rfl, h]
  exact bind_map fun _ => rfl

/-- **A function does the same behind anything**, and its body comes behind
the bodies before. -/
theorem declareFunction_behind (n : Node) :
    (p.behind o bodies).declareFunction n = (p.declareFunction n).map (behind o bodies) := by
  refine bind_same fun f => bind_same fun (type, params, types) => ?_
  dsimp only
  cases f.origin with
  | none =>
      let made := Draft.addFunction { p.draft with types } n.label? type
      have hadd := Draft.addFunctionEntry_behind o { p.draft with types } n.label? type false
      have hexports := Draft.exportAll_behind o made.2 .function made.1 f.exports
      exact congrArg Except.ok (congr (congrArg Progress.mk
        ((congrArg (fun r => r.2.exportAll .function r.1 f.exports) hadd).trans hexports))
        (List.append_assoc bodies p.bodies _))
  | some origin =>
      dsimp only
      split
      · have himport := Draft.importFunction_behind o { p.draft with types } n.label? origin.1
          origin.2.1 type origin.2.2
        refine (congrArg (· >>= _) himport).trans (bind_map fun made => ?_)
        exact congrArg Except.ok (congrArg (Progress.mk · _)
          (Draft.exportAll_behind o made.2 .function made.1 f.exports))
      · rfl
      · rfl

/-- **What a field does** does not depend on what was collected before
it. -/
theorem declare_behind [HexReader] (e : Expr) :
    (p.behind o bodies).declare e = (p.declare e).map (behind o bodies) := by
  unfold declare
  split
  · rfl
  · split
    · rfl
    · exact onDraft_behind o bodies p (Draft.declareImport_behind o p.draft _)
    · exact declareFunction_behind o bodies p _
    · exact onDraft_behind o bodies p (Draft.declareMemory_behind o p.draft _)
    · exact onDraft_behind o bodies p (Draft.declareTable_behind o p.draft _)
    · exact onDraft_behind o bodies p (Draft.declareGlobal_behind o p.draft _)
    · exact onDraft_behind o bodies p (Draft.declareExport_behind o p.draft _)
    · exact onDraft_behind o bodies p (Draft.declareElement_behind o p.draft _)
    · exact onDraft_behind o bodies p (Draft.declareData_behind o p.draft _)
    · exact onDraft_behind o bodies p (Draft.declareStart_behind o p.draft _)
    · rfl

/-- **All fields do the same behind anything**, one after another. -/
theorem foldlM_declare_behind [HexReader] (es : List Expr) :
    es.foldlM declare (p.behind o bodies) = (es.foldlM declare p).map (behind o bodies) := by
  induction es generalizing p with
  | nil => rfl
  | cons e es ih =>
      rw [List.foldlM_cons, List.foldlM_cons, declare_behind]
      exact bind_map ih

end Progress

end WasmText
