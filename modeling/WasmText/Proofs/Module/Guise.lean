import WasmText.Compile
import WasmText.Proofs.Instruction.Guise
/-!
# Modules in another guise

Declaring the fields of a module, compiling its bodies and resolving its
targets do the same in every guise, on a draft in that guise. So a module
in another guise has the same bytes, or fails at the same place for the
same kind of reason (`agree_compile`).
-/

namespace WasmText

variable {g : Guise}

/-! ## Drafts -/

def Target.dress (g : Guise) : Target → Target
  | .name label span => .name (g.name label) (g.place span)
  | .index i span => .index i (g.place span)

def Export.dress (g : Guise) (e : Export) : Export := { e with target := e.target.dress g }

def Element.dress (g : Guise) (e : Element) : Element :=
  { e with functions := e.functions.map (·.dress g), span := g.place e.span }

namespace Draft

def dress (g : Guise) (d : Draft) : Draft :=
  { d with
    names := d.names.dress g
    exports := d.exports.map (·.dress g)
    start := d.start.map (·.dress g)
    elements := d.elements.map (·.dress g) }

/-- The same for a draft that comes with the index of its new entry. -/
def dressNew (g : Guise) (r : Nat × Draft) : Nat × Draft := (r.1, r.2.dress g)

/-- A binding goes under the other name. -/
theorem bind_dress (d : Draft) (space : Space) (name : Option String) (index : Nat) :
    (d.dress g).bind space (name.map g.name) index = (d.bind space name index).dress g := by
  cases name with
  | none => rfl
  | some name =>
      simp only [bind, Option.map_some, dress, Names.declare_dress]

/-- The table of types holds no names, so it grows as before. -/
theorem addType_dress (d : Draft) (name : Option String) (t : FuncType) :
    ((d.dress g).addType (name.map g.name) t).2 = (d.addType name t).2.dress g :=
  bind_dress { d with types := (d.types.intern t).2 } .type name (d.types.intern t).1

/-- A new function has the index that it would have had. -/
theorem addFunctionEntry_dress (d : Draft) (name : Option String) (type : Nat) (imported : Bool) :
    (d.dress g).addFunctionEntry (name.map g.name) type imported =
      dressNew g (d.addFunctionEntry name type imported) :=
  congrArg (Prod.mk _) (bind_dress
    { d with functions := d.functions ++ [⟨d.functions.length, type, imported, ⟨[], []⟩⟩] } ..)

theorem addTable_dress (d : Draft) (name : Option String) (limits : Limits) :
    (d.dress g).addTable (name.map g.name) limits = dressNew g (d.addTable name limits) :=
  congrArg (Prod.mk _) (bind_dress { d with tables := d.tables ++ [limits] } ..)

theorem addGlobal_dress (d : Draft) (name : Option String) (global : Global) :
    (d.dress g).addGlobal (name.map g.name) global = dressNew g (d.addGlobal name global) :=
  congrArg (Prod.mk _) (bind_dress { d with globals := d.globals ++ [global] } ..)

variable (d : Draft) (name : Option String) (module field : String) (span : Span)

/-- An import of a function is accepted or comes too late, as before. -/
theorem agree_importFunction (type : Nat) :
    Agree g (dressNew g) (d.importFunction name module field type span)
      ((d.dress g).importFunction (name.map g.name) module field type (g.place span)) := by
  unfold importFunction
  change Agree g _ _ (if (d.functions.any (!·.imported)) = true then _ else _)
  split
  · exact .malformed
  · exact .ok_of_eq (addFunctionEntry_dress (d.addImport ⟨module, field, .function type⟩) ..)

theorem agree_importMemory (limits : Limits) :
    Agree g (dressNew g) (d.importMemory name module field limits span)
      ((d.dress g).importMemory (name.map g.name) module field limits (g.place span)) := by
  unfold importMemory
  change Agree g _ _ (if (!d.memories.isEmpty) = true then _ else _)
  split
  · exact .malformed
  · exact .ok_of_eq (congrArg (Prod.mk _) (bind_dress
      { d.addImport ⟨module, field, .memory limits⟩ with importedMemories := d.importedMemories + 1 } ..))

theorem agree_importGlobal (type : GlobalType) :
    Agree g (dressNew g) (d.importGlobal name module field type span)
      ((d.dress g).importGlobal (name.map g.name) module field type (g.place span)) := by
  unfold importGlobal
  change Agree g _ _ (if (!d.globals.isEmpty) = true then _ else _)
  split
  · exact .malformed
  · exact .ok_of_eq (congrArg (Prod.mk _) (bind_dress
      { d.addImport ⟨module, field, .global type⟩ with importedGlobals := d.importedGlobals + 1 } ..))

/-- A memory without a maximum must not be shared, in any guise. -/
theorem agree_addMemory (limits : Limits) :
    Agree g (dressNew g) (d.addMemory name limits span)
      ((d.dress g).addMemory (name.map g.name) limits (g.place span)) := by
  unfold addMemory
  split
  · exact .malformed
  · exact .ok_of_eq (congrArg (Prod.mk _) (bind_dress
      { d with memories := d.memories ++ [limits] } ..))

/-- An export keeps the name it goes by outside. Only its target looks
different. -/
theorem addExport_dress (e : Export) : (d.dress g).addExport (e.dress g) = (d.addExport e).dress g := by
  simp [addExport, dress]

theorem setStart_dress (target : Target) :
    (d.dress g).setStart (target.dress g) = (d.setStart target).dress g := rfl

theorem addElement_dress (e : Element) :
    (d.dress g).addElement (e.dress g) = (d.addElement e).dress g := by
  simp [addElement, dress]

/-! ## Finishing -/

/-- **A target resolves to the same index**, given by name or by number. -/
theorem agree_resolve (space : Space) (target : Target) :
    Agree g id (d.resolve space target) ((d.dress g).resolve space (target.dress g)) := by
  cases target with
  | name name span =>
      unfold resolve Target.dress
      dsimp only
      unfold indexOfName
      rw [dress, Names.index?_dress]
      exact agree_resolved ..
  | index index span =>
      have hcount : (d.dress g).count space = d.count space := by cases space <;> rfl
      simp only [resolve, Target.dress, hcount]
      split
      · exact .ok index
      · exact .malformed

/-- Tables are written out in both guises or in neither. -/
theorem agree_writtenTables : Agree g id d.writtenTables (d.dress g).writtenTables := by
  have hneeds : (d.dress g).needsTables = d.needsTables := by
    simp [needsTables, dress, Export.dress, Function.comp_def]
  have hspan : (((d.dress g).elements.head?.map (·.span)).getD Span.zero) =
      g.place ((d.elements.head?.map (·.span)).getD Span.zero) := by
    cases h : d.elements with
    | nil => simp [dress, h, g.place_zero]
    | cons e es => simp [dress, h, Element.dress]
  unfold writtenTables
  rw [hneeds, hspan]
  split
  · exact .ok []
  · change Agree g id _ (if d.tables.isEmpty = true then _ else _)
    split
    · exact .malformed
    · exact .ok d.tables

/-- **A draft is finished the same way in every guise**, since nothing but
targets is left to look up. -/
theorem agree_finish : Agree g id d.finish (d.dress g).finish := by
  have hexports : Agree g id
      (d.exports.mapM fun e => do return (e.name, e.kind, ← d.resolve e.kind.space e.target))
      ((d.dress g).exports.mapM fun e => do
        return (e.name, e.kind, ← (d.dress g).resolve e.kind.space e.target)) := by
    rw [← List.map_id_fun]
    exact Agree.mapM fun e _ => (agree_resolve d e.kind.space e.target).map fun _ => rfl
  have htargets : ∀ targets : List Target, Agree g id (targets.mapM (d.resolve .function))
      ((targets.map (·.dress g)).mapM ((d.dress g).resolve .function)) := by
    intro targets
    rw [← List.map_id_fun]
    exact Agree.mapM fun target _ => agree_resolve d .function target
  have hstart : Agree g id (d.start.mapM (d.resolve .function))
      ((d.dress g).start.mapM ((d.dress g).resolve .function)) := by
    change Agree g id _ ((d.start.map (·.dress g)).mapM _)
    cases d.start with
    | none => exact .ok none
    | some target => exact (agree_resolve d .function target).map fun _ => rfl
  have helements : Agree g id
      (d.elements.mapM fun e => do
        return (⟨e.offset, ← e.functions.mapM (d.resolve .function)⟩ : Segment Nat))
      ((d.dress g).elements.mapM fun e => do
        return (⟨e.offset, ← e.functions.mapM ((d.dress g).resolve .function)⟩ : Segment Nat)) := by
    rw [← List.map_id_fun]
    exact Agree.mapM fun e _ => (htargets e.functions).map fun _ => rfl
  exact hexports.bind fun exports => hstart.bind fun start => helements.bind fun elements =>
    d.agree_writtenTables.bind fun tables => .ok _

/-- So it has the same bytes. -/
theorem agree_build : Agree g id d.build (d.dress g).build := by
  unfold build
  have hfinish := agree_finish (g := g) d
  generalize d.finish = x at hfinish
  generalize (d.dress g).finish = y at hfinish
  cases hfinish with
  | ok m => exact .ok _
  | error he => exact .error he

end Draft

/-! ## Parts of fields -/

/-- A string at a given place of a head is found there in every guise. -/
theorem agree_stringAt (head : Head) (position : Nat) (what : String) :
    Agree g id (head.stringAt position what) ((head.dress g).stringAt position what) := by
  unfold Head.stringAt
  rw [Head.dress_params, List.getElem?_map]
  cases head.params[position]? with
  | none => exact .malformed
  | some p =>
      obtain ⟨arg, span⟩ := p
      cases arg with
      | str bytes =>
          simp only [Option.map_some, Param.dress, Argument.dress_str]
          cases Utf8.decode? bytes with
          | none => exact .malformed
          | some text => exact .ok text
      | label name => exact .malformed
      | keyword key value => exact .malformed
      | number text =>
          rcases Param.dress_number (g := g) text span with h | h <;> rw [Option.map_some, h] <;>
            exact .malformed
      | hex text =>
          rcases Param.dress_hex (g := g) text span with h | h <;> rw [Option.map_some, h] <;>
            exact .malformed

theorem agree_originNames (head : Head) :
    Agree g id head.originNames (head.dress g).originNames :=
  (agree_stringAt head 0 _).bind fun _ => (agree_stringAt head 1 _).map fun _ => rfl

/-- A target is told by its argument, a name or a number. -/
theorem agree_targetOfParam (p : Param) :
    Agree g (Target.dress g) (Target.ofParam p) (Target.ofParam (p.dress g)) := by
  have heq : ∀ p : Param, Target.ofParam p =
      refer (fun name => .ok (.name name p.span))
        (fun text => do return .index (← Literal.readNatural text p.span) p.span) p :=
    fun ⟨arg, _⟩ => by cases arg <;> rfl
  rw [heq, heq]
  exact agree_refer p (fun name => .ok _) fun text => (agree_orInvalid ..).map fun _ => rfl

theorem agree_targetOfHead (head : Head) :
    Agree g (Target.dress g) (Target.ofHead head) (Target.ofHead (head.dress g)) := by
  unfold Target.ofHead
  rw [Head.dress_name, Head.dress_params]
  match head.name, head.params with
  | some label, _ => exact .ok _
  | none, [] => exact .malformed
  | none, [p] => exact agree_targetOfParam p
  | none, _ :: _ :: _ => exact .malformed

def Slot.dress (g : Guise) (slot : Slot) : Slot := { slot with name := slot.name.map g.name }

/-- Slots keep their types and change their names. -/
theorem agree_slotsOf (n : Node) :
    Agree g (List.map (Slot.dress g)) (Slot.listOf n) (Slot.listOf (n.dress g)) := by
  refine (agree_listOf n).bind fun types => ?_
  rw [Node.dress_toHead, Head.dress_name]
  match n.name, types with
  | none, types => exact .ok_of_eq (by simp [Slot.dress])
  | some _, [] => exact .malformed
  | some label, [type] => exact .ok _
  | some _, _ :: _ :: _ => exact .malformed

/-- The type of a global is told by words alone. -/
theorem agree_globalType (e : Expr) :
    Agree g id (GlobalType.ofExpr e) (GlobalType.ofExpr (e.dress g)) := by
  unfold GlobalType.ofExpr
  rw [Expr.dress_isNode]
  split
  · match e with
    | .ref _ _ => rw [Expr.dress_ref]; exact .malformed
    | .data _ _ => rw [Expr.dress_data]; exact .malformed
    | .node _ [] => rw [Expr.dress_node]; exact .malformed
    | .node _ [inner] => rw [Expr.dress_node]; exact (agree_ofExpr inner).map fun _ => rfl
    | .node _ (_ :: _ :: _) => rw [Expr.dress_node]; exact .malformed
  · exact (agree_ofExpr e).map fun _ => rfl

/-- Bounds are numbers, which count the same in either notation. -/
theorem agree_bounds (bearer : Limits.Bearer) (ps : List Param) :
    Agree g id (Limits.bounds bearer ps) (Limits.bounds bearer (ps.map (·.dress g))) := by
  induction ps with
  | nil => exact .ok _
  | cons p ps ih =>
      obtain ⟨arg, span⟩ := p
      cases arg with
      | number text =>
          rcases Param.dress_number (g := g) text span with h | h <;> rw [List.map_cons, h] <;>
            exact (agree_orInvalid ..).bind fun _ => ih.map fun _ => rfl
      | hex text =>
          rcases Param.dress_hex (g := g) text span with h | h <;> rw [List.map_cons, h] <;>
            exact (agree_orInvalid ..).bind fun _ => ih.map fun _ => rfl
      | label name => exact .malformed
      | str bytes => exact .malformed
      | keyword key value =>
          cases bearer with
          | memory =>
              cases key with
              | shared =>
                  cases value with
                  | none => exact ih.map fun _ => rfl
                  | some _ => exact .malformed
              | funcref => cases value <;> exact .malformed
              | offset => exact .malformed
              | align => exact .malformed
          | table =>
              cases key with
              | funcref =>
                  cases value with
                  | none => exact ih
                  | some _ => exact .malformed
              | shared => cases value <;> exact .malformed
              | offset => exact .malformed
              | align => exact .malformed

/-- Limits and whether they are shared are the same in every guise. -/
theorem agree_limits (bearer : Limits.Bearer) (head : Head) :
    Agree g id (Limits.ofHead bearer head) (Limits.ofHead bearer (head.dress g)) := by
  refine (agree_bounds bearer head.params).bind fun r => ?_
  match r with
  | ([], _) => exact .malformed
  | ([_], _) => exact .ok _
  | ([_, _], _) => exact .ok _
  | (_ :: _ :: _ :: _, _) => exact .malformed

/-! ## Declarations -/

namespace Draft

variable (d : Draft) (n : Node)

/-- A step on the table of a draft does the same beside names that look
different. -/
theorem agree_typing {α : Type} {x y : Typing α} (h : Typing.Agree g x y) :
    Agree g (Prod.map id (dress g)) (d.typing x) ((d.dress g).typing y) := by
  unfold typing
  rcases h d.types with ⟨a, t, hx, hy⟩ | ⟨e, e', t₁, t₂, hx, hy, he⟩
  · rw [hx, show y (d.dress g).types = _ from hy]
    exact .ok (a, { d with types := t })
  · rw [hx, show y (d.dress g).types = _ from hy]
    exact .error he

/-- A constant expression has the same code. -/
theorem agree_constant [HexReader] (es : List Expr) :
    Agree g (Prod.map id (dress g)) (d.constant es)
      ((d.dress g).constant (es.map (·.dress g))) :=
  (agree_typing d (agree_compileAll ⟨d.names, [], []⟩ es)).bind fun _ => .ok _

/-- Inline exports keep their names and point to the same entry. -/
theorem exportAll_dress (kind : ExportKind) (index : Nat) (exports : List (String × Span)) :
    (d.dress g).exportAll kind index (exports.map (Prod.map id g.place)) =
      (d.exportAll kind index exports).dress g := by
  unfold exportAll
  induction exports generalizing d with
  | nil => rfl
  | cons e es ih =>
      rw [List.map_cons, List.foldl_cons, List.foldl_cons, ← ih]
      congr 1
      exact addExport_dress d ⟨e.1, kind, .index index e.2⟩

/-- **A type is declared in every guise alike.** -/
theorem agree_declareType : Agree g (dress g) (d.declareType n) ((d.dress g).declareType (n.dress g)) := by
  unfold declareType
  rw [Node.dress_child?]
  cases n.child? "func" with
  | none => exact .malformed
  | some func =>
      refine (Signature.agree_ofNode d.names d.types func).bind fun sig => .ok_of_eq ?_
      rw [Node.dress_toHead, Head.dress_label?]
      exact addType_dress d n.label? sig.1

/-- **An import is declared in every guise alike.** Its two names are
strings and stay. -/
theorem agree_declareImport :
    Agree g (dress g) (d.declareImport n) ((d.dress g).declareImport (n.dress g)) := by
  unfold declareImport
  refine (agree_originNames n.toHead).bind fun origin => ?_
  rw [Node.dress_childNodes, List.head?_map]
  cases n.childNodes.head? with
  | none => exact .malformed
  | some desc =>
      simp only [Option.map_some, Node.dress_instr]
      split
      · refine (Signature.agree_intern d.names d.types desc).bind fun r => ?_
        refine Agree.map (f := dressNew g) ?_ fun _ => rfl
        rw [Node.dress_toHead, Head.dress_label?]
        exact agree_importFunction { d with types := r.2 } ..
      · refine (agree_limits .memory desc.toHead).bind fun limits =>
          Agree.map (f := dressNew g) ?_ fun _ => rfl
        rw [Node.dress_toHead, Head.dress_label?]
        exact agree_importMemory ..
      · rw [Node.dress_children, List.head?_map]
        cases desc.children.head? with
        | none => exact .malformed
        | some e =>
            refine (agree_globalType e).bind fun type =>
              Agree.map (f := dressNew g) ?_ fun _ => rfl
            rw [Node.dress_toHead, Head.dress_label?]
            exact agree_importGlobal ..
      · exact .malformed

/-- The inline exports of a field are found in every guise, at places that
move. -/
theorem agree_inlineExports :
    Agree g (List.map (Prod.map id g.place)) (inlineExports n) (inlineExports (n.dress g)) := by
  have hfilter : (n.childNodes.map (·.dress g)).filter (·.instr = "export") =
      (n.childNodes.filter (·.instr = "export")).map (·.dress g) := by
    rw [List.filter_map]
    rfl
  unfold inlineExports
  rw [Node.dress_childNodes, hfilter]
  exact Agree.mapM fun e _ => (agree_stringAt e.toHead 0 "name").map fun _ => rfl

/-- What ends every field with an index: its inline exports. -/
theorem agree_exportAll (kind : ExportKind) (r : Nat × Draft) :
    Agree g (dress g) (do return r.2.exportAll kind r.1 (← inlineExports n))
      (do return (r.2.dress g).exportAll kind r.1 (← inlineExports (n.dress g))) :=
  (agree_inlineExports n).map fun _ => exportAll_dress ..

theorem agree_declareMemory :
    Agree g (dress g) (d.declareMemory n) ((d.dress g).declareMemory (n.dress g)) := by
  refine (agree_limits .memory n.toHead).bind fun limits => ?_
  have hadd := agree_addMemory (g := g) d n.label? n.span limits
  rw [← Head.dress_label?] at hadd
  exact hadd.bind fun r => agree_exportAll n .memory r

theorem agree_declareTable :
    Agree g (dress g) (d.declareTable n) ((d.dress g).declareTable (n.dress g)) := by
  refine (agree_limits .table n.toHead).bind fun limits => ?_
  have hadd := addTable_dress (g := g) d n.label? limits
  rw [← Head.dress_label?] at hadd
  exact hadd ▸ agree_exportAll n .table (d.addTable n.label? limits)

theorem agree_declareGlobal [HexReader] :
    Agree g (dress g) (d.declareGlobal n) ((d.dress g).declareGlobal (n.dress g)) := by
  unfold declareGlobal
  rw [Node.dress_children, Expr.filter_dress (by simp)]
  cases n.children.filter (!·.isNode "export") with
  | nil => exact .malformed
  | cons e es =>
      refine (agree_globalType e).bind fun type => (agree_constant d es).bind fun r => ?_
      obtain ⟨init, d⟩ := r
      have hadd := addGlobal_dress (g := g) d n.label? ⟨type, init⟩
      rw [← Head.dress_label?] at hadd
      dsimp only [Prod.map, id]
      rw [Node.dress_toHead, hadd]
      exact agree_exportAll n .global (d.addGlobal n.label? ⟨type, init⟩)

/-- An export points to the other name of what it exported. -/
theorem agree_declareExport :
    Agree g (dress g) (d.declareExport n) ((d.dress g).declareExport (n.dress g)) := by
  unfold declareExport
  refine (agree_stringAt n.toHead 0 "name").bind fun name => ?_
  rw [Node.dress_childNodes, List.head?_map]
  cases n.childNodes.head? with
  | none => exact .malformed
  | some desc =>
      simp only [Option.map_some, Node.dress_instr]
      cases ExportKind.ofWord? desc.instr with
      | none => exact .malformed
      | some kind =>
          exact (agree_targetOfHead desc.toHead).map fun target =>
            addExport_dress d ⟨name, kind, target⟩

/-- The offset of a segment has the same code, and what follows it is left
in the other guise. -/
theorem agree_segmentOffset [HexReader] :
    Agree g (Prod.map id (Prod.map (List.map (·.dress g)) (dress g))) (d.segmentOffset n)
      ((d.dress g).segmentOffset (n.dress g)) := by
  unfold segmentOffset
  rw [Node.dress_children]
  match n.children with
  | [] => exact .malformed
  | .ref _ _ :: _ => rw [List.map_cons, Expr.dress_ref]; exact .malformed
  | .data _ _ :: _ => rw [List.map_cons, Expr.dress_data]; exact .malformed
  | .node head children :: rest =>
      rw [List.map_cons, Expr.dress_node]
      have hconstant := agree_constant (g := g) d
        (if head.instr == Keyword.offset.word then children else [.node head children])
      have hes : (if head.instr == Keyword.offset.word then children else [.node head children]).map
          (·.dress g) = if (head.dress g).instr == Keyword.offset.word then children.map (·.dress g)
            else [.node (head.dress g) (children.map (·.dress g))] := by
        rw [Head.dress_instr]
        split
        · rfl
        · rw [List.map_singleton, Expr.dress_node]
      rw [hes] at hconstant
      exact hconstant.bind fun r => .ok _

/-- The functions of an element segment are the same targets. -/
theorem agree_elementTargets (e : Expr) :
    Agree g (List.map (·.dress g)) (elementTargets e) (elementTargets (e.dress g)) := by
  cases e with
  | ref name span => rw [Expr.dress_ref]; exact .ok _
  | data bytes span => rw [Expr.dress_data]; exact .malformed
  | node head children =>
      rw [Expr.dress_node]
      by_cases hfunc : head.instr = "func"
      · have hdress : (head.dress g).instr = "func" := hfunc
        simp only [elementTargets, if_pos hfunc, if_pos hdress]
        refine (Agree.mapM fun p _ => agree_targetOfParam p).map fun targets => ?_
        rw [List.map_append, Head.dress_name]
        cases head.name <;> rfl
      · have hdress : (head.dress g).instr ≠ "func" := hfunc
        simp only [elementTargets, if_neg hfunc, if_neg hdress]
        exact .malformed

theorem agree_declareElement [HexReader] :
    Agree g (dress g) (d.declareElement n) ((d.dress g).declareElement (n.dress g)) := by
  refine (agree_segmentOffset d n).bind fun r => ?_
  obtain ⟨offset, rest, d⟩ := r
  refine (Agree.mapM fun e _ => agree_elementTargets e).bind fun inner => ?_
  refine (Agree.mapM fun p _ => agree_targetOfParam p).bind fun trailing => .ok_of_eq ?_
  rw [← addElement_dress, Element.dress, List.map_append, List.map_flatten]
  rfl

/-- Data that is written as children is the same bytes. -/
theorem agree_childBytes (e : Expr) : Agree g id (childBytes e) (childBytes (e.dress g)) := by
  cases e with
  | ref name span => rw [Expr.dress_ref]; exact .malformed
  | data bytes span => rw [Expr.dress_data]; exact .ok bytes
  | node head children => rw [Expr.dress_node]; exact .malformed

/-- So is data that is written as arguments. -/
theorem agree_paramBytes (p : Param) : Agree g id (paramBytes p) (paramBytes (p.dress g)) := by
  obtain ⟨arg, span⟩ := p
  cases arg with
  | str bytes => exact .ok bytes
  | label name => exact .malformed
  | keyword key value => exact .malformed
  | number text =>
      rcases Param.dress_number (g := g) text span with h | h <;> rw [h] <;> exact .malformed
  | hex text => rcases Param.dress_hex (g := g) text span with h | h <;> rw [h] <;> exact .malformed

theorem agree_declareData [HexReader] :
    Agree g (dress g) (d.declareData n) ((d.dress g).declareData (n.dress g)) := by
  refine (agree_segmentOffset d n).bind fun r => ?_
  obtain ⟨offset, rest, d⟩ := r
  refine (Agree.mapM fun e _ => agree_childBytes e).bind fun inner => ?_
  refine (Agree.mapM fun p _ => agree_paramBytes p).bind fun trailing => .ok_of_eq ?_
  rw [List.map_id, List.map_id]
  rfl

theorem agree_declareStart :
    Agree g (dress g) (d.declareStart n) ((d.dress g).declareStart (n.dress g)) :=
  (agree_targetOfHead n.toHead).map fun target => setStart_dress d target

end Draft

/-! ## Functions -/

namespace FunctionField

def dress (g : Guise) (f : FunctionField) : FunctionField :=
  { f with
    params := f.params.map (·.dress g)
    locals := f.locals.map (·.dress g)
    exports := f.exports.map (Prod.map id g.place)
    origin := f.origin.map (Prod.map id (Prod.map id g.place))
    body := f.body.map (·.dress g) }

/-- Each child of a function field contributes the same, in the other
guise. -/
theorem agree_ofChild (e : Expr) : Agree g (dress g) (ofChild e) (ofChild (e.dress g)) := by
  unfold ofChild
  rw [Expr.dress_node?]
  cases hnode : e.node? with
  | none => exact .ok _
  | some n =>
      simp only [Option.map_some, Node.dress_instr]
      split
      · exact .ok _
      · exact (agree_stringAt n.toHead 0 "name").map fun _ => rfl
      · exact (agree_originNames n.toHead).map fun _ => rfl
      · exact (agree_slotsOf n).map fun _ => rfl
      · exact (agree_listOf n).map fun _ => rfl
      · exact (agree_slotsOf n).map fun _ => rfl
      · exact .ok _

/-- What the children contribute is put together after it was put into the
other guise, or before. -/
theorem join_dress (parts : List FunctionField) :
    join (parts.map (dress g)) = (join parts).dress g := by
  have horigin : (parts.map (dress g)).reverse.findSome? (·.origin) =
      (parts.reverse.findSome? (·.origin)).map (Prod.map id (Prod.map id g.place)) := by
    rw [← List.map_reverse, List.findSome?_map, List.map_findSome?]
    rfl
  simp only [join, horigin]
  simp [dress, List.flatMap_map, List.map_flatMap, List.any_map, Function.comp_def]

/-- A function field says the same in every guise. -/
theorem agree_ofNode (n : Node) : Agree g (dress g) (ofNode n) (ofNode (n.dress g)) :=
  (Agree.mapM fun e _ => agree_ofChild e).map fun parts => join_dress parts

/-- A spelled signature has no names of types in it. -/
theorem signature?_dress (f : FunctionField) : (f.dress g).signature? = f.signature? := by
  simp [signature?, dress, Slot.dress, Function.comp_def]

/-- The type of a function is found as before, and its parameters keep
their places. -/
theorem agree_resolveType (f : FunctionField) (names : Names) (table : TypeTable) (n : Node) :
    Agree g (Prod.map id (Prod.map (List.map (·.dress g)) id)) (f.resolveType names table n)
      ((f.dress g).resolveType (names.dress g) table (n.dress g)) := by
  unfold resolveType
  rw [Node.dress_child?, signature?_dress]
  cases n.child? "type" with
  | none => exact .ok _
  | some use =>
      refine (Signature.agree_agreed names table use f.signature?).bind fun index => ?_
      change Agree g _ _ (if f.spelled = true then _ else _)
      split
      · exact .ok _
      · exact .ok_of_eq (by simp [Prod.map, Slot.dress])

end FunctionField

def DeferredBody.dress (g : Guise) (b : DeferredBody) : DeferredBody :=
  ⟨b.index, b.params.map (·.dress g), b.locals.map (·.dress g), b.body.map (·.dress g)⟩

namespace Progress

def dress (g : Guise) (p : Progress) : Progress := ⟨p.draft.dress g, p.bodies.map (·.dress g)⟩

variable (p : Progress)

/-- The progress after a function whose body is put aside. -/
def defer (exports : List (String × Span)) (params locals : List Slot) (body : List Expr)
    (r : Nat × Draft) : Progress :=
  ⟨r.2.exportAll .function r.1 exports, p.bodies ++ [⟨r.1, params, locals, body⟩]⟩

/-- A function that waits for its body waits for it in the other guise. -/
theorem defer_dress (exports : List (String × Span)) (params locals : List Slot)
    (body : List Expr) (r : Nat × Draft) :
    (p.dress g).defer (exports.map (Prod.map id g.place)) (params.map (·.dress g))
        (locals.map (·.dress g)) (body.map (·.dress g)) (Draft.dressNew g r) =
      (p.defer exports params locals body r).dress g := by
  unfold dress defer
  rw [← Draft.exportAll_dress, List.map_append]
  rfl

/-- **A function is declared in every guise alike**, imported or with a
body. -/
theorem agree_declareFunction (n : Node) :
    Agree g (dress g) (p.declareFunction n) ((p.dress g).declareFunction (n.dress g)) := by
  unfold declareFunction
  refine (FunctionField.agree_ofNode n).bind fun f => ?_
  refine (FunctionField.agree_resolveType f p.draft.names p.draft.types n).bind fun r => ?_
  obtain ⟨type, params, types⟩ := r
  dsimp only [Prod.map, id]
  have hlabel : (n.dress g).label? = n.label?.map g.name := Head.dress_label? n.toHead
  rw [hlabel]
  obtain ⟨_, _, _, locals, exports, origin, body⟩ := f
  match origin, body, locals with
  | none, body, locals =>
      have hadd := Draft.addFunctionEntry_dress (g := g) { p.draft with types } n.label? type false
      have hdefer := congrArg (defer (p.dress g) (exports.map (Prod.map id g.place))
        (params.map (Slot.dress g)) (locals.map (Slot.dress g)) (body.map (Expr.dress g))) hadd
      exact .ok_of_eq (hdefer.trans (p.defer_dress ..))
  | some (module, field, span), [], [] =>
      refine (Draft.agree_importFunction { p.draft with types } ..).bind fun r => .ok_of_eq ?_
      exact congrArg (Progress.mk · _) (Draft.exportAll_dress ..)
  | some _, e :: _, _ =>
      have hspan := Expr.dress_span (g := g) e
      exact .error (hspan ▸ .malformed ..)
  | some _, [], _ :: _ => exact .malformed

/-- A field that only concerns the draft leaves the bodies as they are. -/
theorem agree_onDraft {step : Draft → Node → Except CompileError Draft} {n : Node}
    (h : Agree g (Draft.dress g) (step p.draft n) (step (p.draft.dress g) (n.dress g))) :
    Agree g (dress g) (p.onDraft step n) ((p.dress g).onDraft step (n.dress g)) :=
  h.map fun _ => rfl

/-- A field is declared in any guise as it is. -/
theorem agree_declare [HexReader] (e : Expr) : Agree g (dress g) (p.declare e)
    ((p.dress g).declare (e.dress g)) := by
  unfold declare
  rw [Expr.dress_node?, Expr.dress_span]
  cases e.node? with
  | none => exact .malformed
  | some n =>
      simp only [Option.map_some, Node.dress_instr]
      split
      · exact .ok p
      · exact p.agree_onDraft (Draft.agree_declareImport ..)
      · exact p.agree_declareFunction n
      · exact p.agree_onDraft (Draft.agree_declareMemory ..)
      · exact p.agree_onDraft (Draft.agree_declareTable ..)
      · exact p.agree_onDraft (Draft.agree_declareGlobal ..)
      · exact p.agree_onDraft (Draft.agree_declareExport ..)
      · exact p.agree_onDraft (Draft.agree_declareElement ..)
      · exact p.agree_onDraft (Draft.agree_declareData ..)
      · exact p.agree_onDraft (Draft.agree_declareStart ..)
      · exact .malformed

end Progress

/-! ## Modules -/

/-- **A body compiles in every guise to the same code.** -/
theorem agree_compileBody [HexReader] (d : Draft) (b : DeferredBody) :
    Agree g (Draft.dress g) (d.compileBody b) ((d.dress g).compileBody (b.dress g)) := by
  have hlocals : (b.dress g).locals.map (·.type) = b.locals.map (·.type) := by
    simp [DeferredBody.dress, Slot.dress, Function.comp_def]
  have hnames : ((b.dress g).params ++ (b.dress g).locals).map (·.name) =
      renamed g ((b.params ++ b.locals).map (·.name)) := by
    simp [DeferredBody.dress, Slot.dress, renamed, Function.comp_def]
  unfold Draft.compileBody
  rw [hlocals, hnames]
  have htyping := Draft.agree_typing (g := g) d
    (agree_compileAll ⟨d.names, (b.params ++ b.locals).map (·.name), []⟩ b.body)
  exact htyping.bind fun r => .ok (r.2.setCode b.index _)

/-- A module form is gone through three times, and each time the draft is
the same in the other guise. -/
theorem agree_draftOfNode [HexReader] (n : Node) :
    Agree g (Draft.dress g) (Draft.ofNode n) (Draft.ofNode (n.dress g)) := by
  have htypes : (n.dress g).childNodes.filter (·.instr = "type") =
      (n.childNodes.filter (·.instr = "type")).map (·.dress g) := by
    rw [Node.dress_childNodes, List.filter_map]
    rfl
  unfold Draft.ofNode
  rw [htypes, Node.dress_children]
  by_cases hmodule : n.instr = "module"
  · have hdress : (n.dress g).instr = "module" := hmodule
    rw [if_pos hmodule, if_pos hdress]
    have htype := Agree.foldlM (g := g) (h := Draft.dress g) (f := Node.dress g)
      (fun d c (_ : c ∈ n.childNodes.filter (·.instr = "type")) => Draft.agree_declareType d c) .empty
    refine htype.bind fun draft => ?_
    have hdeclare := Agree.foldlM (g := g) (h := Progress.dress g) (f := Expr.dress g)
      (fun p e (_ : e ∈ n.children) => Progress.agree_declare p e) ⟨draft, []⟩
    refine hdeclare.bind fun progress => ?_
    exact Agree.foldlM (fun d b _ => agree_compileBody d b) progress.draft
  · have hdress : (n.dress g).instr ≠ "module" := hmodule
    rw [if_neg hmodule, if_neg hdress]
    exact .malformed

/-- **A module compiles in any guise as it does**: to the same bytes, or
not at all. -/
theorem agree_compile [HexReader] (n : Node) : Agree g id n.compile (n.dress g).compile :=
  (agree_draftOfNode n).bind fun d => d.agree_build

end WasmText
