import WasmText.Proofs.Instruction.Numbering
import WasmText.Proofs.Layout
import WasmText.Proofs.Module.Census
import WasmText.Proofs.Module.Groups
/-!
# Inline imports and exports

An `import` or `export` form inside a field abbreviates a field of its
own: the import describes the function, and the exports follow it and
refer to it by index. A field and what it abbreviates bring the draft from
any state to the same one (`Progress.foldlM_declare_unfolds`), so a module
may be unfolded anywhere and compiles to the same bytes
(`abbreviations_unfold`).
-/

namespace WasmText

/-! ## What a field abbreviates -/

/-- A reference to a thing by its kind and its decimal index. -/
def ExportKind.reference (kind : ExportKind) (i : Nat) (span : Span) : Expr :=
  .node ⟨kind.word, none, [⟨.number (toString i), span⟩], span⟩ []

namespace Node

/-- The `export` forms inside a field. -/
def exportsInside (field : Node) : List Node := field.childNodes.filter (·.instr = "export")

/-- The fields for the `export` forms inside a field that declares the
thing of the given kind and index. -/
def exportFields (field : Node) (kind : ExportKind) (i : Nat) : List Expr :=
  field.exportsInside.map fun form => .node form.toHead [kind.reference i form.span]

/-- A field without the exports inside. -/
def unexported (field : Node) : Node :=
  ⟨field.toHead, field.children.filter (!·.isNode "export")⟩

/-- The field for an `import` form inside a function, with the function and
its signature inside the form instead. -/
def importField (field form : Node) : Expr :=
  .node form.toHead [.node { field.toHead with params := [] } field.signature]

variable {field form : Node}

theorem instr_of_mem_exportsInside (h : form ∈ field.exportsInside) : form.instr = "export" :=
  of_decide_eq_true (List.mem_filter.1 h).2

theorem instr_of_importsInside (h : field.importsInside = [form]) : form.instr = "import" := by
  have hmem : form ∈ field.importsInside := h ▸ List.mem_singleton_self form
  exact of_decide_eq_true (List.mem_filter.1 hmem).2

end Node

/-- A field as it is, or what it abbreviates: the field and then its
exports, or for a function with one import inside the import and then the
exports. The index that a field of each kind would be given is told from
outside, and exports are numbered by it if it can be written. -/
inductive Expr.Unfolds (index : ExportKind → Nat) : Expr → List Expr → Prop where
  | same (e : Expr) : Unfolds index e [e]
  | exports {field : Node} {kind : ExportKind} (hkind : ExportKind.ofWord? field.instr = some kind)
      (hlt : field.exportsInside ≠ [] → index kind < 2 ^ 32) :
    Unfolds index field.toExpr (field.unexported.toExpr :: field.exportFields kind (index kind))
  | imported {field form : Node} (hinstr : field.instr = "func")
      (hform : field.importsInside = [form])
      (hlt : field.exportsInside ≠ [] → index .function < 2 ^ 32) :
    Unfolds index field.toExpr
      (field.importField form :: field.exportFields .function (index .function))

/-- Fields of which any may be unfolded, behind fields that have added
things of the given kinds. The index of a field is how many of its kind
there are before it. -/
inductive Expr.UnfoldsAll : List ExportKind → List Expr → List Expr → Prop where
  | nil (kinds : List ExportKind) : UnfoldsAll kinds [] []
  | cons {kinds : List ExportKind} {e : Expr} {fields es es' : List Expr}
      (hfield : e.Unfolds kinds.count fields)
      (hrest : UnfoldsAll (kinds ++ (e.node?.bind Node.addedKind?).toList) es es') :
    UnfoldsAll kinds (e :: es) (fields ++ es')

/-- A module form of which any field may be unfolded. -/
structure Node.Unfolds (n n' : Node) : Prop where
  instr : n'.instr = n.instr
  fields : Expr.UnfoldsAll [] n.children n'.children

/-! ## Exports -/

theorem ExportKind.word_of_ofWord? {word : String} {kind : ExportKind}
    (h : ofWord? word = some kind) : kind.word = word := by
  simpa using List.find?_some h

theorem ExportKind.ofWord?_word (kind : ExportKind) : ofWord? kind.word = some kind := by
  cases kind <;> rfl

namespace Progress

variable {p q : Progress} {field form : Node} {kind : ExportKind} {i : Nat}

theorem declare_exportField [HexReader] {name : String} (hinstr : form.instr = "export")
    (hname : form.publicName = .ok name) (hlt : i < 2 ^ 32) :
    p.declare (.node form.toHead [kind.reference i form.span]) =
      .ok ⟨p.draft.addExport ⟨name, kind, .index i form.span⟩, p.bodies⟩ := by
  have htarget : Target.ofHead ⟨kind.word, none, [⟨.number (toString i), form.span⟩], form.span⟩ =
      .ok (.index i form.span) :=
    bind_eq_ok.2 ⟨i, Literal.readNatural_eq_ok.2 (Literal.natural?_toString hlt), rfl⟩
  have hexport : p.draft.declareExport ⟨form.toHead, [kind.reference i form.span]⟩ =
      .ok (p.draft.addExport ⟨name, kind, .index i form.span⟩) := by
    refine bind_eq_ok.2 ⟨name, hname, ?_⟩
    simp only [Node.childNodes, ExportKind.reference, List.filterMap_cons, Expr.node?,
      List.filterMap_nil, List.head?_cons, kind.ofWord?_word]
    exact bind_eq_ok.2 ⟨_, htarget, rfl⟩
  simp only [declare, Expr.node?, hinstr]
  exact onDraft_eq_ok.2 ⟨_, hexport, rfl⟩

/-- **The fields for exports** export what the forms inside do. -/
theorem foldlM_exportFields [HexReader] {exports : List (String × Span)}
    (hexports : Draft.inlineExports field = .ok exports)
    (hlt : field.exportsInside ≠ [] → i < 2 ^ 32) (p : Progress) :
    (field.exportFields kind i).foldlM declare p =
      .ok ⟨p.draft.exportAll kind i exports, p.bodies⟩ := by
  have hall : ∀ form ∈ field.exportsInside, form.instr = "export" := fun form hform =>
    Node.instr_of_mem_exportsInside hform
  have hread := mapM_eq_ok.1 hexports
  rw [Node.exportFields]
  change List.Forall₂ _ field.exportsInside exports at hread
  clear hexports
  generalize field.exportsInside = forms at hread hall hlt
  induction hread generalizing p with
  | nil => rfl
  | @cons form e forms exports hform _ ih =>
      obtain ⟨name, hname, hform⟩ := bind_eq_ok.1 hform
      obtain rfl := pure_eq_ok.1 hform
      obtain ⟨hinstr, hforms⟩ := List.forall_mem_cons.1 hall
      have hi : i < 2 ^ 32 := hlt (List.cons_ne_nil _ _)
      rw [List.map_cons, List.foldlM_cons, declare_exportField hinstr hname hi]
      exact ih _ hforms fun _ => hi

end Progress

/-! ## Fields without their exports -/

theorem Node.unexported_hasChild (field : Node) : field.unexported.hasChild "export" = false := by
  rw [hasChild_eq_any, List.any_eq_false]
  intro e he
  simpa using (List.mem_filter.1 he).2

/-- No other form is left out. -/
theorem Node.unexported_child? (field : Node) {name : String} (hname : name ≠ "export") :
    field.unexported.child? name = field.child? name := by
  rw [child?_eq, child?_eq, unexported, List.find?_filter]
  congr 2
  funext e
  cases e with
  | ref => rfl
  | data => rfl
  | node head children =>
      by_cases h : head.instr = name
      · simp [Expr.isNode, h, hname]
      · simp [Expr.isNode, h]

namespace Draft

variable {head : Head} {es : List Expr}

theorem inlineExports_cons_export {form : Node} (hinstr : form.instr = "export") :
    inlineExports ⟨head, form.toExpr :: es⟩ = (do
      let name ← form.publicName
      let rest ← inlineExports ⟨head, es⟩
      return (name, form.span) :: rest) := by
  have hforms : (Node.childNodes ⟨head, form.toExpr :: es⟩).filter (·.instr = "export") =
      form :: (Node.childNodes ⟨head, es⟩).filter (·.instr = "export") := by
    simp [Node.childNodes, Node.toExpr, Expr.node?, hinstr]
  rw [inlineExports, hforms, List.mapM_cons]
  cases form.publicName <;> rfl

theorem inlineExports_cons_other {e : Expr} (h : e.isNode "export" = false) :
    inlineExports ⟨head, e :: es⟩ = inlineExports ⟨head, es⟩ := by
  unfold inlineExports
  cases e with
  | ref => rfl
  | data => rfl
  | node head' children =>
      have hother : ¬ head'.instr = "export" := by simpa [Expr.isNode] using h
      simp [Node.childNodes, Expr.node?, hother]

end Draft

/-- **A function without its exports** is read the same but for them, and
they are read as those of any other field. -/
theorem FunctionField.ofNode_unexported {field : Node} {f : FunctionField}
    (h : ofNode field = .ok f) :
    ofNode field.unexported = .ok { f with exports := [] } ∧
      Draft.inlineExports field = .ok f.exports := by
  obtain ⟨head, children⟩ := field
  -- one form after the other: an export goes only to the second list, all else only to the first
  induction children generalizing f with
  | nil =>
      obtain rfl := pure_eq_ok.1 h
      exact ⟨rfl, rfl⟩
  | cons e es ih =>
      rw [ofNode_cons] at h
      obtain ⟨first, hfirst, h⟩ := bind_eq_ok.1 h
      obtain ⟨rest, hrest, h⟩ := bind_eq_ok.1 h
      obtain rfl := pure_eq_ok.1 h
      obtain ⟨hothers, hexports⟩ := ih hrest
      cases hexport : e.isNode "export" with
      | true =>
          have hleft : Node.unexported ⟨head, e :: es⟩ = Node.unexported ⟨head, es⟩ :=
            congrArg (Node.mk head) (List.filter_cons_of_neg (by simp [hexport]))
          rw [hleft, hothers]
          cases e with
          | ref => cases hexport
          | data => cases hexport
          | node head' children =>
              have hinstr : head'.instr = "export" := eq_of_beq hexport
              simp only [ofChild, Expr.node?, hinstr] at hfirst
              obtain ⟨name, hname, hfirst⟩ := bind_eq_ok.1 hfirst
              obtain rfl := pure_eq_ok.1 hfirst
              have hread := @Draft.inlineExports_cons_export head es ⟨head', children⟩ hinstr
              refine ⟨congrArg Except.ok (by simp [beside, empty]), hread.trans ?_⟩
              exact bind_eq_ok.2 ⟨name, hname, bind_eq_ok.2 ⟨_, hexports, rfl⟩⟩
      | false =>
          have hnone := exports_of_ofChild hexport hfirst
          have hkept : Node.unexported ⟨head, e :: es⟩ =
              ⟨head, e :: (Node.unexported ⟨head, es⟩).children⟩ :=
            congrArg (Node.mk head) (List.filter_cons_of_pos (by simp [hexport]))
          rw [hkept, ofNode_cons, Draft.inlineExports_cons_other hexport]
          refine ⟨bind_eq_ok.2 ⟨first, hfirst, bind_eq_ok.2 ⟨_, hothers, ?_⟩⟩, ?_⟩
          · exact congrArg Except.ok (by simp [beside, hnone])
          · simpa [beside, hnone] using hexports

/-- A function without its exports has the same type. -/
theorem FunctionField.resolveType_unexported (f : FunctionField) (names : Names)
    (table : TypeTable) (field : Node) :
    FunctionField.resolveType { f with exports := [] } names table field.unexported =
      f.resolveType names table field := by
  rw [resolveType, resolveType, field.unexported_child? (by decide)]
  rfl

/-- A draft to which the exports inside a field were added, for the thing
that was to come next of its kind. -/
def Draft.Exported (d r d' : Draft) (field : Node) (kind : ExportKind) : Prop :=
  ∃ exports, inlineExports field = .ok exports ∧ d' = r.exportAll kind (d.count kind.space) exports

namespace Draft

variable {d d' : Draft} {n : Node}

theorem index_of_importFunction {name : Option String} {module field : String} {type index : Nat}
    {span : Span} (h : d.importFunction name module field type span = .ok (index, d')) :
    index = d.functions.length := by
  unfold importFunction at h
  split at h
  next => cases h
  next =>
    cases h
    rfl

/-- An import that is accepted is accepted wherever it stands. -/
theorem importFunction_elsewhere {name : Option String} {module field : String} {type : Nat}
    {span : Span} {r : Nat × Draft} (h : d.importFunction name module field type span = .ok r)
    (span' : Span) : d.importFunction name module field type span' = .ok r := by
  unfold importFunction at h ⊢
  split at h
  next => cases h
  next hall => rwa [if_neg hall]

theorem declareMemory_unexported (h : d.declareMemory n = .ok d') :
    ∃ r, d.declareMemory n.unexported = .ok r ∧ d.Exported r d' n .memory := by
  obtain ⟨limits, hlimits, h⟩ := bind_eq_ok.1 h
  obtain ⟨⟨index, r⟩, hadd, h⟩ := bind_eq_ok.1 h
  obtain ⟨exports, hexports, h⟩ := bind_eq_ok.1 h
  obtain rfl := pure_eq_ok.1 h
  have hbare : d.declareMemory n.unexported = .ok r :=
    bind_eq_ok.2 ⟨limits, hlimits, bind_eq_ok.2 ⟨_, hadd, bind_eq_ok.2
      ⟨[], inlineExports_eq n.unexported_hasChild, rfl⟩⟩⟩
  refine ⟨r, hbare, exports, hexports, ?_⟩
  unfold addMemory at hadd
  split at hadd
  next => cases hadd
  next =>
    cases hadd
    rfl

theorem declareTable_unexported (h : d.declareTable n = .ok d') :
    ∃ r, d.declareTable n.unexported = .ok r ∧ d.Exported r d' n .table := by
  obtain ⟨limits, hlimits, h⟩ := bind_eq_ok.1 h
  obtain ⟨exports, hexports, h⟩ := bind_eq_ok.1 h
  obtain rfl := pure_eq_ok.1 h
  exact ⟨_, bind_eq_ok.2 ⟨limits, hlimits, bind_eq_ok.2
    ⟨[], inlineExports_eq n.unexported_hasChild, rfl⟩⟩, exports, hexports, rfl⟩

theorem declareGlobal_unexported [HexReader] (h : d.declareGlobal n = .ok d') :
    ∃ r, d.declareGlobal n.unexported = .ok r ∧ d.Exported r d' n .global := by
  have hchildren : n.unexported.children.filter (!·.isNode "export") =
      n.children.filter (!·.isNode "export") := by
    simp [Node.unexported]
  unfold declareGlobal at h ⊢
  rw [hchildren]
  split at h
  next => exact absurd h throw_ne_ok
  next e es heq =>
    obtain ⟨type, htype, h⟩ := bind_eq_ok.1 h
    obtain ⟨⟨init, d₁⟩, hinit, h⟩ := bind_eq_ok.1 h
    obtain ⟨exports, hexports, h⟩ := bind_eq_ok.1 h
    obtain rfl := pure_eq_ok.1 h
    have hcount : d₁.count .global = d.count .global := (adds_constant hinit).count .global
    refine ⟨_, bind_eq_ok.2 ⟨type, htype, bind_eq_ok.2 ⟨_, hinit, bind_eq_ok.2
      ⟨[], inlineExports_eq n.unexported_hasChild, rfl⟩⟩⟩, exports, hexports, ?_⟩
    rw [ExportKind.space, ← hcount]
    rfl

end Draft

namespace Progress

variable {p q r : Progress} {field form : Node} {kind : ExportKind}

/-- The same of the draft so far, with the bodies put aside as they are. -/
def Exported (p r q : Progress) (field : Node) (kind : ExportKind) : Prop :=
  p.draft.Exported r.draft q.draft field kind ∧ q.bodies = r.bodies

/-- The fields for the exports lead on to where the field itself does. -/
theorem Exported.foldlM [HexReader] (h : p.Exported r q field kind)
    (hlt : field.exportsInside ≠ [] → p.draft.count kind.space < 2 ^ 32) :
    (field.exportFields kind (p.draft.count kind.space)).foldlM declare r = .ok q := by
  obtain ⟨⟨exports, hexports, hdraft⟩, hbodies⟩ := h
  rw [foldlM_exportFields hexports hlt, ← hdraft, ← hbodies]

theorem onDraft_unexported {step : Draft → Node → Except CompileError Draft}
    (hstep : ∀ {d d'}, step d field = .ok d' →
      ∃ r, step d field.unexported = .ok r ∧ d.Exported r d' field kind)
    (h : p.onDraft step field = .ok q) :
    ∃ r, p.onDraft step field.unexported = .ok r ∧ p.Exported r q field kind := by
  obtain ⟨d, hd, rfl⟩ := onDraft_eq_ok.1 h
  obtain ⟨r, hr, hexported⟩ := hstep hd
  exact ⟨_, onDraft_eq_ok.2 ⟨r, hr, rfl⟩, hexported, rfl⟩

theorem declareFunction_unexported (h : p.declareFunction field = .ok q) :
    ∃ r, p.declareFunction field.unexported = .ok r ∧ p.Exported r q field .function := by
  obtain ⟨f, hf, h⟩ := bind_eq_ok.1 h
  obtain ⟨⟨type, params, types⟩, htype, h⟩ := bind_eq_ok.1 h
  obtain ⟨hbare, hexports⟩ := FunctionField.ofNode_unexported hf
  rw [← FunctionField.resolveType_unexported] at htype
  dsimp only at h
  cases horigin : f.origin with
  | none =>
      rw [horigin] at h
      obtain rfl := pure_eq_ok.1 h
      let added := Draft.addFunction { p.draft with types } field.label? type
      refine ⟨⟨added.2, p.bodies ++ [⟨added.1, params, f.locals, f.body⟩]⟩,
        bind_eq_ok.2 ⟨_, hbare, bind_eq_ok.2 ⟨_, htype, ?_⟩⟩, ⟨_, hexports, rfl⟩, rfl⟩
      simp only [horigin]
      rfl
  | some origin =>
      rw [horigin] at h
      dsimp only at h
      split at h
      next hbody hlocals =>
        obtain ⟨⟨index, r⟩, himport, h⟩ := bind_eq_ok.1 h
        obtain rfl := pure_eq_ok.1 h
        obtain rfl := Draft.index_of_importFunction himport
        refine ⟨⟨r, p.bodies⟩, bind_eq_ok.2 ⟨_, hbare, bind_eq_ok.2 ⟨_, htype, ?_⟩⟩,
          ⟨_, hexports, rfl⟩, rfl⟩
        simp only [horigin, hbody, hlocals]
        exact bind_eq_ok.2 ⟨_, himport, rfl⟩
      next => exact absurd h throw_ne_ok
      next => exact absurd h throw_ne_ok

/-- **A field without its exports** is declared the same but for them. -/
theorem declare_unexported [HexReader] (hkind : ExportKind.ofWord? field.instr = some kind)
    (h : p.declare field.toExpr = .ok q) :
    ∃ r, p.declare field.unexported.toExpr = .ok r ∧ p.Exported r q field kind := by
  have hinstr := ExportKind.word_of_ofWord? hkind
  have hbare : field.unexported.instr = field.instr := rfl
  cases kind with
  | function =>
      simp only [declare, Node.toExpr, Expr.node?, hbare, ← hinstr, ExportKind.word] at h ⊢
      exact declareFunction_unexported h
  | table =>
      simp only [declare, Node.toExpr, Expr.node?, hbare, ← hinstr, ExportKind.word] at h ⊢
      exact onDraft_unexported Draft.declareTable_unexported h
  | memory =>
      simp only [declare, Node.toExpr, Expr.node?, hbare, ← hinstr, ExportKind.word] at h ⊢
      exact onDraft_unexported Draft.declareMemory_unexported h
  | global =>
      simp only [declare, Node.toExpr, Expr.node?, hbare, ← hinstr, ExportKind.word] at h ⊢
      exact onDraft_unexported Draft.declareGlobal_unexported h

end Progress

/-! ## Functions as imports -/

/-- Types that can be read all together can be read form by form. -/
theorem Node.exists_listOf {n form : Node} {types : List ValType}
    (h : n.typesOf? form.instr = some types) (hform : form ∈ n.childNodes) :
    ∃ types, ValType.listOf form = .ok types := by
  refine exists_mapM_eq_ok fun e he => ?_
  have hmem : e ∈ (n.childNodes.filter (·.instr = form.instr)).flatMap (·.children) :=
    List.mem_flatMap.2 ⟨form, List.mem_filter.2 ⟨hform, by simp⟩, he⟩
  obtain ⟨k, hk⟩ := List.getElem?_of_mem hmem
  obtain ⟨type, htype, -⟩ := exists_of_getElem?_mapM h hk
  cases hread : ValType.ofExpr e with
  | error => simp [hread, Except.toOption] at htype
  | ok type => exact ⟨type, rfl⟩

namespace FunctionField.Reads

variable {n : Node} {f : FunctionField} (hf : f.Reads n)

include hf

theorem exists_part {form : Node} (hform : form ∈ n.childNodes) :
    ∃ part, Signature.part form = .ok part := by
  unfold Signature.part
  by_cases hparam : form.instr = "param"
  · obtain ⟨types, htypes⟩ := Node.exists_listOf (hparam ▸ hf.paramTypes) hform
    rw [if_pos hparam]
    exact ⟨_, bind_eq_ok.2 ⟨types, htypes, rfl⟩⟩
  rw [if_neg hparam]
  by_cases hresult : form.instr = "result"
  · obtain ⟨types, htypes⟩ := Node.exists_listOf (hresult ▸ hf.results) hform
    rw [if_pos hresult]
    exact ⟨_, bind_eq_ok.2 ⟨types, htypes, rfl⟩⟩
  · rw [if_neg hresult]
    exact ⟨none, rfl⟩

/-- **What a function spells out** is also what its form is read to spell
out. -/
theorem spelled_eq : Signature.spelled n = .ok f.signature? := by
  obtain ⟨beside, hbeside⟩ : ∃ beside, Signature.spelled n = .ok beside := by
    obtain ⟨parts, hparts⟩ := exists_mapM_eq_ok fun form hform => hf.exists_part hform
    rw [Signature.spelled, hparts]
    cases hempty : (parts.filterMap id).isEmpty with
    | true => exact ⟨none, by simp only [bind, Except.bind, hempty]; rfl⟩
    | false => exact ⟨some _, by simp only [bind, Except.bind, hempty]; rfl⟩
  -- both are there under the same condition, and then they are the same
  have hsome := Signature.isSome_of_spelled hbeside
  have hwritten := Signature.spelled_eq_ok hbeside
  rw [hf.signature?, Option.some.injEq] at hwritten
  rw [← hf.spelled] at hsome
  rw [hbeside]
  unfold FunctionField.signature? at hwritten ⊢
  cases beside with
  | none => rw [if_neg (by simpa using hsome.symm)]
  | some type =>
      rw [if_pos (by simpa using hsome.symm)] at hwritten ⊢
      exact congrArg (Except.ok ∘ some) hwritten.symm

/-- **The type of a function** is that of its form, registered or referred
to in the same way. -/
theorem intern_eq {names : Names} {table table' : TypeTable} {index : Nat} {params : List Slot}
    (h : f.resolveType names table n = .ok (index, params, table')) :
    Signature.intern names table n = .ok (index, table') := by
  unfold resolveType at h
  split at h
  next use huse =>
    obtain ⟨i, hi, h⟩ := bind_eq_ok.1 h
    have hread : Signature.ofNode names table n = .ok ((table.at? i).getD .empty, some i) :=
      bind_eq_ok.2 ⟨_, hf.spelled_eq, by rw [huse]; exact bind_eq_ok.2 ⟨i, hi, rfl⟩⟩
    have hsame : (i, table) = (index, table') := by
      split at h
      next =>
        cases pure_eq_ok.1 h
        rfl
      next =>
        cases pure_eq_ok.1 h
        rfl
    exact bind_eq_ok.2 ⟨_, hread, congrArg Except.ok hsame⟩
  next hnone =>
    have hread : Signature.ofNode names table n = .ok (f.signature?.getD .empty, none) :=
      bind_eq_ok.2 ⟨_, hf.spelled_eq, by rw [hnone]; rfl⟩
    cases pure_eq_ok.1 h
    exact bind_eq_ok.2 ⟨_, hread, rfl⟩

end FunctionField.Reads

namespace Progress

variable {p q : Progress} {field form : Node}

/-- **A function with one import inside** is declared as the import of a
function with its signature, but for the exports. -/
theorem declare_importField [HexReader] (hinstr : field.instr = "func")
    (hform : field.importsInside = [form]) (h : p.declare field.toExpr = .ok q) :
    ∃ r, p.declare (field.importField form) = .ok r ∧ p.Exported r q field .function := by
  have himport := Node.instr_of_importsInside hform
  simp only [declare, Node.toExpr, Expr.node?, hinstr] at h
  obtain ⟨f, hf, h⟩ := bind_eq_ok.1 h
  obtain ⟨⟨type, params, types⟩, htype, h⟩ := bind_eq_ok.1 h
  have horigin := FunctionField.origin_of_ofNode hf
  rw [hform, List.getLast?_singleton] at horigin
  have hintern := (FunctionField.ofNode_reads hf).intern_eq htype
  have hexports := (FunctionField.ofNode_unexported hf).2
  let desc : Node := ⟨{ field.toHead with params := [] }, field.signature⟩
  have hsignature : Signature.intern p.draft.names p.draft.types desc = .ok (type, types) := by
    rw [← hintern, Signature.intern, Signature.intern,
      Signature.ofNode_congr (show desc.signature = field.signature from field.filter_signature)]
  dsimp only at h
  generalize f.origin = origin at horigin h
  cases horigin with
  | @some _ origin hnames =>
      obtain ⟨module, name, span⟩ := origin
      dsimp only at h
      split at h
      next =>
        obtain ⟨⟨index, r⟩, hadd, h⟩ := bind_eq_ok.1 h
        obtain rfl := pure_eq_ok.1 h
        obtain rfl := Draft.index_of_importFunction hadd
        -- the two forms refuse an import at different places, so only success carries over
        have hdeclare : p.draft.declareImport ⟨form.toHead, [.node desc.toHead desc.children]⟩ =
            .ok r := by
          refine bind_eq_ok.2 ⟨_, hnames.1, ?_⟩
          simp only [Node.childNodes, List.filterMap_cons, Expr.node?, List.filterMap_nil,
            List.head?_cons, show desc.instr = "func" from hinstr]
          exact bind_eq_ok.2 ⟨_, hsignature, bind_eq_ok.2
            ⟨_, Draft.importFunction_elsewhere hadd _, rfl⟩⟩
        refine ⟨⟨r, p.bodies⟩, ?_, ⟨_, hexports, rfl⟩, rfl⟩
        simp only [declare, Node.importField, Expr.node?, himport]
        exact onDraft_eq_ok.2 ⟨_, hdeclare, rfl⟩
      next => exact absurd h throw_ne_ok
      next => exact absurd h throw_ne_ok

/-! ## All fields -/

/-- **A field and what it abbreviates** do the same from any state. -/
theorem declare_unfolds [HexReader] {e : Expr} {fields : List Expr}
    (hu : e.Unfolds (fun kind => p.draft.count kind.space) fields) (h : p.declare e = .ok q) :
    fields.foldlM declare p = .ok q := by
  cases hu with
  | same => exact bind_eq_ok.2 ⟨q, h, rfl⟩
  | exports hkind hlt =>
      obtain ⟨r, hr, hexported⟩ := declare_unexported hkind h
      exact bind_eq_ok.2 ⟨r, hr, hexported.foldlM hlt⟩
  | imported hinstr hform hlt =>
      obtain ⟨r, hr, hexported⟩ := declare_importField hinstr hform h
      exact bind_eq_ok.2 ⟨r, hr, hexported.foldlM hlt⟩

/-- **Fields and what they abbreviate** do the same, from a state that
holds as many things of each kind as are counted. -/
theorem foldlM_declare_unfolds [HexReader] {kinds : List ExportKind} {es es' : List Expr}
    (hu : Expr.UnfoldsAll kinds es es')
    (hcount : ∀ kind : ExportKind, p.draft.count kind.space = kinds.count kind)
    (h : es.foldlM declare p = .ok q) : es'.foldlM declare p = .ok q := by
  induction hu generalizing p with
  | nil => exact h
  | @cons kinds e fields es es' hfield _ ih =>
      obtain ⟨r, hr, h⟩ := bind_eq_ok.1 h
      obtain ⟨n, hnode, imports, hadds, -⟩ := addsFor_of_declare hr
      -- the indices that the rest is numbered by count what the field itself has added
      have hkinds : (fun kind : ExportKind => p.draft.count kind.space) = kinds.count :=
        funext hcount
      have hrest : ∀ kind : ExportKind, r.draft.count kind.space =
          (kinds ++ (e.node?.bind Node.addedKind?).toList).count kind := by
        intro kind
        rw [hadds.count, hcount, List.count_append, hnode, Option.bind_some]
        cases hkind : n.addedKind? <;> simp [hkind]
      rw [List.foldlM_append, declare_unfolds (hkinds ▸ hfield) hr]
      exact ih hrest h

end Progress

/-! ## Modules -/

namespace Expr

theorem no_types_of_exportFields (field : Node) (kind : ExportKind) (i : Nat) :
    ((field.exportFields kind i).filterMap node?).filter (·.instr = "type") = [] := by
  refine List.filter_eq_nil_iff.2 fun m hm => ?_
  obtain ⟨e, he, hnode⟩ := List.mem_filterMap.1 hm
  obtain ⟨form, hform, rfl⟩ := List.mem_map.1 he
  have hinstr := Node.instr_of_mem_exportsInside hform
  obtain rfl := Option.some.inj hnode
  simp [hinstr]

/-- No type field is an abbreviation or unfolded from one. -/
theorem Unfolds.types {index : ExportKind → Nat} {e : Expr} {fields : List Expr}
    (h : e.Unfolds index fields) :
    (fields.filterMap node?).filter (·.instr = "type") =
      ([e].filterMap node?).filter (·.instr = "type") := by
  cases h with
  | same => rfl
  | @exports field kind hkind =>
      have hinstr : field.instr ≠ "type" := by
        rw [← ExportKind.word_of_ofWord? hkind]
        cases kind <;> decide
      have hbare : field.unexported.instr ≠ "type" := hinstr
      simp [Node.toExpr, node?, no_types_of_exportFields, hinstr, hbare]
  | @imported field form hinstr hform =>
      have himport := Node.instr_of_importsInside hform
      simp [Node.toExpr, Node.importField, node?, no_types_of_exportFields, hinstr, himport]

theorem UnfoldsAll.types {kinds : List ExportKind} {es es' : List Expr}
    (h : UnfoldsAll kinds es es') : (es'.filterMap node?).filter (·.instr = "type") =
      (es.filterMap node?).filter (·.instr = "type") := by
  induction h with
  | nil => rfl
  | @cons kinds e fields es es' hfield _ ih =>
      rw [List.filterMap_append, List.filter_append, hfield.types, ih, ← List.filter_append,
        ← List.filterMap_append, List.singleton_append]

end Expr

/-- **A module form and one in which fields are unfolded** have the same
draft. -/
theorem Draft.ofNode_unfolds [HexReader] {n n' : Node} {d : Draft} (hu : n.Unfolds n')
    (h : ofNode n = .ok d) :
    ofNode n' = .ok d := by
  obtain ⟨hinstr, progress, hprogress, hbodies⟩ := ofNode_eq_ok.1 h
  obtain ⟨typed, htyped, hfields⟩ := bind_eq_ok.1 hprogress
  have hnone : ∀ kind : ExportKind, typed.count kind.space = [].count kind := fun kind => by
    rw [(adds_types_of_foldlM htyped).count]
    cases kind <;> rfl
  have htyped' : (n'.childNodes.filter (·.instr = "type")).foldlM declareType .empty =
      .ok typed := by
    rw [← htyped]
    exact congrArg (List.foldlM _ _) hu.fields.types
  exact ofNode_eq_ok.2 ⟨hu.instr.trans hinstr, progress,
    bind_eq_ok.2 ⟨typed, htyped', Progress.foldlM_declare_unfolds hu.fields hnone hfields⟩, hbodies⟩

/-- **Inline imports and exports are abbreviations.** In a module form that
compiles, fields are unfolded, any of them: a function with one import
inside to an import of a function with its signature, and the exports
inside a field to fields after it that refer to its index. Then the form
compiles to the same bytes. -/
theorem abbreviations_unfold [HexReader] {n n' : Node} {bytes : List UInt8}
    (h : n.compile = .ok bytes) (hunfolds : n.bare.Unfolds n'.bare) : n'.compile = .ok bytes := by
  rw [← n.compile_bare] at h
  rw [← n'.compile_bare]
  obtain ⟨d, hdraft, hbuild⟩ := bind_eq_ok.1 h
  exact bind_eq_ok.2 ⟨d, Draft.ofNode_unfolds hunfolds hdraft, hbuild⟩

/-- A form that names things to the outside, by one character each. -/
def outwardHead (instr : String) (names : List UInt8) : Head :=
  ⟨instr, none, names.map fun b => ⟨.str [b], .zero⟩, .zero⟩

def sharedParam : Expr := .node (.plain "param" .zero) [.node (.plain "i32" .zero) []]

def sharedCall : Expr := .node ⟨"call", some ⟨"f", .zero⟩, [], .zero⟩
  [.node ⟨"i32.const", none, [⟨.number "7", .zero⟩], .zero⟩ []]

/-- A function that is imported and exported again. -/
def sharedImport : Node := ⟨⟨"func", some ⟨"f", .zero⟩, [], .zero⟩,
  [.node (outwardHead "export" [0x61]) [], sharedParam,
    .node (outwardHead "import" [0x6D, 0x6E]) []]⟩

def sharedMemory : Node := ⟨⟨"memory", none, [⟨.number "1", .zero⟩], .zero⟩,
  [.node (outwardHead "export" [0x62]) [], .node (outwardHead "export" [0x63]) []]⟩

def sharedCaller : Node :=
  ⟨.plain "func" .zero, [.node (outwardHead "export" [0x64]) [], sharedCall]⟩

def sharing : Node :=
  ⟨.plain "module" .zero, [sharedImport.toExpr, sharedMemory.toExpr, sharedCaller.toExpr]⟩

/-- The same with fields for all imports and exports. -/
def sharingUnfolded : Node := ⟨.plain "module" .zero, [
  .node (outwardHead "import" [0x6D, 0x6E])
    [.node ⟨"func", some ⟨"f", .zero⟩, [], .zero⟩ [sharedParam]],
  .node (outwardHead "export" [0x61]) [ExportKind.function.reference 0 .zero],
  .node ⟨"memory", none, [⟨.number "1", .zero⟩], .zero⟩ [],
  .node (outwardHead "export" [0x62]) [ExportKind.memory.reference 0 .zero],
  .node (outwardHead "export" [0x63]) [ExportKind.memory.reference 0 .zero],
  .node (.plain "func" .zero) [sharedCall],
  .node (outwardHead "export" [0x64]) [ExportKind.function.reference 1 .zero]]⟩

def sharingBytes : List UInt8 :=
  [0x00, 0x61, 0x73, 0x6D, 1, 0, 0, 0, 1, 8, 2, 0x60, 1, 0x7F, 0, 0x60, 0, 0,
    2, 7, 1, 1, 0x6D, 1, 0x6E, 0, 0, 3, 2, 1, 1, 5, 3, 1, 0, 1,
    7, 17, 4, 1, 0x61, 0, 0, 1, 0x62, 2, 0, 1, 0x63, 2, 0, 1, 0x64, 0, 1,
    10, 8, 1, 6, 0, 0x41, 7, 0x10, 0, 0x0B]

theorem sharing_unfolds : sharing.Unfolds sharingUnfolded := by
  have hcaller : sharedCaller.toExpr.Unfolds [ExportKind.function, .memory].count
      [.node (.plain "func" .zero) [sharedCall],
        .node (outwardHead "export" [0x64]) [ExportKind.function.reference 1 .zero]] :=
    .exports rfl fun _ => by decide
  have hmemory : sharedMemory.toExpr.Unfolds [ExportKind.function].count
      [.node ⟨"memory", none, [⟨.number "1", .zero⟩], .zero⟩ [],
        .node (outwardHead "export" [0x62]) [ExportKind.memory.reference 0 .zero],
        .node (outwardHead "export" [0x63]) [ExportKind.memory.reference 0 .zero]] :=
    .exports rfl fun _ => by decide
  have hform : sharedImport.importsInside = [⟨outwardHead "import" [0x6D, 0x6E], []⟩] := rfl
  have himport : sharedImport.toExpr.Unfolds [].count
      [.node (outwardHead "import" [0x6D, 0x6E])
          [.node ⟨"func", some ⟨"f", .zero⟩, [], .zero⟩ [sharedParam]],
        .node (outwardHead "export" [0x61]) [ExportKind.function.reference 0 .zero]] :=
    .imported rfl hform fun _ => by decide
  exact ⟨rfl, .cons himport (.cons hmemory (.cons hcaller (.nil _)))⟩

theorem abbreviations_unfold_sharing :
    sharing.compile = .ok sharingBytes ∧ sharingUnfolded.compile = .ok sharingBytes := by
  have hcompile : sharing.compile = .ok sharingBytes := by decide +kernel
  have hbare : sharing.bare = sharing := by
    simp only [Node.bare, Node.dress, sharing, sharedImport, sharedMemory, sharedCaller,
      sharedParam, sharedCall, Node.toExpr, List.map_cons, List.map_nil, Expr.dress_node]
    rfl
  have hbare' : sharingUnfolded.bare = sharingUnfolded := by
    simp only [Node.bare, Node.dress, sharingUnfolded, sharedParam, sharedCall,
      ExportKind.reference, List.map_cons, List.map_nil, Expr.dress_node]
    rfl
  have hunfolds : sharing.bare.Unfolds sharingUnfolded.bare := by
    rw [hbare, hbare']
    exact sharing_unfolds
  exact ⟨hcompile, abbreviations_unfold hcompile hunfolds⟩

end WasmText
