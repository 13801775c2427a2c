import WasmText.Proofs.Module.Fields
/-!
# Groups of fields

The fields of a module fall into groups, and each group builds a part of
the draft: definitions the spaces and their names, exports the exports,
and so on. A field looks at the part of its own group and changes no other
(`Progress.FieldEffect.own`, `Progress.FieldEffect.other`), where
definitions have no export inside and offsets are literals.
-/

namespace WasmText

/-- What fields are for. -/
inductive FieldGroup where
  | types
  | definitions
  | exports
  | elements
  | data
  | start
deriving DecidableEq

/-- The group that a field belongs to. -/
def Node.group? (field : Node) : Option FieldGroup :=
  match field.instr with
  | "type" => some .types
  | "import" | "func" | "memory" | "table" | "global" => some .definitions
  | "export" => some .exports
  | "elem" => some .elements
  | "data" => some .data
  | "start" => some .start
  | _ => none

def Expr.group? (e : Expr) : Option FieldGroup := e.node?.bind Node.group?

/-- Whether a tree is a constant, with nothing but its arguments. -/
def Expr.isLiteral : Expr → Bool
  | .node head [] => head.instr = "i32.const"
  | _ => false

/-- A field that keeps to its group: a definition without exports inside,
or a segment whose offset is a literal. An import has no exports to begin
with. -/
structure Node.Detached (field : Node) : Prop where
  exports : field.instr ∈ ["func", "memory", "table", "global"] → field.hasChild "export" = false
  offset : ∀ es ∈ field.offset? field.instr, field.instr ∈ ["elem", "data"] → es.all Expr.isLiteral

instance (field : Node) : Decidable field.Detached :=
  decidable_of_iff ((field.instr ∈ ["func", "memory", "table", "global"] →
      field.hasChild "export" = false) ∧
    ∀ es ∈ field.offset? field.instr, field.instr ∈ ["elem", "data"] → es.all Expr.isLiteral)
    ⟨fun h => ⟨h.1, h.2⟩, fun h => ⟨h.exports, h.offset⟩⟩

/-! ## Definitions collect nothing -/

namespace Draft

variable {d d' : Draft} {n : Node}

/-- What a draft has collected for the end. -/
def outward (d : Draft) : Outward := ⟨d.exports, d.start, d.elements, d.data⟩

theorem outward_bind (d : Draft) (space : Space) (name : Option String) (index : Nat) :
    (d.bind space name index).outward = d.outward := by
  cases name <;> rfl

theorem outward_importFunction {name : Option String} {module field : String} {type index : Nat}
    {span : Span} (h : d.importFunction name module field type span = .ok (index, d')) :
    d'.outward = d.outward := by
  unfold importFunction at h
  split at h
  · cases h
  · obtain ⟨-, rfl⟩ := Prod.mk.inj (Except.ok.inj h)
    exact outward_bind _ _ _ _

theorem outward_importMemory {name : Option String} {module field : String} {limits : Limits}
    {index : Nat} {span : Span} (h : d.importMemory name module field limits span = .ok (index, d')) :
    d'.outward = d.outward := by
  unfold importMemory at h
  split at h
  · cases h
  · obtain ⟨-, rfl⟩ := Prod.mk.inj (Except.ok.inj h)
    exact outward_bind _ _ _ _

theorem outward_importGlobal {name : Option String} {module field : String} {type : GlobalType}
    {index : Nat} {span : Span} (h : d.importGlobal name module field type span = .ok (index, d')) :
    d'.outward = d.outward := by
  unfold importGlobal at h
  split at h
  · cases h
  · obtain ⟨-, rfl⟩ := Prod.mk.inj (Except.ok.inj h)
    exact outward_bind _ _ _ _

theorem outward_addMemory {name : Option String} {limits : Limits} {index : Nat} {span : Span}
    (h : d.addMemory name limits span = .ok (index, d')) : d'.outward = d.outward := by
  unfold addMemory at h
  split at h
  · cases h
  · obtain ⟨-, rfl⟩ := Prod.mk.inj (Except.ok.inj h)
    exact outward_bind _ _ _ _

/-- A constant expression may register types, but collects nothing. -/
theorem outward_constant [HexReader] {es : List Expr} {bytes : List UInt8}
    (h : d.constant es = .ok (bytes, d')) : d'.outward = d.outward := by
  obtain ⟨⟨instrs, d₁⟩, htyping, h⟩ := bind_eq_ok.1 h
  obtain ⟨rfl, rfl⟩ := Prod.mk.inj (pure_eq_ok.1 h)
  obtain ⟨types, -, rfl⟩ := typing_eq_ok.1 htyping
  rfl

/-- An import collects nothing, since exports are no part of it. -/
theorem outward_declareImport (h : d.declareImport n = .ok d') : d'.outward = d.outward := by
  obtain ⟨⟨module, field⟩, -, h⟩ := bind_eq_ok.1 h
  cases hdesc : n.childNodes.head? with
  | none =>
      simp only [hdesc] at h
      exact absurd h throw_ne_ok
  | some desc =>
      simp only [hdesc] at h
      split at h
      · obtain ⟨⟨type, types⟩, -, h⟩ := bind_eq_ok.1 h
        obtain ⟨⟨index, d₁⟩, himport, h⟩ := bind_eq_ok.1 h
        obtain rfl := pure_eq_ok.1 h
        exact (outward_importFunction himport).trans rfl
      · obtain ⟨limits, -, h⟩ := bind_eq_ok.1 h
        obtain ⟨⟨index, d₁⟩, himport, h⟩ := bind_eq_ok.1 h
        obtain rfl := pure_eq_ok.1 h
        exact outward_importMemory himport
      · split at h
        · exact absurd h throw_ne_ok
        · obtain ⟨type, -, h⟩ := bind_eq_ok.1 h
          obtain ⟨⟨index, d₁⟩, himport, h⟩ := bind_eq_ok.1 h
          obtain rfl := pure_eq_ok.1 h
          exact outward_importGlobal himport
      · exact absurd h throw_ne_ok

/-- A field without exports inside declares none. -/
theorem inlineExports_eq (h : n.hasChild "export" = false) : inlineExports n = .ok [] := by
  have hnone : n.childNodes.filter (·.instr = "export") = [] := by
    rw [Node.hasChild_eq, List.any_eq_false] at h
    exact List.filter_eq_nil_iff.2 fun m hm => by simpa using h m hm
  rw [inlineExports, hnone]
  rfl

/-- A memory collects nothing but the exports inside. -/
theorem outward_declareMemory (hexports : n.hasChild "export" = false)
    (h : d.declareMemory n = .ok d') : d'.outward = d.outward := by
  obtain ⟨limits, -, h⟩ := bind_eq_ok.1 h
  obtain ⟨⟨index, d₁⟩, hadd, h⟩ := bind_eq_ok.1 h
  rw [inlineExports_eq hexports] at h
  obtain rfl := pure_eq_ok.1 h
  exact outward_addMemory hadd

theorem outward_declareTable (hexports : n.hasChild "export" = false)
    (h : d.declareTable n = .ok d') : d'.outward = d.outward := by
  obtain ⟨limits, -, h⟩ := bind_eq_ok.1 h
  rw [inlineExports_eq hexports] at h
  obtain rfl := pure_eq_ok.1 h
  exact outward_bind _ _ _ _

theorem outward_declareGlobal [HexReader] (hexports : n.hasChild "export" = false)
    (h : d.declareGlobal n = .ok d') : d'.outward = d.outward := by
  unfold declareGlobal at h
  split at h
  · exact absurd h throw_ne_ok
  · obtain ⟨type, -, h⟩ := bind_eq_ok.1 h
    obtain ⟨⟨init, d₁⟩, hinit, h⟩ := bind_eq_ok.1 h
    rw [inlineExports_eq hexports] at h
    obtain rfl := pure_eq_ok.1 h
    rw [← outward_constant hinit]
    exact outward_bind _ _ _ _

end Draft

/-- Only an `export` form brings an export. -/
theorem FunctionField.exports_of_ofChild {e : Expr} {f : FunctionField}
    (he : e.isNode "export" = false) (h : ofChild e = .ok f) : f.exports = [] := by
  unfold ofChild at h
  split at h
  · obtain rfl := pure_eq_ok.1 h
    rfl
  next n hnode =>
    split at h
    · obtain rfl := pure_eq_ok.1 h
      rfl
    next hexport =>
      cases e with
      | node head children =>
          obtain rfl := Option.some.inj hnode
          exact absurd hexport (by simpa [Expr.isNode] using he)
      | ref => cases hnode
      | data => cases hnode
    iterate 4
      obtain ⟨_, -, h⟩ := bind_eq_ok.1 h
      obtain rfl := pure_eq_ok.1 h
      rfl
    · obtain rfl := pure_eq_ok.1 h
      rfl

/-- A function field without an export form has no exports. -/
theorem FunctionField.exports_of_ofNode {n : Node} {f : FunctionField}
    (hexports : n.hasChild "export" = false) (h : ofNode n = .ok f) : f.exports = [] := by
  obtain ⟨parts, hparts, h⟩ := bind_eq_ok.1 h
  obtain rfl := pure_eq_ok.1 h
  refine List.flatMap_eq_nil_iff.2 fun part hpart => ?_
  obtain ⟨e, he, hchild⟩ := exists_of_mem_forall₂ (mapM_eq_ok.1 hparts) hpart
  rw [Node.hasChild_eq_any, List.any_eq_false] at hexports
  exact exports_of_ofChild (by simpa using hexports e he) hchild

namespace Progress

variable {p q : Progress} {n : Node}

/-- A function collects nothing but the exports inside. -/
theorem outward_declareFunction (hexports : n.hasChild "export" = false)
    (h : p.declareFunction n = .ok q) : q.draft.outward = p.draft.outward := by
  obtain ⟨f, hf, h⟩ := bind_eq_ok.1 h
  obtain ⟨⟨type, params, types⟩, -, h⟩ := bind_eq_ok.1 h
  rw [FunctionField.exports_of_ofNode hexports hf] at h
  dsimp only at h
  split at h
  · split at h
    · obtain ⟨⟨index, d⟩, himport, h⟩ := bind_eq_ok.1 h
      obtain rfl := pure_eq_ok.1 h
      exact (Draft.outward_importFunction himport).trans rfl
    · exact absurd h throw_ne_ok
    · exact absurd h throw_ne_ok
  · obtain rfl := pure_eq_ok.1 h
    exact Draft.outward_bind _ _ _ _

end Progress

/-! ## Literals -/

/-- A literal compiles to the same everywhere, and registers nothing. -/
theorem compileExpr_literal [HexReader] {e : Expr} (he : e.isLiteral = true) {env : Env}
    {t t' : TypeTable} {instrs : List Instr} (h : compileExpr env e t = .ok instrs t') :
    t' = t ∧ ∀ env t, compileExpr env e t = .ok instrs t := by
  unfold Expr.isLiteral at he
  split at he
  next head =>
    obtain ⟨op, hop, hshape⟩ : ∃ op, Opcode.ofName? head.instr = some op ∧ op.shape = .i32 := by
      rw [of_decide_eq_true he]
      exact ⟨⟨"i32.const", 0x41, .i32⟩, by decide +kernel, rfl⟩
    have hplain : op.shape.IsPlain := by
      rw [hshape]
      exact ⟨by decide, by decide⟩
    obtain ⟨_, operand, hoperands, himmediate, rfl⟩ := (compileExpr_plain_eq_ok hop hplain).1 h
    obtain ⟨rfl, rfl⟩ := compileAll_nil_eq_ok.1 hoperands
    rw [hshape] at himmediate
    refine ⟨rfl, fun env t => (compileExpr_plain_eq_ok hop hplain).2 ?_⟩
    rw [hshape]
    exact ⟨[], operand, compileAll_nil_eq_ok.2 ⟨rfl, rfl⟩, himmediate, rfl⟩
  next => cases he

/-- Literals side by side compile to the same everywhere. -/
theorem compileAll_literal [HexReader] {es : List Expr} (hes : es.all Expr.isLiteral = true)
    {env : Env} {t t' : TypeTable} {instrs : List Instr} (h : compileAll env es t = .ok instrs t') :
    t' = t ∧ ∀ env t, compileAll env es t = .ok instrs t := by
  induction es generalizing t instrs with
  | nil =>
      obtain ⟨rfl, rfl⟩ := compileAll_nil_eq_ok.1 h
      exact ⟨rfl, fun env t => compileAll_nil_eq_ok.2 ⟨rfl, rfl⟩⟩
  | cons e es ih =>
      rw [List.all_cons, Bool.and_eq_true] at hes
      obtain ⟨first, t₁, rest, he, hrest, rfl⟩ := compileAll_cons_eq_ok.1 h
      obtain ⟨rfl, hfirst⟩ := compileExpr_literal hes.1 he
      obtain ⟨rfl, hall⟩ := ih hes.2 hrest
      exact ⟨rfl, fun env t =>
        compileAll_cons_eq_ok.2 ⟨first, t, rest, hfirst env t, hall env t, rfl⟩⟩

namespace Draft

variable {d d' : Draft} {n : Node}

/-- A constant expression of literals is the same for every draft. -/
theorem constant_literal [HexReader] {es : List Expr} (hes : es.all Expr.isLiteral = true)
    {bytes : List UInt8}
    (h : d.constant es = .ok (bytes, d')) : ∀ d : Draft, d.constant es = .ok (bytes, d) := by
  obtain ⟨⟨instrs, d₁⟩, htyping, h⟩ := bind_eq_ok.1 h
  obtain ⟨rfl, rfl⟩ := Prod.mk.inj (pure_eq_ok.1 h)
  obtain ⟨types, hcompile, rfl⟩ := typing_eq_ok.1 htyping
  have hall := (compileAll_literal hes hcompile).2
  exact fun d => bind_eq_ok.2 ⟨(instrs, d), typing_eq_ok.2 ⟨d.types, hall _ _, rfl⟩, rfl⟩

/-- A literal offset is the same for every draft, and leaves it alone. -/
theorem segmentOffset_literal [HexReader] {offset : List UInt8} {rest : List Expr}
    (hoffset : ∀ es ∈ n.offset? n.instr, es.all Expr.isLiteral = true)
    (h : d.segmentOffset n = .ok (offset, rest, d')) :
    ∀ d : Draft, d.segmentOffset n = .ok (offset, rest, d) := by
  unfold segmentOffset at h
  split at h
  next head children rest' hchildren =>
    obtain ⟨⟨bytes, d₁⟩, hconstant, h⟩ := bind_eq_ok.1 h
    obtain ⟨rfl, hpair⟩ := Prod.mk.inj (pure_eq_ok.1 h)
    obtain ⟨rfl, rfl⟩ := Prod.mk.inj hpair
    have hwrapped : n.offset? n.instr =
        some (if head.instr = Keyword.offset.word then children else [.node head children]) := by
      simp [Node.offset?, hchildren]
    have hliteral := hoffset _ hwrapped
    simp only [beq_iff_eq] at hconstant
    intro d
    unfold segmentOffset
    simp only [hchildren, beq_iff_eq]
    exact bind_eq_ok.2 ⟨_, constant_literal hliteral hconstant d, rfl⟩
  next => exact absurd h throw_ne_ok

end Draft

/-! ## What other fields collect -/

/-- One thing that a field collects for the end. -/
inductive Collected where
  | exported (e : Export)
  | element (e : Element)
  | segment (s : Segment UInt8)
  | start (target : Target)

def Collected.group : Collected → FieldGroup
  | exported _ => .exports
  | element _ => .elements
  | segment _ => .data
  | start _ => .start

def Draft.collect (d : Draft) : Collected → Draft
  | .exported e => d.addExport e
  | .element e => d.addElement e
  | .segment s => d.addData s
  | .start target => d.setStart target

/-- A field that collects the same whatever was declared, or is refused. -/
def Node.Collects (n : Node) (step : Draft → Node → Except CompileError Draft) (g : FieldGroup) :
    Prop :=
  (∃ c : Collected, c.group = g ∧ ∀ d, step d n = .ok (d.collect c)) ∨ ∀ d d', step d n ≠ .ok d'

namespace Node

variable {n : Node}

/-- A field that collects the same whenever it succeeds either always does,
or never succeeds. -/
theorem collects_of_success {step : Draft → Node → Except CompileError Draft} {g : FieldGroup}
    (h : ∀ d d', step d n = .ok d' →
      ∃ c : Collected, c.group = g ∧ ∀ d, step d n = .ok (d.collect c)) : n.Collects step g := by
  by_cases hsuccess : ∃ d d', step d n = .ok d'
  · obtain ⟨d, d', hstep⟩ := hsuccess
    exact .inl (h d d' hstep)
  · exact .inr fun d d' hstep => hsuccess ⟨d, d', hstep⟩

/-- An export is collected as it is written: targets are resolved at the
end. -/
theorem collects_export (n : Node) : n.Collects Draft.declareExport .exports := by
  refine collects_of_success fun d d' h => ?_
  obtain ⟨name, hname, h⟩ := bind_eq_ok.1 h
  cases hdesc : n.childNodes.head? with
  | none =>
      simp only [hdesc] at h
      exact absurd h throw_ne_ok
  | some desc =>
      simp only [hdesc] at h
      cases hkind : ExportKind.ofWord? desc.instr with
      | none =>
          simp only [hkind] at h
          exact absurd h throw_ne_ok
      | some kind =>
          simp only [hkind] at h
          obtain ⟨target, htarget, h⟩ := bind_eq_ok.1 h
          refine ⟨.exported ⟨name, kind, target⟩, rfl, fun d => bind_eq_ok.2 ⟨name, hname, ?_⟩⟩
          simp only [hdesc, hkind]
          exact bind_eq_ok.2 ⟨target, htarget, rfl⟩

theorem collects_start (n : Node) : n.Collects Draft.declareStart .start := by
  refine collects_of_success fun d d' h => ?_
  obtain ⟨target, htarget, h⟩ := bind_eq_ok.1 h
  exact ⟨.start target, rfl, fun d => bind_eq_ok.2 ⟨target, htarget, rfl⟩⟩

/-- An element segment with a literal offset depends on nothing that was
declared before. -/
theorem collects_element [HexReader]
    (hoffset : ∀ es ∈ n.offset? n.instr, es.all Expr.isLiteral = true) :
    n.Collects Draft.declareElement .elements := by
  refine collects_of_success fun d d' h => ?_
  obtain ⟨⟨offset, rest, d₁⟩, hsegment, h⟩ := bind_eq_ok.1 h
  obtain ⟨inner, hinner, h⟩ := bind_eq_ok.1 h
  obtain ⟨trailing, htrailing, h⟩ := bind_eq_ok.1 h
  refine ⟨.element ⟨offset, inner.flatten ++ trailing, n.span⟩, rfl, fun d => ?_⟩
  exact bind_eq_ok.2 ⟨_, Draft.segmentOffset_literal hoffset hsegment d,
    bind_eq_ok.2 ⟨inner, hinner, bind_eq_ok.2 ⟨trailing, htrailing, rfl⟩⟩⟩

theorem collects_data [HexReader]
    (hoffset : ∀ es ∈ n.offset? n.instr, es.all Expr.isLiteral = true) :
    n.Collects Draft.declareData .data := by
  refine collects_of_success fun d d' h => ?_
  obtain ⟨⟨offset, rest, d₁⟩, hsegment, h⟩ := bind_eq_ok.1 h
  obtain ⟨inner, hinner, h⟩ := bind_eq_ok.1 h
  obtain ⟨trailing, htrailing, h⟩ := bind_eq_ok.1 h
  refine ⟨.segment ⟨offset, inner.flatten ++ trailing.flatten⟩, rfl, fun d => ?_⟩
  exact bind_eq_ok.2 ⟨_, Draft.segmentOffset_literal hoffset hsegment d,
    bind_eq_ok.2 ⟨inner, hinner, bind_eq_ok.2 ⟨trailing, htrailing, rfl⟩⟩⟩

end Node

/-! ## Parts -/

namespace Progress

variable {p p' q : Progress} {e : Expr} {g g' : FieldGroup}

/-- The part that the fields of a group build. Types are registered
before. -/
def part : FieldGroup → Progress → Progress
  | .types, _ => ⟨.empty, []⟩
  | .definitions, p =>
    ⟨{ p.draft with exports := [], start := none, elements := [], data := [] }, p.bodies⟩
  | .exports, p => ⟨{ Draft.empty with exports := p.draft.exports }, []⟩
  | .elements, p => ⟨{ Draft.empty with elements := p.draft.elements }, []⟩
  | .data, p => ⟨{ Draft.empty with data := p.draft.data }, []⟩
  | .start, p => ⟨{ Draft.empty with start := p.draft.start }, []⟩

/-- The parts make up the whole. -/
theorem ext_part (h : ∀ g, p.part g = q.part g) : p = q := by
  obtain ⟨⟨⟩, bodies⟩ := p
  obtain ⟨⟨⟩, bodies'⟩ := q
  have hdefinitions := h .definitions
  have hexports := h .exports
  have helements := h .elements
  have hdata := h .data
  have hstart := h .start
  simp_all [part]

/-- What a field does, by its group. -/
inductive FieldEffect [HexReader] (e : Expr) : FieldGroup → Prop where
  | none (h : ∀ p : Progress, p.declare e = .ok p) : FieldEffect e .types
  | inward (h : ∀ p q : Progress, p.declare e = .ok q → q.draft.outward = p.draft.outward) :
      FieldEffect e .definitions
  | collects (c : Collected) (h : ∀ p : Progress, p.declare e = .ok ⟨p.draft.collect c, p.bodies⟩) :
      FieldEffect e c.group
  | refused {g : FieldGroup} (h : ∀ p q : Progress, p.declare e ≠ .ok q) : FieldEffect e g

/-- A field that collects one thing has the effect of its group. -/
theorem FieldEffect.of_collects [HexReader] {n : Node}
    {step : Draft → Node → Except CompileError Draft}
    (hdeclare : ∀ p : Progress, p.declare e = p.onDraft step n) (h : n.Collects step g) :
    FieldEffect e g := by
  obtain ⟨c, rfl, hc⟩ | hrefused := h
  · refine .collects c fun p => ?_
    rw [hdeclare]
    exact onDraft_eq_ok.2 ⟨_, hc p.draft, rfl⟩
  · refine .refused fun p q hq => ?_
    rw [hdeclare] at hq
    obtain ⟨d, hd, -⟩ := onDraft_eq_ok.1 hq
    exact hrefused p.draft d hd

/-- A field that collects nothing defines something, if anything. -/
theorem FieldEffect.of_inward [HexReader] {n : Node}
    {step : Draft → Node → Except CompileError Draft}
    (hdeclare : ∀ p : Progress, p.declare e = p.onDraft step n)
    (h : ∀ d d', step d n = .ok d' → d'.outward = d.outward) : FieldEffect e .definitions := by
  refine .inward fun p q hq => ?_
  rw [hdeclare] at hq
  obtain ⟨d, hd, rfl⟩ := onDraft_eq_ok.1 hq
  exact h p.draft d hd

/-- **Every field does what its group is for.** -/
theorem fieldEffect [HexReader] {n : Node} (hnode : e.node? = some n) (hgroup : n.group? = some g)
    (hn : n.Detached) : FieldEffect e g := by
  -- one case for each word that a field can begin with
  unfold Node.group? at hgroup
  split at hgroup
  next hinstr =>
    obtain rfl := Option.some.inj hgroup
    exact .none fun p => by simp only [declare, hnode, hinstr]
  next hinstr =>
    obtain rfl := Option.some.inj hgroup
    exact .of_inward (n := n) (fun p => by simp only [declare, hnode, hinstr]) fun _ _ =>
      Draft.outward_declareImport
  next hinstr =>
    obtain rfl := Option.some.inj hgroup
    refine .inward fun p q h => ?_
    simp only [declare, hnode, hinstr] at h
    exact outward_declareFunction (hn.exports (by simp [hinstr])) h
  next hinstr =>
    obtain rfl := Option.some.inj hgroup
    exact .of_inward (fun p => by simp only [declare, hnode, hinstr]) fun _ _ =>
      Draft.outward_declareMemory (hn.exports (by simp [hinstr]))
  next hinstr =>
    obtain rfl := Option.some.inj hgroup
    exact .of_inward (fun p => by simp only [declare, hnode, hinstr]) fun _ _ =>
      Draft.outward_declareTable (hn.exports (by simp [hinstr]))
  next hinstr =>
    obtain rfl := Option.some.inj hgroup
    exact .of_inward (fun p => by simp only [declare, hnode, hinstr]) fun _ _ =>
      Draft.outward_declareGlobal (hn.exports (by simp [hinstr]))
  next hinstr =>
    obtain rfl := Option.some.inj hgroup
    exact .of_collects (fun p => by simp only [declare, hnode, hinstr]) n.collects_export
  next hinstr =>
    obtain rfl := Option.some.inj hgroup
    exact .of_collects (fun p => by simp only [declare, hnode, hinstr])
      (Node.collects_element fun es hes => hn.offset es hes (by simp [hinstr]))
  next hinstr =>
    obtain rfl := Option.some.inj hgroup
    exact .of_collects (fun p => by simp only [declare, hnode, hinstr])
      (Node.collects_data fun es hes => hn.offset es hes (by simp [hinstr]))
  next hinstr =>
    obtain rfl := Option.some.inj hgroup
    exact .of_collects (fun p => by simp only [declare, hnode, hinstr]) n.collects_start
  next => cases hgroup

/-- What a draft collects for one group shows in the part of this group
only, and depends on nothing else. -/
theorem part_collect (c : Collected) (g : FieldGroup) :
    (g ≠ c.group → ∀ p : Progress, part g ⟨p.draft.collect c, p.bodies⟩ = p.part g) ∧
      ∀ p q : Progress, p.part g = q.part g →
        part g ⟨p.draft.collect c, p.bodies⟩ = part g ⟨q.draft.collect c, q.bodies⟩ := by
  cases c <;> cases g <;>
    simp +contextual [part, Collected.group, Draft.collect, Draft.addExport, Draft.addElement,
      Draft.addData, Draft.setStart]

/-- A field looks at the part of its own group. -/
theorem FieldEffect.own [HexReader] (he : FieldEffect e g) (h : p.part g = p'.part g)
    (hq : p.declare e = .ok q) :
    ∃ q', p'.declare e = .ok q' ∧ q.part g = q'.part g := by
  cases he with
  | none hsame =>
      exact ⟨p', hsame p', rfl⟩
  | inward _ =>
      -- both are the common part with something collected before it
      have hbehind : ∀ p : Progress, p = (p.part .definitions).behind p.draft.outward [] := by
        intro p
        simp [part, behind, Draft.behind, Draft.outward]
      rw [hbehind p, declare_behind] at hq
      rw [hbehind p', ← h, declare_behind]
      cases hr : (p.part .definitions).declare e with
      | error error => rw [hr] at hq; cases hq
      | ok r =>
          rw [hr] at hq
          obtain rfl := Except.ok.inj hq
          exact ⟨_, rfl, rfl⟩
  | collects c hc =>
      obtain rfl := Except.ok.inj ((hc p).symm.trans hq)
      exact ⟨_, hc p', (part_collect c c.group).2 p p' h⟩
  | refused hrefused => exact absurd hq (hrefused p q)

/-- A field changes the part of no other group. -/
theorem FieldEffect.other [HexReader] (he : FieldEffect e g) (hne : g' ≠ g)
    (hq : p.declare e = .ok q) :
    q.part g' = p.part g' := by
  cases he with
  | none hsame =>
      obtain rfl := Except.ok.inj ((hsame p).symm.trans hq)
      rfl
  | inward hinward =>
      have houtward := hinward p q hq
      simp only [Draft.outward, Outward.mk.injEq] at houtward
      cases g' with
      | definitions => exact absurd rfl hne
      | _ => simp [part, houtward]
  | collects c hc =>
      obtain rfl := Except.ok.inj ((hc p).symm.trans hq)
      exact (part_collect c g').1 hne p
  | refused hrefused => exact absurd hq (hrefused p q)

end Progress

end WasmText
