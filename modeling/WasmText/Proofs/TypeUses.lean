import WasmText.Proofs.Instruction.TypeUses
import WasmText.Proofs.Layout
import WasmText.Proofs.Module.Declared
/-!
# Type uses of a module by name and by number

A module may refer to a type by the name of its field or by its place in
the type section. The section lists every signature once, so the place of
a type is that of its signature among the different signatures of the type
fields, in the order in which they first appear
(`Draft.Listed`). With this number for the name, wherever the name is used
outside the type fields themselves, the module compiles to the same bytes
(`type_uses_agree`).
-/

namespace WasmText

variable {name : String} {index : Nat}

/-! ## Parts of fields -/

/-- A declaration stays one, whichever type it uses. -/
theorem Expr.Retyped.isDeclaration {e e' : Expr} (h : e.Retyped name index e') :
    e'.isDeclaration = e.isDeclaration := by
  simp only [Expr.isDeclaration, List.any_cons, List.any_nil, h.isNode]

/-- The type of a global has no use of a type in it. -/
theorem GlobalType.ofExpr_retyped {e e' : Expr} {type : GlobalType} (h : e.Retyped name index e')
    (htype : ofExpr e = .ok type) : ofExpr e' = .ok type := by
  unfold ofExpr at htype ⊢
  rw [h.isNode]
  split at htype
  next hmut =>
    rw [if_pos hmut]
    cases h with
    | same => exact htype
    | use h => simp [Expr.isNode, h.instr] at hmut
    | node head hall =>
        cases hall with
        | nil => exact htype
        | cons hinner hrest =>
            cases hrest with
            | nil =>
                obtain ⟨inner, hread, htype⟩ := bind_eq_ok.1 htype
                exact bind_eq_ok.2 ⟨inner, ValType.ofExpr_retyped hinner hread, htype⟩
            | cons => exact absurd htype throw_ne_ok
  next hmut =>
    rw [if_neg hmut]
    obtain ⟨inner, hread, htype⟩ := bind_eq_ok.1 htype
    exact bind_eq_ok.2 ⟨inner, ValType.ofExpr_retyped h hread, htype⟩

section fields

variable {head : Head} {children children' : List Expr}
  (hall : List.Forall₂ (Expr.Retyped name index) children children')

include hall in
/-- Slots are read from forms that have no use of a type. -/
theorem Slot.listOf_retyped {slots : List Slot} (h : listOf ⟨head, children⟩ = .ok slots) :
    listOf ⟨head, children'⟩ = .ok slots := by
  obtain ⟨types, htypes, h⟩ := bind_eq_ok.1 h
  exact bind_eq_ok.2 ⟨types, ValType.listOf_retyped hall htypes, h⟩

namespace FunctionField

variable {f : FunctionField}

/-- A declaration says what it said. -/
theorem ofChild_retyped {e e' : Expr} (hdeclaration : e.isDeclaration = true)
    (h : e.Retyped name index e') (hf : ofChild e = .ok f) : ofChild e' = .ok f := by
  cases h with
  | same => exact hf
  | use h children =>
      simp only [ofChild, Expr.node?, h.instr, h.instr'] at hf ⊢
      exact hf
  | @node children children' head hall =>
      simp only [Expr.isDeclaration, Expr.isNode, List.any_cons, List.any_nil, Bool.or_false,
        Bool.or_eq_true, beq_iff_eq] at hdeclaration
      simp only [ofChild, Expr.node?] at hf ⊢
      rcases hdeclaration with hinstr | hinstr | hinstr | hinstr | hinstr | hinstr
      · simp only [hinstr] at hf ⊢
        exact hf
      · simp only [hinstr] at hf ⊢
        exact hf
      · simp only [hinstr] at hf ⊢
        exact hf
      · simp only [hinstr] at hf ⊢
        obtain ⟨slots, hslots, hf⟩ := bind_eq_ok.1 hf
        exact bind_eq_ok.2 ⟨slots, Slot.listOf_retyped hall hslots, hf⟩
      · simp only [hinstr] at hf ⊢
        obtain ⟨types, htypes, hf⟩ := bind_eq_ok.1 hf
        exact bind_eq_ok.2 ⟨types, ValType.listOf_retyped hall htypes, hf⟩
      · simp only [hinstr] at hf ⊢
        obtain ⟨slots, hslots, hf⟩ := bind_eq_ok.1 hf
        exact bind_eq_ok.2 ⟨slots, Slot.listOf_retyped hall hslots, hf⟩

include hall

/-- **A function field keeps its parts**, but for its body. -/
theorem ofNode_retyped (hf : ofNode ⟨head, children⟩ = .ok f) :
    ∃ body, ofNode ⟨head, children'⟩ = .ok { f with body } ∧
      List.Forall₂ (Expr.Retyped name index) f.body body := by
  rw [ofNode_eq] at hf
  cases hparts : ofNode ⟨head, Node.declarations ⟨head, children⟩⟩ with
  | error e =>
      rw [hparts] at hf
      cases hf
  | ok parts =>
      rw [hparts] at hf
      obtain rfl := Except.ok.inj hf
      have hdeclarations : List.Forall₂ (Expr.Retyped name index)
          (Node.declarations ⟨head, children⟩) (Node.declarations ⟨head, children'⟩) :=
        List.rel_filter (fun _ _ h => by simp only [h.isDeclaration]) hall
      have hparts' : ofNode ⟨head, Node.declarations ⟨head, children'⟩⟩ = .ok parts := by
        obtain ⟨contributions, hchildren, hjoin⟩ := bind_eq_ok.1 hparts
        refine bind_eq_ok.2 ⟨contributions, mapM_eq_ok.2 ?_, hjoin⟩
        have hboth := (List.forall₂_and_left _ _).2
          ⟨fun e (he : e ∈ Node.declarations ⟨head, children⟩) => (List.mem_filter.1 he).2,
            hdeclarations⟩
        refine (forall₂_comp hboth.flip (mapM_eq_ok.1 hchildren)).imp ?_
        rintro e' part ⟨e, ⟨hdeclaration, he⟩, hpart⟩
        exact ofChild_retyped hdeclaration he hpart
      refine ⟨Node.instructions ⟨head, children'⟩, ?_, ?_⟩
      · rw [ofNode_eq, hparts']
        rfl
      · exact List.rel_filter (fun _ _ h => by simp only [h.isDeclaration]) hall

/-- **A function field keeps its type**, as the name and the number mean
the same one. -/
theorem resolveType_retyped {names : Names} (hname : names.index? .type name = some index)
    (hlt : index < 2 ^ 32) {table : TypeTable} {entry : Nat × List Slot × TypeTable}
    (body : List Expr) (h : f.resolveType names table ⟨head, children⟩ = .ok entry) :
    FunctionField.resolveType { f with body } names table ⟨head, children'⟩ = .ok entry := by
  unfold resolveType at h ⊢
  cases huse : Node.child? ⟨head, children⟩ "type" with
  | none =>
      rw [Node.child?_eq_none hall huse]
      rwa [huse] at h
  | some use =>
      obtain ⟨use', huse', hretyped⟩ := Node.child?_eq_some (m := ⟨head, children'⟩) hall huse
      rw [huse] at h
      rw [huse']
      obtain ⟨i, hi, h⟩ := bind_eq_ok.1 h
      exact bind_eq_ok.2 ⟨i, Signature.agreed_retyped hname hlt hretyped hi, h⟩

end FunctionField

/-! ## Fields without a body -/

namespace Draft

variable {d d' : Draft}

theorem elementTargets_retyped {e e' : Expr} {targets : List Target} (h : e.Retyped name index e')
    (htargets : elementTargets e = .ok targets) : elementTargets e' = .ok targets := by
  cases h with
  | same => exact htargets
  | node head hall => exact htargets
  | use h =>
      have hne : "type" ≠ "func" := by decide
      rw [elementTargets, h.instr, if_neg hne] at htargets
      exact absurd htargets throw_ne_ok

theorem childBytes_retyped {e e' : Expr} {bytes : List UInt8} (h : e.Retyped name index e')
    (hbytes : childBytes e = .ok bytes) : childBytes e' = .ok bytes := by
  cases h with
  | same => exact hbytes
  | node head hall => cases hbytes
  | use h => cases hbytes

include hall

/-- The exports inside a field are no uses of a type. -/
theorem inlineExports_retyped {exports : List (String × Span)}
    (h : inlineExports ⟨head, children⟩ = .ok exports) :
    inlineExports ⟨head, children'⟩ = .ok exports := by
  have hnodes : List.Forall₂ (Node.Retyped name index)
      ((Node.childNodes ⟨head, children⟩).filter (·.instr = "export"))
      ((Node.childNodes ⟨head, children'⟩).filter (·.instr = "export")) :=
    List.rel_filter (fun _ _ h => by simp only [h.instr])
      (Node.childNodes_retyped (n := ⟨head, children⟩) hall)
  have hboth := (List.forall₂_and_left _ _).2
    ⟨fun c hc => of_decide_eq_true (List.mem_filter.1 hc).2, hnodes⟩
  refine mapM_eq_ok.2 ((forall₂_comp hboth.flip (mapM_eq_ok.1 h)).imp ?_)
  rintro c' x ⟨c, ⟨hinstr, hc⟩, hx⟩
  obtain ⟨inside, rfl, -⟩ := hc.of_ne (by simp [hinstr])
  exact hx

theorem declareMemory_retyped (h : d.declareMemory ⟨head, children⟩ = .ok d') :
    d.declareMemory ⟨head, children'⟩ = .ok d' := by
  obtain ⟨limits, hlimits, h⟩ := bind_eq_ok.1 h
  obtain ⟨added, hadded, h⟩ := bind_eq_ok.1 h
  obtain ⟨exports, hexports, h⟩ := bind_eq_ok.1 h
  exact bind_eq_ok.2 ⟨limits, hlimits, bind_eq_ok.2 ⟨added, hadded,
    bind_eq_ok.2 ⟨exports, inlineExports_retyped hall hexports, h⟩⟩⟩

theorem declareTable_retyped (h : d.declareTable ⟨head, children⟩ = .ok d') :
    d.declareTable ⟨head, children'⟩ = .ok d' := by
  obtain ⟨limits, hlimits, h⟩ := bind_eq_ok.1 h
  obtain ⟨exports, hexports, h⟩ := bind_eq_ok.1 h
  exact bind_eq_ok.2 ⟨limits, hlimits,
    bind_eq_ok.2 ⟨exports, inlineExports_retyped hall hexports, h⟩⟩

theorem declareExport_retyped (h : d.declareExport ⟨head, children⟩ = .ok d') :
    d.declareExport ⟨head, children'⟩ = .ok d' := by
  obtain ⟨exported, hexported, h⟩ := bind_eq_ok.1 h
  refine bind_eq_ok.2 ⟨exported, hexported, ?_⟩
  cases hfirst : (Node.childNodes ⟨head, children⟩).head? with
  | none =>
      rw [hfirst] at h
      exact absurd h throw_ne_ok
  | some desc =>
      obtain ⟨desc', hfirst', hdesc⟩ := Node.head?_retyped (m := ⟨head, children'⟩) hall hfirst
      rw [hfirst] at h
      rw [hfirst']
      by_cases htype : desc.instr = "type"
      · have hnone : ExportKind.ofWord? "type" = none := by decide
        simp only [htype, hnone] at h
        exact absurd h throw_ne_ok
      · obtain ⟨inside, rfl, -⟩ := hdesc.of_ne htype
        exact h

variable (hname : d.names.index? .type name = some index) (hlt : index < 2 ^ 32)
include hname hlt

/-- An import keeps its type, which may be used by name or by number. -/
theorem declareImport_retyped (h : d.declareImport ⟨head, children⟩ = .ok d') :
    d.declareImport ⟨head, children'⟩ = .ok d' := by
  obtain ⟨origin, horigin, h⟩ := bind_eq_ok.1 h
  refine bind_eq_ok.2 ⟨origin, horigin, ?_⟩
  cases hfirst : (Node.childNodes ⟨head, children⟩).head? with
  | none =>
      simp only [hfirst] at h
      exact absurd h throw_ne_ok
  | some desc =>
      obtain ⟨desc', hfirst', hdesc⟩ := Node.head?_retyped (m := ⟨head, children'⟩) hall hfirst
      simp only [hfirst] at h
      simp only [hfirst', hdesc.instr]
      obtain ⟨word, inside⟩ := desc
      split at h
      next hfunc =>
        obtain ⟨inside', rfl, hinside⟩ := hdesc.of_ne (by rw [hfunc]; decide)
        obtain ⟨entry, hentry, h⟩ := bind_eq_ok.1 h
        exact bind_eq_ok.2 ⟨entry, Signature.intern_retyped hname hlt hinside hentry, h⟩
      next hmemory =>
        obtain ⟨inside', rfl, -⟩ := hdesc.of_ne (by rw [hmemory]; decide)
        exact h
      next hglobal =>
        obtain ⟨inside', rfl, hinside⟩ := hdesc.of_ne (by rw [hglobal]; decide)
        cases hinside with
        | nil => exact h
        | cons he _ =>
            obtain ⟨type, htype, h⟩ := bind_eq_ok.1 h
            exact bind_eq_ok.2 ⟨type, GlobalType.ofExpr_retyped he htype, h⟩
      next => exact absurd h throw_ne_ok

/-- A constant expression keeps its bytes, types used inside included. -/
theorem constant_retyped [HexReader] {constant : List UInt8 × Draft}
    (h : d.constant children = .ok constant) :
    d.constant children' = .ok constant := by
  obtain ⟨⟨instrs, d₁⟩, htyping, h⟩ := bind_eq_ok.1 h
  obtain ⟨types, hcompile, rfl⟩ := typing_eq_ok.1 htyping
  have hcompile' := compileAll_retyped hname hlt hall _ _ _ hcompile
  exact bind_eq_ok.2 ⟨_, typing_eq_ok.2 ⟨types, hcompile', rfl⟩, h⟩

theorem declareGlobal_retyped [HexReader] (h : d.declareGlobal ⟨head, children⟩ = .ok d') :
    d.declareGlobal ⟨head, children'⟩ = .ok d' := by
  have hinside : List.Forall₂ (Expr.Retyped name index) (children.filter (!·.isNode "export"))
      (children'.filter (!·.isNode "export")) :=
    List.rel_filter (fun _ _ h => by simp only [h.isNode]) hall
  unfold declareGlobal at h ⊢
  dsimp only at h ⊢
  generalize children.filter (!·.isNode "export") = es,
    children'.filter (!·.isNode "export") = es' at h hinside ⊢
  cases hinside with
  | nil => exact h
  | cons he hes =>
      obtain ⟨type, htype, h⟩ := bind_eq_ok.1 h
      obtain ⟨init, hinit, h⟩ := bind_eq_ok.1 h
      obtain ⟨exports, hexports, h⟩ := bind_eq_ok.1 h
      exact bind_eq_ok.2 ⟨type, GlobalType.ofExpr_retyped he htype,
        bind_eq_ok.2 ⟨init, constant_retyped hes hname hlt hinit,
          bind_eq_ok.2 ⟨exports, inlineExports_retyped hall hexports, h⟩⟩⟩

/-- The offset of a segment keeps its bytes. -/
theorem segmentOffset_retyped [HexReader] {offset : List UInt8} {rest : List Expr}
    (h : d.segmentOffset ⟨head, children⟩ = .ok (offset, rest, d')) :
    ∃ rest', d.segmentOffset ⟨head, children'⟩ = .ok (offset, rest', d') ∧
      List.Forall₂ (Expr.Retyped name index) rest rest' := by
  cases hall with
  | nil => exact absurd h throw_ne_ok
  | @cons e e' es es' he hes =>
      cases e with
      | ref => exact absurd h throw_ne_ok
      | data => exact absurd h throw_ne_ok
      | node first inside =>
          obtain ⟨⟨bytes, d₁⟩, hconstant, h⟩ := bind_eq_ok.1 h
          obtain ⟨rfl, rfl, rfl⟩ : bytes = offset ∧ es = rest ∧ d₁ = d' := by
            simpa using pure_eq_ok.1 h
          obtain ⟨first', inside', rfl, hinstr, hinside⟩ := he.of_node
          refine ⟨es', bind_eq_ok.2 ⟨(bytes, d₁), ?_, rfl⟩, hes⟩
          rw [hinstr]
          split at hconstant
          next hwrapped =>
            rw [if_pos hwrapped]
            exact constant_retyped hinside hname hlt hconstant
          next hwrapped =>
            rw [if_neg hwrapped]
            exact constant_retyped (.cons he .nil) hname hlt hconstant

theorem declareElement_retyped [HexReader] (h : d.declareElement ⟨head, children⟩ = .ok d') :
    d.declareElement ⟨head, children'⟩ = .ok d' := by
  obtain ⟨⟨offset, rest, d₁⟩, hoffset, h⟩ := bind_eq_ok.1 h
  obtain ⟨inner, hinner, h⟩ := bind_eq_ok.1 h
  obtain ⟨rest', hoffset', hrest⟩ := segmentOffset_retyped hall hname hlt hoffset
  refine bind_eq_ok.2 ⟨(offset, rest', d₁), hoffset', bind_eq_ok.2 ⟨inner, mapM_eq_ok.2 ?_, h⟩⟩
  refine (forall₂_comp hrest.flip (mapM_eq_ok.1 hinner)).imp ?_
  rintro e' targets ⟨e, he, htargets⟩
  exact elementTargets_retyped he htargets

theorem declareData_retyped [HexReader] (h : d.declareData ⟨head, children⟩ = .ok d') :
    d.declareData ⟨head, children'⟩ = .ok d' := by
  obtain ⟨⟨offset, rest, d₁⟩, hoffset, h⟩ := bind_eq_ok.1 h
  obtain ⟨inner, hinner, h⟩ := bind_eq_ok.1 h
  obtain ⟨rest', hoffset', hrest⟩ := segmentOffset_retyped hall hname hlt hoffset
  refine bind_eq_ok.2 ⟨(offset, rest', d₁), hoffset', bind_eq_ok.2 ⟨inner, mapM_eq_ok.2 ?_, h⟩⟩
  refine (forall₂_comp hrest.flip (mapM_eq_ok.1 hinner)).imp ?_
  rintro e' bytes ⟨e, he, hbytes⟩
  exact childBytes_retyped he hbytes

end Draft

end fields

/-! ## Functions and fields -/

/-- Bodies of the same function, one with replaced uses of a type. -/
structure DeferredBody.Retyped (name : String) (index : Nat) (b b' : DeferredBody) : Prop where
  others : b' = { b with body := b'.body }
  body : List.Forall₂ (Expr.Retyped name index) b.body b'.body

/-- States that differ in the bodies put aside. -/
structure Progress.Retyped (name : String) (index : Nat) (p p' : Progress) : Prop where
  draft : p'.draft = p.draft
  bodies : List.Forall₂ (DeferredBody.Retyped name index) p.bodies p'.bodies

/-- A field with any of the uses of a type by its name given way to uses by
number. Type fields stay as they are. -/
def Expr.RetypedField (name : String) (index : Nat) (e e' : Expr) : Prop :=
  if e.isNode "type" then e' = e else e.Retyped name index e'

/-- A module form with any of the uses of a type by its name given way to
uses by number. -/
structure Node.TypeNumbered (name : String) (index : Nat) (n n' : Node) : Prop where
  instr : n'.instr = n.instr
  fields : List.Forall₂ (Expr.RetypedField name index) n.children n'.children

namespace Progress

variable {p p' q : Progress} {head : Head} {children children' : List Expr}

theorem Retyped.refl (name : String) (index : Nat) (p : Progress) : p.Retyped name index p :=
  ⟨rfl, List.forall₂_same.2 fun b _ => ⟨rfl, retypedAll_refl b.body⟩⟩

/-- A field that changes the draft only does so alike. -/
theorem onDraft_retyped {step : Draft → Node → Except CompileError Draft} {n n' : Node}
    (hp : p.Retyped name index p')
    (hstep : ∀ d, step p.draft n = .ok d → step p.draft n' = .ok d)
    (hq : p.onDraft step n = .ok q) :
    ∃ q', p'.onDraft step n' = .ok q' ∧ q.Retyped name index q' := by
  obtain ⟨d, hd, rfl⟩ := onDraft_eq_ok.1 hq
  refine ⟨⟨d, p'.bodies⟩, onDraft_eq_ok.2 ⟨d, ?_, rfl⟩, rfl, hp.bodies⟩
  rw [hp.draft]
  exact hstep d hd

section names

variable (hname : p.draft.names.index? .type name = some index) (hlt : index < 2 ^ 32)
include hname hlt

/-- **A function is declared alike**, with a related body. -/
theorem declareFunction_retyped (hp : p.Retyped name index p')
    (hall : List.Forall₂ (Expr.Retyped name index) children children')
    (hq : p.declareFunction ⟨head, children⟩ = .ok q) :
    ∃ q', p'.declareFunction ⟨head, children'⟩ = .ok q' ∧ q.Retyped name index q' := by
  obtain ⟨draft, bodies⟩ := p
  obtain ⟨draft', bodies'⟩ := p'
  obtain rfl : draft' = draft := hp.draft
  obtain ⟨f, hf, hq⟩ := bind_eq_ok.1 hq
  obtain ⟨entry, hentry, hq⟩ := bind_eq_ok.1 hq
  obtain ⟨body, hf', hbody⟩ := FunctionField.ofNode_retyped hall hf
  have hentry' := FunctionField.resolveType_retyped hall hname hlt body hentry
  have hdeclare : ∀ q', _ = Except.ok q' →
      declareFunction ⟨draft', bodies'⟩ ⟨head, children'⟩ = .ok q' := fun q' hq' =>
    bind_eq_ok.2 ⟨_, hf', bind_eq_ok.2 ⟨entry, hentry', hq'⟩⟩
  cases horigin : f.origin with
  | some origin =>
      simp only [horigin] at hq
      split at hq
      next hnone hlocals =>
        rw [hnone] at hbody
        cases hbody
        obtain ⟨added, hadded, hq⟩ := bind_eq_ok.1 hq
        obtain rfl := pure_eq_ok.1 hq
        refine ⟨⟨added.2.exportAll .function added.1 f.exports, bodies'⟩, hdeclare _ ?_, rfl, hp.bodies⟩
        simp only [horigin, hlocals]
        exact bind_eq_ok.2 ⟨added, hadded, rfl⟩
      next => exact absurd hq throw_ne_ok
      next => exact absurd hq throw_ne_ok
  | none =>
      simp only [horigin] at hq
      obtain rfl := pure_eq_ok.1 hq
      let made := { draft' with types := entry.2.2 }.addFunction head.label? entry.1
      refine ⟨⟨made.2.exportAll .function made.1 f.exports,
        bodies' ++ [⟨made.1, entry.2.1, f.locals, body⟩]⟩, hdeclare _ ?_, rfl,
        List.rel_append hp.bodies (.cons ⟨rfl, hbody⟩ .nil)⟩
      simp only [horigin]
      rfl

/-- **A field is declared alike.** -/
theorem declare_retyped [HexReader] {e e' : Expr} (hp : p.Retyped name index p')
    (h : e.RetypedField name index e') (hq : p.declare e = .ok q) :
    ∃ q', p'.declare e' = .ok q' ∧ q.Retyped name index q' := by
  cases e with
  | ref => cases hq
  | data => cases hq
  | node head children =>
      by_cases htype : head.instr = "type"
      · rw [Expr.RetypedField, if_pos (by simp [Expr.isNode, htype])] at h
        subst h
        have hsame : ∀ p : Progress, p.declare (.node head children) = .ok p := by
          intro p
          simp [declare, Expr.node?, htype]
        obtain rfl := Except.ok.inj ((hsame p).symm.trans hq)
        exact ⟨p', hsame p', hp⟩
      · rw [Expr.RetypedField, if_neg (by simp [Expr.isNode, htype])] at h
        obtain ⟨children', rfl, hall⟩ := h.of_ne htype
        simp only [declare, Expr.node?] at hq ⊢
        split at hq
        next hinstr => exact absurd hinstr htype
        next hinstr =>
          exact onDraft_retyped hp (fun _ => Draft.declareImport_retyped hall hname hlt) hq
        next => exact declareFunction_retyped hname hlt hp hall hq
        next => exact onDraft_retyped hp (fun _ => Draft.declareMemory_retyped hall) hq
        next => exact onDraft_retyped hp (fun _ => Draft.declareTable_retyped hall) hq
        next => exact onDraft_retyped hp (fun _ => Draft.declareGlobal_retyped hall hname hlt) hq
        next => exact onDraft_retyped hp (fun _ => Draft.declareExport_retyped hall) hq
        next => exact onDraft_retyped hp (fun _ => Draft.declareElement_retyped hall hname hlt) hq
        next => exact onDraft_retyped hp (fun _ => Draft.declareData_retyped hall hname hlt) hq
        next => exact onDraft_retyped hp (fun _ => id) hq
        next => cases hq

/-- **Fields are declared alike**, one after the other. -/
theorem foldlM_declare_retyped [HexReader] {es es' : List Expr} (hp : p.Retyped name index p')
    (hfields : List.Forall₂ (Expr.RetypedField name index) es es')
    (hq : es.foldlM declare p = .ok q) :
    ∃ q', es'.foldlM declare p' = .ok q' ∧ q.Retyped name index q' := by
  induction hfields generalizing p p' with
  | nil =>
      obtain rfl : p = q := pure_eq_ok.1 hq
      exact ⟨p', rfl, hp⟩
  | cons hfield _ ih =>
      rw [List.foldlM_cons] at hq
      obtain ⟨p₁, hp₁, hq⟩ := bind_eq_ok.1 hq
      obtain ⟨p₁', hp₁', hretyped⟩ := declare_retyped hname hlt hp hfield hp₁
      -- no other field gives a type a name
      obtain ⟨_, -, _, htakes, -⟩ := brings_of_declare hp₁
      obtain ⟨q', hq', hlast⟩ := ih ((htakes.names name).trans hname) hretyped hq
      refine ⟨q', ?_, hlast⟩
      rw [List.foldlM_cons]
      exact bind_eq_ok.2 ⟨p₁', hp₁', hq'⟩

end names

end Progress

namespace Draft

variable {d r : Draft} (hlt : index < 2 ^ 32)
include hlt

/-- A body compiles alike. -/
theorem compileBody_retyped [HexReader] {b b' : DeferredBody}
    (hname : d.names.index? .type name = some index) (hb : b.Retyped name index b')
    (hr : d.compileBody b = .ok r) : d.compileBody b' = .ok r := by
  obtain ⟨instrs, types, hcompile, rfl⟩ := compileBody_eq_ok.1 hr
  rw [hb.others]
  exact compileBody_eq_ok.2
    ⟨instrs, types, compileAll_retyped hname hlt hb.body _ _ _ hcompile, rfl⟩

/-- Bodies compile alike, one after the other. -/
theorem foldlM_compileBody_retyped [HexReader] {bodies bodies' : List DeferredBody}
    (hname : d.names.index? .type name = some index)
    (hbodies : List.Forall₂ (DeferredBody.Retyped name index) bodies bodies')
    (hr : bodies.foldlM compileBody d = .ok r) : bodies'.foldlM compileBody d = .ok r := by
  induction hbodies generalizing d with
  | nil => exact hr
  | cons hb _ ih =>
      rw [List.foldlM_cons] at hr ⊢
      obtain ⟨d₁, hd₁, hr⟩ := bind_eq_ok.1 hr
      refine bind_eq_ok.2 ⟨d₁, compileBody_retyped hlt hname hb hd₁, ih ?_ hr⟩
      obtain ⟨-, -, -, rfl⟩ := compileBody_eq_ok.1 hd₁
      exact hname

end Draft

/-! ## Modules -/

/-- Selecting the type fields before or after the forms comes to the same.
-/
theorem filterMap_node?_type (es : List Expr) :
    (es.filterMap Expr.node?).filter (·.instr = "type") =
      (es.filter (·.isNode "type")).filterMap Expr.node? := by
  rw [List.filter_filterMap, List.filterMap_filter]
  congr 1
  funext e
  cases e with
  | ref => rfl
  | data => rfl
  | node head children =>
      by_cases htype : head.instr = "type"
      · simp [Expr.node?, Expr.isNode, htype]
      · simp [Expr.node?, Expr.isNode, htype]

/-- The type fields stay as they are. -/
theorem filter_type_retyped {es es' : List Expr}
    (h : List.Forall₂ (Expr.RetypedField name index) es es') :
    es'.filter (·.isNode "type") = es.filter (·.isNode "type") := by
  induction h with
  | nil => rfl
  | @cons e e' es es' hfield _ ih =>
      unfold Expr.RetypedField at hfield
      split at hfield
      next => rw [hfield, List.filter_cons, List.filter_cons, ih]
      next => rw [List.filter_cons, List.filter_cons, hfield.isNode, ih, if_neg ‹_›, if_neg ‹_›]

/-- **A module keeps its draft** when uses of a type by name give way to
uses by number. -/
theorem Draft.ofNode_retyped [HexReader] {n n' : Node} {typed d : Draft}
    (htyped : n.typeFields.foldlM Draft.declareType .empty = .ok typed)
    (hname : typed.names.index? .type name = some index) (hlt : index < 2 ^ 32)
    (h : n.TypeNumbered name index n') (hdraft : Draft.ofNode n = .ok d) :
    Draft.ofNode n' = .ok d := by
  obtain ⟨hmodule, p, hp, hbodies⟩ := Draft.ofNode_eq_ok.1 hdraft
  obtain ⟨typed', htyped', hfold⟩ := bind_eq_ok.1 hp
  obtain rfl : typed = typed' := Except.ok.inj (htyped.symm.trans htyped')
  obtain ⟨p', hfold', hretyped⟩ :=
    Progress.foldlM_declare_retyped hname hlt (.refl name index _) h.fields hfold
  obtain ⟨_, htakes, -⟩ := Progress.brings_of_foldlM hfold
  refine Draft.ofNode_eq_ok.2 ⟨h.instr.trans hmodule, p', bind_eq_ok.2 ⟨typed, ?_, hfold'⟩, ?_⟩
  · rw [Node.childNodes, filterMap_node?_type, filter_type_retyped h.fields, ← filterMap_node?_type]
    exact htyped
  · rw [hretyped.draft]
    exact Draft.foldlM_compileBody_retyped hlt ((htakes.names name).trans hname) hretyped.bodies
      hbodies

/-! ## The places of types -/

/-- The signature that a type field declares, by its position among the
type fields. It may refer to those before it. -/
def Node.typeSignature? (types : List FuncType) (fields : List Node) (k : Nat) : Option FuncType :=
  fields[k]?.bind fun field => (field.child? "func").bind
    (·.signature? types (typeNamesAfter types (fields.take k).reverse))

section signatures

variable {signatures : List FuncType} {s : FuncType} {k : Nat}

/-- Removing repetitions shortens a list exactly if there are any. -/
theorem length_eraseDups (signatures : List FuncType) :
    signatures.eraseDups.length ≤ signatures.length ∧
      (signatures.eraseDups.length = signatures.length ↔ signatures.Nodup) := by
  induction signatures using List.reverseRecOn with
  | nil => simp
  | append_singleton signatures s ih =>
      obtain ⟨hle, hiff⟩ := ih
      rw [eraseDups_concat, nodup_append_singleton]
      by_cases h : s ∈ signatures
      · rw [if_pos h, List.length_append, List.length_singleton]
        simp only [h, not_true, and_false, iff_false]
        omega
      · rw [if_neg h, List.length_append, List.length_append, List.length_singleton]
        simp only [h, not_false_iff, and_true, ← hiff]
        omega

/-- **The place of a signature** among the different ones is its position,
if no signature up to there is repeated, and smaller otherwise. -/
theorem idxOf?_eraseDups (hs : signatures[k]? = some s) :
    ∃ j, signatures.eraseDups.idxOf? s = some j ∧ j ≤ k ∧
      (j = k ↔ (signatures.take (k + 1)).Nodup) := by
  have htake : signatures.take (k + 1) = signatures.take k ++ [s] := by
    rw [List.take_add_one, hs]
    rfl
  have hlength : (signatures.take k).length = k := by
    have hlt := (List.getElem?_eq_some_iff.1 hs).1
    rw [List.length_take]
    omega
  have hprefix : (signatures.take (k + 1)).eraseDups <+: signatures.eraseDups :=
    ⟨_, by rw [← List.eraseDups_append, List.take_append_drop]⟩
  -- the signatures before, as a table, and this one registered there
  have hentries : (TypeTable.intern (.ofEntries (signatures.take k).eraseDups) s).2.entries =
      (signatures.take k ++ [s]).eraseDups := TypeTable.entries_intern rfl s
  have hfound := TypeTable.idxOf?_intern (.ofEntries (signatures.take k).eraseDups) s
  rw [hentries, ← htake] at hfound
  refine ⟨_, idxOf?_of_isPrefix hprefix hfound, ?_⟩
  obtain ⟨hle, hiff⟩ := length_eraseDups (signatures.take k)
  rw [hlength] at hle hiff
  rw [htake, nodup_append_singleton, ← hiff]
  obtain ⟨i, hi, hintern⟩ | ⟨hnew, hintern⟩ :=
    TypeTable.intern_cases (.ofEntries (signatures.take k).eraseDups) s
  · have hlt : i < (signatures.take k).eraseDups.length := TypeTable.lt_count_of_idxOf? hi
    have hmem : s ∈ signatures.take k := by
      rw [← List.mem_eraseDups]
      by_contra hnone
      cases hi.symm.trans (List.idxOf?_eq_none_iff.2 hnone)
    rw [hintern]
    simp only [hmem, not_true, and_false, iff_false]
    omega
  · have hnone : s ∉ signatures.take k := fun hmem => hnew (List.mem_eraseDups.2 hmem)
    rw [hintern]
    simp only [hnone, not_false_iff, and_true, TypeTable.count, TypeTable.entries_ofEntries]
    exact hle

end signatures

namespace Draft

variable {d d' : Draft} {fields : List Node} {signatures : List FuncType} {n : Node}

/-- The draft after some type fields of the given signatures: the table
lists each signature once, and the last field of a name gives the name its
place. -/
structure Listed (d : Draft) (fields : List Node) (signatures : List FuncType) : Prop where
  length : signatures.length = fields.length
  signed : ∀ types, d.types.entries <+: types →
    ∀ k, Node.typeSignature? types fields k = signatures[k]?
  entries : d.types.entries = signatures.eraseDups
  named : ∀ (k : Nat) field name, fields[k]? = some field → field.label? = some name →
    (∀ (i : Nat) other, fields[i]? = some other → other.label? = some name → i ≤ k) →
    ∃ s i, signatures[k]? = some s ∧ d.types.entries.idxOf? s = some i ∧
      d.names.index? .type name = some i

/-- A type field adds its signature to the list, whether it is new or not.
-/
theorem Listed.declareType (hd : d.Listed fields signatures) (hnamed : d.Named fields)
    (h : d.declareType n = .ok d') : ∃ s, d'.Listed (fields ++ [n]) (signatures ++ [s]) := by
  unfold Draft.declareType at h
  split at h
  next => exact absurd h throw_ne_ok
  next func hfunc =>
    obtain ⟨⟨type, use⟩, hsig, h⟩ := bind_eq_ok.1 h
    obtain rfl := pure_eq_ok.1 h
    have hgrows := d.types.prefix_intern type
    refine ⟨type, ?_, fun types hfinal k => ?_, ?_, fun k field name hfield hlabel hlast => ?_⟩
    · simp [hd.length]
    · rw [entries_addType] at hfinal
      have hbefore := hgrows.trans hfinal
      rcases Nat.lt_trichotomy k fields.length with hlt | rfl | hgt
      · rw [List.getElem?_append_left (hd.length ▸ hlt), ← hd.signed types hbefore k,
          Node.typeSignature?, Node.typeSignature?, List.getElem?_append_left hlt,
          List.take_append_of_le_length hlt.le]
      · have hmeans := (Signature.hasType_of_ofNode (hnamed.mean types hbefore) hbefore hsig).1
        rw [Node.typeSignature?, List.getElem?_concat_length, List.take_left, Option.bind_some, hfunc,
          Option.bind_some, hmeans.signature, ← hd.length, List.getElem?_concat_length]
      · rw [Node.typeSignature?, List.getElem?_eq_none (by simp; omega),
          List.getElem?_eq_none (by simp [hd.length]; omega)]
        rfl
    · rw [entries_addType]
      exact TypeTable.entries_intern hd.entries type
    · rw [index?_addType, entries_addType]
      rcases Nat.lt_or_ge k fields.length with hlt | hge
      · rw [List.getElem?_append_left hlt] at hfield
        have hother : n.label? ≠ some name := by
          intro hn
          have hle := hlast fields.length n (by simp) hn
          omega
        obtain ⟨s, i, hs, hi, hindex⟩ := hd.named k field name hfield hlabel fun i other hi =>
          hlast i other (by rw [List.getElem?_append_left (List.getElem?_eq_some_iff.1 hi).1, hi])
        refine ⟨s, i, ?_, idxOf?_of_isPrefix hgrows hi, ?_⟩
        · rw [List.getElem?_append_left (hd.length ▸ hlt), hs]
        · rw [if_neg hother, hindex]
      · have hk : k = fields.length := by
          have hlt := (List.getElem?_eq_some_iff.1 hfield).1
          rw [List.length_append, List.length_singleton] at hlt
          omega
        subst hk
        rw [List.getElem?_concat_length] at hfield
        obtain rfl := Option.some.inj hfield
        refine ⟨type, _, ?_, d.types.idxOf?_intern type, if_pos hlabel⟩
        rw [← hd.length, List.getElem?_concat_length]

/-- **The type fields of a module** list their signatures, each once. -/
theorem listed_of_foldlM (h : fields.foldlM declareType .empty = .ok d) :
    ∃ signatures, d.Listed fields signatures := by
  have hboth : d.Named fields ∧ ∃ signatures, d.Listed fields signatures := by
    refine foldlM_prefix_induction
      (P := fun fields d => Named d fields ∧ ∃ signatures, Listed d fields signatures) ?_ ?_ h
    · rintro before n after d d' - ⟨hnamed, signatures, hd⟩ hstep
      obtain ⟨s, hs⟩ := hd.declareType hnamed hstep
      exact ⟨hnamed.declareType hstep, _, hs⟩
    · have hnone : Named .empty [] := named_of_foldlM rfl
      refine ⟨hnone, [], rfl, fun _ _ _ => rfl, rfl, ?_⟩
      intro k field name hfield
      cases hfield
  exact hboth.2

end Draft

/-- **Type uses by name and by number agree.** Take a module form that
compiles, and a name that the `k`-th type field has and no other. The type
section lists the signatures of the type fields, each once, in the order in
which they first appear. Write the place there of the signature of the
`k`-th field for the name, in any of the `type` forms outside the type
fields that refer by it. The form then compiles to the same bytes, wherever
its parts are placed. The place is `k` itself exactly if no two of the type
fields up to the `k`-th have the same signature. -/
theorem type_uses_agree [HexReader] {n field : Node} {bytes : List UInt8} {k : Nat}
    (h : n.compile = .ok bytes) (hfield : n.typeFields[k]? = some field)
    (hlabel : field.label? = some name)
    (honly : ∀ (i : Nat) other, n.typeFields[i]? = some other → other.label? = some name → i = k)
    (hlt : k < 2 ^ 32) :
    ∃ (d : Draft) (signatures : List FuncType) (s : FuncType) (j : Nat), Draft.ofNode n = .ok d ∧
      signatures.length = n.typeFields.length ∧
      (∀ i, Node.typeSignature? d.types.entries n.typeFields i = signatures[i]?) ∧
      signatures.eraseDups <+: d.types.entries ∧
      signatures[k]? = some s ∧ signatures.eraseDups.idxOf? s = some j ∧
      (j = k ↔ (signatures.take (k + 1)).Nodup) ∧
      ∀ n' laid : Node, n.TypeNumbered name j n' → laid.bare = n'.bare → laid.compile = .ok bytes := by
  obtain ⟨d, hdraft, hbuild⟩ := bind_eq_ok.1 h
  obtain ⟨-, p, hp, hbodies⟩ := Draft.ofNode_eq_ok.1 hdraft
  obtain ⟨typed, htyped, hfold⟩ := bind_eq_ok.1 hp
  obtain ⟨_, htakes, -⟩ := Progress.brings_of_foldlM hfold
  have hfinal := htakes.types.trans (Draft.filled_of_foldlM hbodies).types
  obtain ⟨signatures, hlisted⟩ := Draft.listed_of_foldlM htyped
  obtain ⟨s, j, hs, hj, hname⟩ := hlisted.named k field name hfield hlabel
    fun i other hi hother => (honly i other hi hother).le
  rw [hlisted.entries] at hj
  obtain ⟨place, hplace, hle, hiff⟩ := idxOf?_eraseDups hs
  obtain rfl : place = j := Option.some.inj (hplace.symm.trans hj)
  refine ⟨d, signatures, s, place, hdraft, hlisted.length, hlisted.signed _ hfinal,
    hlisted.entries ▸ hfinal, hs, hj, hiff, fun n' laid hnumbered hlaid => ?_⟩
  have hdraft' := Draft.ofNode_retyped htyped hname (by omega) hnumbered hdraft
  have hcompile : n'.compile = .ok bytes := bind_eq_ok.2 ⟨d, hdraft', hbuild⟩
  rwa [← n'.compile_bare, ← hlaid, laid.compile_bare] at hcompile

/-- A module with a repeated signature among its types, and with every kind
of use of the type after it. -/
def repeatingModule (use : Head) : Node where
  toHead := .plain "module" .zero
  children :=
    let form (word : String) (children : List Expr) : Expr := .node (.plain word .zero) children
    let type (name : String) (parts : List Expr) : Expr :=
      .node ⟨"type", some ⟨name, .zero⟩, [], .zero⟩ [form "func" parts]
    let operand := .node ⟨"local.get", none, [⟨.number "0", .zero⟩], .zero⟩ []
    let used := .node use []
    [type "a" [], type "b" [], type "t" [form "param" [form "i32" []]],
      .node ⟨"import", none, [⟨.str [0x6D], .zero⟩, ⟨.str [0x6E], .zero⟩], .zero⟩
        [form "func" [used]],
      form "func" [used, form "block" [used, form "drop" []],
        form "call_indirect" [used, operand, operand]]]

def useByName : Head := ⟨"type", some ⟨"t", .zero⟩, [], .zero⟩

def useByNumber : Head := ⟨"type", none, [⟨.number "1", .zero⟩], .zero⟩

def repeatingBytes : List UInt8 :=
  [0x00, 0x61, 0x73, 0x6D, 1, 0, 0, 0, 1, 8, 2, 0x60, 0, 0, 0x60, 1, 0x7F, 0,
    2, 7, 1, 1, 0x6D, 1, 0x6E, 0, 1, 3, 2, 1, 1, 10, 15, 1, 13, 0, 0x02, 1, 0x1A, 0x0B,
    0x20, 0, 0x20, 0, 0x11, 1, 0, 0x0B]

theorem type_uses_agree_repeating :
    (repeatingModule useByName).compile = .ok repeatingBytes ∧
      (repeatingModule useByNumber).compile = .ok repeatingBytes := by
  have hcompile : (repeatingModule useByName).compile = .ok repeatingBytes := by decide +kernel
  have hlabels : (repeatingModule useByName).typeFields.map (·.label?) =
      [some "a", some "b", some "t"] := rfl
  have honly : ∀ (i : Nat) other, (repeatingModule useByName).typeFields[i]? = some other →
      other.label? = some "t" → i = 2 := by
    intro i other hi hother
    have hlabel : ((repeatingModule useByName).typeFields.map (·.label?))[i]? = some (some "t") := by
      rw [List.getElem?_map, hi, Option.map_some, hother]
    rw [hlabels] at hlabel
    rcases i with _ | _ | _ | i
    · simp at hlabel
    · simp at hlabel
    · rfl
    · simp at hlabel
  obtain ⟨d, signatures, s, j, hdraft, hlength, hsigned, -, hs, hj, -, hsame⟩ :=
    type_uses_agree hcompile rfl rfl honly (by decide)
  refine ⟨hcompile, hsame _ _ ?_ rfl⟩
  -- the signature of the third type is the second of the section
  have hentries : ((Draft.ofNode (repeatingModule useByName)).toOption.any fun d =>
      d.types.entries = [⟨[], []⟩, ⟨[.i32], []⟩]) = true := by decide +kernel
  rw [hdraft] at hentries
  have htypes : d.types.entries = [⟨[], []⟩, ⟨[.i32], []⟩] := of_decide_eq_true hentries
  have hsignatures : signatures = [⟨[], []⟩, ⟨[], []⟩, ⟨[.i32], []⟩] := by
    refine List.ext_getElem? fun i => ?_
    rw [← hsigned, htypes]
    rcases i with _ | _ | _ | i
    · rfl
    · rfl
    · rfl
    · rfl
  subst hsignatures
  obtain rfl : s = ⟨[.i32], []⟩ := (Option.some.inj hs).symm
  obtain rfl : j = 1 := (Option.some.inj hj).symm
  have huse : Expr.Retyped "t" 1 (.node useByName []) (.node useByNumber []) :=
    .use ⟨rfl, rfl, ⟨.zero, rfl⟩, ⟨.zero, rfl⟩⟩ []
  refine ⟨rfl, .cons rfl (.cons rfl (.cons rfl (.cons ?_ (.cons ?_ .nil))))⟩
  · exact .node _ (.cons (.node _ (.cons huse .nil)) .nil)
  · exact .node _ (.cons huse (.cons (.node _ (.cons huse (.cons (.same _) .nil)))
      (.cons (.node _ (.cons huse (.cons (.same _) (.cons (.same _) .nil)))) .nil)))

/-- A use of the third type field by its name, and by its position. -/
def thirdByName : String :=
  "(type $a (func)) (type $b (func)) (type $t (func (param i32))) (func (type $t))"

def thirdByPosition : String :=
  "(type $a (func)) (type $b (func)) (type $t (func (param i32))) (func (type 2))"

def thirdBytes : List UInt8 :=
  [0x00, 0x61, 0x73, 0x6D, 1, 0, 0, 0, 1, 8, 2, 0x60, 0, 0, 0x60, 1, 0x7F, 0, 3, 2, 1, 1,
    10, 4, 1, 2, 0, 0x0B]

/-- **The position of a type field is not its number** where a signature is
repeated before it. -/
theorem position_is_not_number :
    compile thirdByName = .ok thirdBytes ∧ (compile thirdByPosition).toOption = none := by
  decide +kernel

end WasmText
