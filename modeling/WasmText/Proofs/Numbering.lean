import WasmText.Proofs.Instruction.Numbering
import WasmText.Proofs.Layout
import WasmText.Proofs.Locals
/-!
# Names and indices

A module may refer to a function or a global by name or by index, and to a
local or an enclosing construct likewise. The name goes through the same
tables whenever it is looked up: those of the module once everything is
declared, the slots of the function, and the constructs around the place.
So any of the names in bodies, in export descriptors and in start fields
may be replaced by what it means, and the module compiles to the same
bytes (`numbered_alike`).
-/

namespace WasmText

/-! ## References of fields -/

/-- A reference as it is, or the index that its name means. -/
def Target.Numbered (lookup : String → Option Nat) (target target' : Target) : Prop :=
  target' = target ∨ ∃ name span i span',
    target = .name name span ∧ lookup name = some i ∧ target' = .index i span'

/-- A form with one argument, as it is or as the index that its name
means. -/
def Head.Numbered (lookup : String → Option Nat) (head head' : Head) : Prop :=
  head'.instr = head.instr ∧
    ∃ p p', head.arguments = [p] ∧ head'.arguments = [p'] ∧ p.Numbered lookup p'

namespace Target

variable {lookup : String → Option Nat} {target : Target} {head head' : Head} {p p' : Param}

theorem ofHead_eq (h : head.arguments = [p]) : ofHead head = ofParam p := by
  obtain ⟨instr, _ | label, params, span⟩ := head
  · obtain rfl : params = [p] := h
    rfl
  · obtain ⟨rfl, -⟩ := List.cons.inj h
    rfl

/-- A name and its number give targets that mean the same. -/
theorem ofParam_numbered (h : p.Numbered lookup p') (htarget : ofParam p = .ok target) :
    ∃ target', ofParam p' = .ok target' ∧ target.Numbered lookup target' := by
  obtain rfl | ⟨name, i, hname, hi, hlt, hnumber⟩ := h
  · exact ⟨target, htarget, .inl rfl⟩
  · rw [ofParam, hname] at htarget
    obtain rfl := Except.ok.inj htarget
    refine ⟨.index i p'.span, ?_, .inr ⟨name, p.span, i, p'.span, rfl, hi, rfl⟩⟩
    rw [ofParam, hnumber]
    exact bind_eq_ok.2 ⟨i, Literal.readNatural_eq_ok.2 (Literal.natural?_toString hlt), rfl⟩

/-- The target of a head may be given by name or by number. -/
theorem ofHead_numbered (h : head.Numbered lookup head') (htarget : ofHead head = .ok target) :
    ∃ target', ofHead head' = .ok target' ∧ target.Numbered lookup target' := by
  obtain ⟨-, p, p', hp, hp', hnumbered⟩ := h
  rw [ofHead_eq hp] at htarget
  rw [ofHead_eq hp']
  exact ofParam_numbered hnumbered htarget

end Target

/-! ## Fields -/

/-- A field with names replaced by the indices that they mean in the
module of the draft: in the body of a function, whose slots are told by its
type, in the descriptor of an export, or in a start field. -/
inductive Expr.NumberedField (d : Draft) (named : TypeNames) : Expr → Expr → Prop where
  | same (e : Expr) : NumberedField d named e e
  | function {head : Head} {children children' : List Expr} {t : FuncType}
      (hinstr : head.instr = "func")
      (hdeclarations : Node.declarations ⟨head, children'⟩ = Node.declarations ⟨head, children⟩)
      (hsignature : Node.signature? d.types.entries named ⟨head, children⟩ = some t)
      (hbody : Expr.NumberedAll ⟨d.names, Node.slots ⟨head, children⟩ t, []⟩
        (Node.instructions ⟨head, children⟩) (Node.instructions ⟨head, children'⟩)) :
    NumberedField d named (.node head children) (.node head children')
  | exported {head : Head} {children children' : List Expr} {desc desc' : Node} {kind : ExportKind}
      (hinstr : head.instr = "export")
      (hdesc : (Node.childNodes ⟨head, children⟩).head? = some desc)
      (hdesc' : (Node.childNodes ⟨head, children'⟩).head? = some desc')
      (hkind : ExportKind.ofWord? desc.instr = some kind)
      (htarget : desc.toHead.Numbered (d.names.index? kind.space) desc'.toHead) :
    NumberedField d named (.node head children) (.node head children')
  | start {head head' : Head} {children children' : List Expr} (hinstr : head.instr = "start")
      (htarget : head.Numbered (d.names.index? .function) head') :
    NumberedField d named (.node head children) (.node head' children')

/-- A module form with names replaced by the indices that they mean in the
module of the draft. -/
structure Node.Numbered (d : Draft) (n n' : Node) : Prop where
  instr : n'.instr = n.instr
  fields : List.Forall₂ (Expr.NumberedField d (n.typeNames d.types.entries)) n.children n'.children

/-- The type fields stay as they are. -/
theorem filter_type_numbered {d : Draft} {named : TypeNames} {es es' : List Expr}
    (h : List.Forall₂ (Expr.NumberedField d named) es es') :
    (es'.filterMap Expr.node?).filter (·.instr = "type") =
      (es.filterMap Expr.node?).filter (·.instr = "type") := by
  induction h with
  | nil => rfl
  | @cons e e' es es' hfield _ ih =>
      cases hfield with
      | same =>
          rw [List.filterMap_cons, List.filterMap_cons]
          cases e.node? with
          | none => exact ih
          | some n => simp [List.filter_cons, ih]
      | function hinstr => simp [Expr.node?, hinstr, ih]
      | exported hinstr => simp [Expr.node?, hinstr, ih]
      | start hinstr htarget => simp [Expr.node?, htarget.1, hinstr, ih]

/-! ## Drafts -/

/-- Exports of the same thing under the same name. -/
structure Export.Numbered (names : Names) (e e' : Export) : Prop where
  name : e'.name = e.name
  kind : e'.kind = e.kind
  target : e.target.Numbered (names.index? e.kind.space) e'.target

/-- Bodies of the same function, one with numbers for names. -/
structure DeferredBody.Numbered (names : Names) (b b' : DeferredBody) : Prop where
  index : b'.index = b.index
  params : b'.params = b.params
  locals : b'.locals = b.locals
  body : Expr.NumberedAll ⟨names, (b.params ++ b.locals).map Slot.name, []⟩ b.body b'.body

/-- Drafts that differ in how exports and the start function refer. -/
structure Draft.Corresponds (names : Names) (d d' : Draft) : Prop where
  others : { d' with exports := d.exports, start := d.start } = d
  exports : List.Forall₂ (Export.Numbered names) d.exports d'.exports
  start : Option.Rel (Target.Numbered (names.index? .function)) d.start d'.start

structure Progress.Corresponds (names : Names) (p p' : Progress) : Prop where
  draft : p.draft.Corresponds names p'.draft
  bodies : List.Forall₂ (DeferredBody.Numbered names) p.bodies p'.bodies

theorem rel_or {α : Type} {R : α → α → Prop} {a a' b b' : Option α} (h : Option.Rel R a a')
    (h' : Option.Rel R b b') : Option.Rel R (a.or b) (a'.or b') := by
  cases h with
  | some h => exact .some h
  | none => exact h'

namespace Draft

variable {names : Names} {d d' r r' : Draft}

theorem Corresponds.refl (names : Names) (d : Draft) : d.Corresponds names d where
  others := rfl
  exports := List.forall₂_same.2 fun _ _ => ⟨rfl, rfl, .inl rfl⟩
  start := by
    cases d.start with
    | none => exact .none
    | some target => exact .some (.inl rfl)

/-- Drafts that correspond differ in what they export and start only. -/
theorem Corresponds.eq (h : d.Corresponds names d') :
    d' = { d with exports := d'.exports, start := d'.start } := by
  rw [← h.others]

/-- The exports and the start function of a draft. -/
def published (d : Draft) : Outward := ⟨d.exports, d.start, [], []⟩

/-- A draft without them. -/
def unpublished (d : Draft) : Draft := { d with exports := [], start := none }

/-- A draft is its unpublished one, with what it publishes put back. -/
theorem unpublished_behind (d : Draft) : d.unpublished.behind d.published = d := by
  simp [unpublished, published, behind]

theorem Corresponds.unpublished (h : d.Corresponds names d') : d'.unpublished = d.unpublished := by
  rw [h.eq]
  rfl

/-- What is put behind drafts that correspond keeps them so. -/
theorem Corresponds.behind (h : d.Corresponds names d') (hr : r.Corresponds names r') :
    (r.behind d.published).Corresponds names (r'.behind d'.published) where
  others := by
    rw [hr.eq]
    rfl
  exports := List.rel_append h.exports hr.exports
  start := rel_or hr.start h.start

/-- An export may refer by name or by number. -/
theorem declareExport_numbered {head : Head} {children children' : List Expr} {desc desc' : Node}
    {kind : ExportKind} (hdesc : (Node.childNodes ⟨head, children⟩).head? = some desc)
    (hdesc' : (Node.childNodes ⟨head, children'⟩).head? = some desc')
    (hkind : ExportKind.ofWord? desc.instr = some kind)
    (htarget : desc.toHead.Numbered (names.index? kind.space) desc'.toHead)
    (hr : d.declareExport ⟨head, children⟩ = .ok r) :
    ∃ r', d.declareExport ⟨head, children'⟩ = .ok r' ∧ r.Corresponds names r' := by
  have hkind' : ExportKind.ofWord? desc'.instr = some kind := by rw [htarget.1, hkind]
  obtain ⟨name, hname, hr⟩ := bind_eq_ok.1 hr
  simp only [hdesc, hkind] at hr
  obtain ⟨target, hofHead, hr⟩ := bind_eq_ok.1 hr
  obtain rfl := pure_eq_ok.1 hr
  obtain ⟨target', hofHead', hnumbered⟩ := Target.ofHead_numbered htarget hofHead
  have hsame := Corresponds.refl names d
  refine ⟨d.addExport ⟨name, kind, target'⟩, bind_eq_ok.2 ⟨name, hname, ?_⟩, rfl, ?_, hsame.start⟩
  · simp only [hdesc', hkind']
    exact bind_eq_ok.2 ⟨target', hofHead', rfl⟩
  · exact List.rel_append hsame.exports (.cons ⟨rfl, rfl, hnumbered⟩ .nil)

/-- The start function may be given by name or by number. -/
theorem declareStart_numbered {n n' : Node}
    (htarget : n.toHead.Numbered (names.index? .function) n'.toHead)
    (hr : d.declareStart n = .ok r) :
    ∃ r', d.declareStart n' = .ok r' ∧ r.Corresponds names r' := by
  obtain ⟨target, hofHead, hr⟩ := bind_eq_ok.1 hr
  obtain rfl := pure_eq_ok.1 hr
  obtain ⟨target', hofHead', hnumbered⟩ := Target.ofHead_numbered htarget hofHead
  exact ⟨d.setStart target', bind_eq_ok.2 ⟨target', hofHead', rfl⟩, rfl,
    (Corresponds.refl names d).exports, .some hnumbered⟩

end Draft

namespace Progress

variable {names : Names} {p p' q r : Progress} {e e' : Expr}

theorem Corresponds.refl (names : Names) (p : Progress) : p.Corresponds names p where
  draft := .refl names p.draft
  bodies := List.forall₂_same.2 fun b _ => ⟨rfl, rfl, rfl, .refl _ b.body⟩

/-- **Fields that do alike from one state** do alike from states that
correspond. -/
theorem Corresponds.step [HexReader] (h : p.Corresponds names p')
    (hstep : ∀ r, r.draft.types = q.draft.types → declare ⟨p.draft.unpublished, []⟩ e = .ok r →
      ∃ r', declare ⟨p.draft.unpublished, []⟩ e' = .ok r' ∧ r.Corresponds names r')
    (hq : p.declare e = .ok q) : ∃ q', p'.declare e' = .ok q' ∧ q.Corresponds names q' := by
  have hbehind : ∀ p : Progress,
      p = behind p.draft.published p.bodies ⟨p.draft.unpublished, []⟩ := by
    intro p
    rw [behind, Draft.unpublished_behind, List.append_nil]
  rw [hbehind p, declare_behind] at hq
  rw [hbehind p', h.draft.unpublished, declare_behind]
  cases hr : declare ⟨p.draft.unpublished, []⟩ e with
  | error error => rw [hr] at hq; cases hq
  | ok r =>
      rw [hr] at hq
      obtain rfl := Except.ok.inj hq
      obtain ⟨r', hr', hcorresponds⟩ := hstep r rfl hr
      rw [hr']
      exact ⟨_, rfl, h.draft.behind hcorresponds.draft,
        List.rel_append h.bodies hcorresponds.bodies⟩

/-- A function with numbers in its body is declared alike. -/
theorem declare_function [HexReader] {names : Names} {types : List FuncType} {named : TypeNames}
    {head : Head} {children children' : List Expr} {t : FuncType} (hinstr : head.instr = "func")
    (hdeclarations : Node.declarations ⟨head, children'⟩ = Node.declarations ⟨head, children⟩)
    (hsignature : Node.signature? types named ⟨head, children⟩ = some t)
    (hbody : Expr.NumberedAll ⟨names, Node.slots ⟨head, children⟩ t, []⟩
      (Node.instructions ⟨head, children⟩) (Node.instructions ⟨head, children'⟩))
    (hmean : p.draft.names.Mean types named) (hfinal : r.draft.types.entries <+: types)
    (hr : p.declare (.node head children) = .ok r) :
    ∃ r', p.declare (.node head children') = .ok r' ∧ r.Corresponds names r' := by
  obtain ⟨n, hnode, brought, htakes, hwritten⟩ := brings_of_declare hr
  obtain rfl : ⟨head, children⟩ = n := Option.some.inj hnode
  have hbodies := (hwritten types named hfinal hmean).bodies
  have hdeclare : ∀ children,
      p.declare (.node head children) = p.declareFunction ⟨head, children⟩ := by
    intro children
    simp [declare, Expr.node?, hinstr]
  rw [hdeclare] at hr
  simp only [hdeclare]
  obtain ⟨hnone, -⟩ | ⟨d, index, params, locals, hsame⟩ := declareFunction_body hr
  · -- without instructions there is nothing to replace
    rw [hnone] at hbody
    cases hbody' : Node.instructions ⟨head, children'⟩ with
    | cons e es => rw [hbody'] at hbody; cases hbody
    | nil =>
        refine ⟨r, ?_, .refl names r⟩
        rw [← hr]
        exact declareFunction_congr (n := ⟨head, children⟩) (m := ⟨head, children'⟩) rfl
          hdeclarations (hbody'.trans hnone.symm) p
  · obtain rfl := Except.ok.inj ((hsame _ rfl rfl).symm.trans hr)
    refine ⟨_, hsame _ rfl hdeclarations, .refl names d, ?_⟩
    refine List.rel_append (List.forall₂_same.2 fun b _ => ⟨rfl, rfl, rfl, .refl _ b.body⟩)
      (.cons ⟨rfl, rfl, rfl, ?_⟩ .nil)
    -- the body that is put aside is that of the form, and its slots are those of its type
    have hbrought := List.append_cancel_left (congrArg Inventory.bodies htakes.inventory)
    rw [← hbrought] at hbodies
    obtain ⟨form, hform, hdefers⟩ := exists_of_mem_forall₂ hbodies (List.mem_singleton.2 rfl)
    obtain rfl := List.mem_singleton.1 (List.mem_of_mem_filter hform)
    rw [hdefers.slots hsignature]
    exact hbody

/-- A field that works on the draft alone. -/
theorem onDraft_numbered {add : Draft → Node → Except CompileError Draft} {n n' : Node}
    (hadd : ∀ d, add p.draft n = .ok d → ∃ d', add p.draft n' = .ok d' ∧ d.Corresponds names d')
    (hr : p.onDraft add n = .ok r) : ∃ r', p.onDraft add n' = .ok r' ∧ r.Corresponds names r' := by
  obtain ⟨d, hd, rfl⟩ := onDraft_eq_ok.1 hr
  obtain ⟨d', hd', hcorresponds⟩ := hadd d hd
  exact ⟨⟨d', p.bodies⟩, onDraft_eq_ok.2 ⟨d', hd', rfl⟩, hcorresponds,
    (Corresponds.refl names p).bodies⟩

/-- **A field with numbers for names** is declared alike. -/
theorem declare_numbered [HexReader] {d : Draft} {named : TypeNames}
    (h : Expr.NumberedField d named e e') (hmean : p.draft.names.Mean d.types.entries named)
    (hfinal : r.draft.types.entries <+: d.types.entries) (hr : p.declare e = .ok r) :
    ∃ r', p.declare e' = .ok r' ∧ r.Corresponds d.names r' := by
  cases h with
  | same => exact ⟨r, hr, .refl _ r⟩
  | function hinstr hdeclarations hsignature hbody =>
      exact declare_function hinstr hdeclarations hsignature hbody hmean hfinal hr
  | @exported head children children' desc desc' kind hinstr hdesc hdesc' hkind htarget =>
      have hdeclare : ∀ children, p.declare (.node head children) =
          p.onDraft Draft.declareExport ⟨head, children⟩ := by
        intro children
        simp [declare, Expr.node?, hinstr]
      rw [hdeclare] at hr ⊢
      exact onDraft_numbered (fun _ => Draft.declareExport_numbered hdesc hdesc' hkind htarget) hr
  | @start head head' children children' hinstr htarget =>
      have hdeclare : ∀ (head : Head) (children : List Expr), head.instr = "start" →
          p.declare (.node head children) = p.onDraft Draft.declareStart ⟨head, children⟩ := by
        intro head children hinstr
        simp [declare, Expr.node?, hinstr]
      rw [hdeclare head children hinstr] at hr
      rw [hdeclare head' children' (htarget.1.trans hinstr)]
      exact onDraft_numbered (fun _ => Draft.declareStart_numbered htarget) hr

/-- **Fields with numbers for names** are declared alike, one after the
other. -/
theorem foldlM_declare_numbered [HexReader] {d : Draft} {named : TypeNames} {es es' : List Expr}
    (hfields : List.Forall₂ (Expr.NumberedField d named) es es') (h : p.Corresponds d.names p')
    (hmean : p.draft.names.Mean d.types.entries named)
    (hfinal : q.draft.types.entries <+: d.types.entries) (hq : es.foldlM declare p = .ok q) :
    ∃ q', es'.foldlM declare p' = .ok q' ∧ q.Corresponds d.names q' := by
  induction hfields generalizing p p' with
  | nil =>
      obtain rfl : p = q := pure_eq_ok.1 hq
      exact ⟨p', rfl, h⟩
  | @cons e e' es es' hfield hrest ih =>
      rw [List.foldlM_cons] at hq
      obtain ⟨p₁, hp₁, hq⟩ := bind_eq_ok.1 hq
      obtain ⟨_, -, brought, htakes, -⟩ := brings_of_declare hp₁
      obtain ⟨later, hlater, -⟩ := brings_of_foldlM hq
      have hstep : ∀ r, r.draft.types = p₁.draft.types →
          declare ⟨p.draft.unpublished, []⟩ e = .ok r →
          ∃ r', declare ⟨p.draft.unpublished, []⟩ e' = .ok r' ∧ r.Corresponds d.names r' := by
        intro r htypes hr
        refine declare_numbered hfield hmean ?_ hr
        rw [htypes]
        exact hlater.types.trans hfinal
      obtain ⟨p₁', hp₁', hcorresponds⟩ := h.step hstep hp₁
      obtain ⟨q', hq', hlast⟩ := ih hcorresponds (htakes.mean hmean) hq
      refine ⟨q', ?_, hlast⟩
      rw [List.foldlM_cons]
      exact bind_eq_ok.2 ⟨p₁', hp₁', hq'⟩

end Progress

/-! ## Bodies and targets -/

namespace Draft

variable {names : Names} {d d' r : Draft} {m : BinaryModule} {space : Space}

/-- A body compiles to the same code, with names or with numbers. -/
theorem Corresponds.compileBody [HexReader] {b b' : DeferredBody} (h : d.Corresponds names d')
    (hnames : d.names = names) (hbody : b.Numbered names b') (hr : d.compileBody b = .ok r) :
    ∃ r', d'.compileBody b' = .ok r' ∧ r.Corresponds names r' := by
  obtain ⟨instrs, types, hcompile, rfl⟩ := compileBody_eq_ok.1 hr
  subst hnames
  have hnumbered := compileAll_numbered hbody.body _ _ _ hcompile
  refine ⟨_, compileBody_eq_ok.2 ⟨instrs, types, ?_, rfl⟩, ?_, h.exports, h.start⟩
  · rw [hbody.params, hbody.locals, h.eq]
    exact hnumbered
  · rw [hbody.index, hbody.locals, h.eq]
    rfl

/-- **Bodies with numbers for names** compile alike. -/
theorem Corresponds.foldlM_compileBody [HexReader] {bodies bodies' : List DeferredBody}
    (hbodies : List.Forall₂ (DeferredBody.Numbered names) bodies bodies')
    (h : d.Corresponds names d') (hnames : d.names = names)
    (hr : bodies.foldlM Draft.compileBody d = .ok r) :
    ∃ r', bodies'.foldlM Draft.compileBody d' = .ok r' ∧ r.Corresponds names r' := by
  induction hbodies generalizing d d' with
  | nil =>
      obtain rfl : d = r := pure_eq_ok.1 hr
      exact ⟨d', rfl, h⟩
  | cons hbody hrest ih =>
      rw [List.foldlM_cons] at hr
      obtain ⟨d₁, hd₁, hr⟩ := bind_eq_ok.1 hr
      obtain ⟨d₁', hd₁', hcorresponds⟩ := h.compileBody hnames hbody hd₁
      have hnames₁ : d₁.names = names := by
        obtain ⟨-, -, -, rfl⟩ := compileBody_eq_ok.1 hd₁
        exact hnames
      obtain ⟨r', hr', hlast⟩ := ih hcorresponds hnames₁ hr
      refine ⟨r', ?_, hlast⟩
      rw [List.foldlM_cons]
      exact bind_eq_ok.2 ⟨d₁', hd₁', hr'⟩

theorem mapM_related {α α' β ε : Type} {R : α → α' → Prop} {f : α → Except ε β}
    {f' : α' → Except ε β} {a : Option α} {a' : Option α'} {b : Option β} (h : Option.Rel R a a')
    (hstep : ∀ a a' b, R a a' → f a = .ok b → f' a' = .ok b) (hb : a.mapM f = .ok b) :
    a'.mapM f' = .ok b := by
  cases h with
  | none => exact hb
  | some h =>
      obtain ⟨b, hb, hsome⟩ := bind_eq_ok.1 hb
      exact bind_eq_ok.2 ⟨b, hstep _ _ _ h hb, hsome⟩

/-- Numbers in place of names leave the kinds of exports alone. -/
theorem any_kind_numbered {exports exports' : List Export}
    (h : List.Forall₂ (Export.Numbered names) exports exports') (kind : ExportKind) :
    exports'.any (·.kind == kind) = exports.any (·.kind == kind) := by
  induction h with
  | nil => rfl
  | cons hexport _ ih => rw [List.any_cons, List.any_cons, hexport.kind, ih]

/-- What a name resolves to is in range, so its index resolves to
itself. -/
theorem Corresponds.resolve (h : d.Corresponds names d') (hsound : d.Sound)
    {target target' : Target} {i : Nat} (htarget : target.Numbered (d.names.index? space) target')
    (hi : d.resolve space target = .ok i) : d'.resolve space target' = .ok i := by
  have hsame : ∀ target, d'.resolve space target = d.resolve space target := by
    intro target
    rw [h.eq]
    cases target <;> rfl
  rw [hsame]
  obtain rfl | ⟨name, span, index, span', rfl, hindex, rfl⟩ := htarget
  · exact hi
  · obtain rfl : index = i := Option.some.inj (hindex.symm.trans (resolved_eq_ok.1 hi))
    exact if_pos (hsound.resolve_lt hi)

/-- Whether tables are written depends on the kinds of the exports. -/
theorem Corresponds.writtenTables (h : d.Corresponds names d') :
    d'.writtenTables = d.writtenTables := by
  have hneeds : d'.needsTables = d.needsTables := by
    rw [Draft.needsTables, Draft.needsTables, any_kind_numbered h.exports, h.eq]
  rw [Draft.writtenTables, Draft.writtenTables, hneeds, h.eq]

/-- **Drafts that correspond** are finished alike. -/
theorem Corresponds.finish (h : d.Corresponds d.names d') (hsound : d.Sound)
    (hfinish : d.finish = .ok m) : d'.finish = .ok m := by
  obtain ⟨exports, hexports, hfinish⟩ := bind_eq_ok.1 hfinish
  obtain ⟨start, hstart, hfinish⟩ := bind_eq_ok.1 hfinish
  obtain ⟨elements, helements, hfinish⟩ := bind_eq_ok.1 hfinish
  obtain ⟨tables, htables, hfinish⟩ := bind_eq_ok.1 hfinish
  refine bind_eq_ok.2 ⟨exports, ?_, bind_eq_ok.2 ⟨start, ?_, bind_eq_ok.2 ⟨elements, ?_,
    bind_eq_ok.2 ⟨tables, h.writtenTables.trans htables, ?_⟩⟩⟩⟩
  · refine mapM_eq_ok.2 ((forall₂_comp h.exports.flip (mapM_eq_ok.1 hexports)).imp ?_)
    rintro e' written ⟨e, he, hwritten⟩
    obtain ⟨index, hindex, hwritten⟩ := bind_eq_ok.1 hwritten
    rw [he.name, he.kind]
    exact bind_eq_ok.2 ⟨index, h.resolve hsound he.target hindex, hwritten⟩
  · exact mapM_related h.start (fun _ _ _ => h.resolve hsound) hstart
  · rw [h.eq]
    exact helements
  · rw [h.eq]
    exact hfinish

end Draft

/-! ## Modules -/

/-- **A module keeps its bytes** when names give way to numbers. -/
theorem Node.compile_numbered [HexReader] {n n' : Node} {d : Draft} {bytes : List UInt8}
    (hdraft : Draft.ofNode n = .ok d) (hnumbered : n.Numbered d n') (h : n.compile = .ok bytes) :
    n'.compile = .ok bytes := by
  obtain ⟨d₀, hdraft₀, hbuild⟩ := bind_eq_ok.1 h
  obtain rfl : d = d₀ := Except.ok.inj (hdraft.symm.trans hdraft₀)
  obtain ⟨m, hfinish, rfl⟩ := Draft.build_eq_ok.1 hbuild
  obtain ⟨hmodule, p, hp, hbodies⟩ := Draft.ofNode_eq_ok.1 hdraft
  obtain ⟨typed, htyped, hfold⟩ := bind_eq_ok.1 hp
  have hfilled := Draft.filled_of_foldlM hbodies
  obtain ⟨brought, htakes, -⟩ := Progress.brings_of_foldlM hfold
  have hmean := (Draft.named_of_foldlM htyped).mean _ (htakes.types.trans hfilled.types)
  obtain ⟨p', hfold', hp'⟩ := Progress.foldlM_declare_numbered hnumbered.fields (.refl _ _) hmean
    hfilled.types hfold
  obtain ⟨d', hbodies', hd'⟩ := hp'.draft.foldlM_compileBody hp'.bodies hfilled.names.symm hbodies
  have hofNode' : Progress.ofNode n' = .ok p' := by
    refine bind_eq_ok.2 ⟨typed, ?_, hfold'⟩
    rw [Node.childNodes, filter_type_numbered hnumbered.fields]
    exact htyped
  have hdraft' : Draft.ofNode n' = .ok d' :=
    Draft.ofNode_eq_ok.2 ⟨hnumbered.instr.trans hmodule, p', hofNode', hbodies'⟩
  refine bind_eq_ok.2 ⟨d', hdraft', Draft.build_eq_ok.2 ⟨m, ?_, rfl⟩⟩
  exact hd'.finish (Draft.ofNode_sound hdraft) hfinish

/-- **Names and indices agree.** Take a module form that compiles, and the
draft that it makes. Replace any of the names of functions, globals, locals
and enclosing constructs in the bodies of functions, and any of the names
that are the one argument of an export descriptor or a start field, by the
decimal index or depth that each means. Then the form compiles to the same
bytes. -/
theorem numbered_alike [HexReader] {n n' : Node} {d : Draft} {bytes : List UInt8}
    (h : n.compile = .ok bytes)
    (hdraft : Draft.ofNode n.bare = .ok d) (hnumbered : n.bare.Numbered d n'.bare) :
    n'.compile = .ok bytes := by
  rw [← n.compile_bare] at h
  rw [← n'.compile_bare]
  exact Node.compile_numbered hdraft hnumbered h

/-- A reference by name. -/
def byName (instr name : String) (_ : Nat) : Head := ⟨instr, some ⟨name, .zero⟩, [], .zero⟩

/-- The same reference by index. -/
def byIndex (instr _name : String) (i : Nat) : Head :=
  ⟨instr, none, [⟨.number (toString i), .zero⟩], .zero⟩

/-- A loop inside a block, left by one branch and repeated by
another. -/
def tallyBody (refer : String → String → Nat → Head) : List Expr :=
  let step := .node (refer "local.get" "n" 0) []
  let total := .node (refer "global.get" "total" 0) []
  [.node ⟨"block", some ⟨"done", .zero⟩, [], .zero⟩
    [.node ⟨"loop", some ⟨"again", .zero⟩, [], .zero⟩
      [.node (refer "br_if" "done" 1) [.node (.plain "i32.eqz" .zero) [step]],
        .node (refer "global.set" "total" 0) [.node (.plain "i32.add" .zero) [total, step]],
        .node (refer "br" "again" 0) []]]]

/-- A module with every kind of reference, in the given way. -/
def tallyModule (refer : String → String → Nat → Head) : Node where
  toHead := .plain "module" .zero
  children :=
    let number := .node (.plain "i32" .zero) []
    let literal := .node ⟨"i32.const", none, [⟨.number "3", .zero⟩], .zero⟩ []
    [.node (refer "start" "main" 1) [],
      .node ⟨"global", some ⟨"total", .zero⟩, [], .zero⟩
        [.node (.plain "mut" .zero) [number], literal],
      .node ⟨"func", some ⟨"tally", .zero⟩, [], .zero⟩
        (.node ⟨"param", some ⟨"n", .zero⟩, [], .zero⟩ [number] :: tallyBody refer),
      .node ⟨"func", some ⟨"main", .zero⟩, [], .zero⟩ [.node (refer "call" "tally" 0) [literal]],
      .node ⟨"export", none, [⟨.str [0x74], .zero⟩], .zero⟩
        [.node (refer "func" "tally" 0) []]]

def tallyBytes : List UInt8 :=
  [0x00, 0x61, 0x73, 0x6D, 1, 0, 0, 0, 1, 8, 2, 0x60, 1, 0x7F, 0, 0x60, 0, 0, 3, 3, 2, 0, 1,
    6, 6, 1, 0x7F, 1, 0x41, 3, 0x0B, 7, 5, 1, 1, 0x74, 0, 0, 8, 1, 1, 10, 31, 2, 22, 0,
    0x02, 0x40, 0x03, 0x40, 0x20, 0, 0x45, 0x0D, 1, 0x23, 0, 0x20, 0, 0x6A, 0x24, 0, 0x0C, 0,
    0x0B, 0x0B, 0x0B, 6, 0, 0x41, 3, 0x10, 0, 0x0B]

theorem Head.numbered_byIndex {lookup : String → Option Nat} {instr name : String} {i : Nat}
    (hi : lookup name = some i) (hlt : i < 2 ^ 32) :
    (byName instr name i).Numbered lookup (byIndex instr name i) :=
  ⟨rfl, _, _, rfl, rfl, .inr ⟨name, i, rfl, hi, hlt, rfl⟩⟩

theorem Expr.numbered_byIndex {env : Env} {instr name : String} {i : Nat} {es es' : List Expr}
    (shape : Shape) (hop : (Opcode.ofName? instr).map (·.shape) = some shape)
    (hi : env.lookup? shape name = some i) (hlt : i < 2 ^ 32) (hes : Expr.NumberedAll env es es') :
    Expr.Numbered env (.node (byName instr name i) es) (.node (byIndex instr name i) es') := by
  obtain ⟨op, hname, rfl⟩ := Option.map_eq_some_iff.1 hop
  have hplain : op.shape.IsPlain := by
    constructor <;> intro hshape <;> rw [hshape] at hi <;> cases hi
  exact .plain hname hplain rfl (.cons (.inr ⟨name, i, rfl, hi, hlt, rfl⟩) .nil) hes

theorem numberedAll_tallyBody {names : Names} (h : names.index? .global "total" = some 0) :
    Expr.NumberedAll ⟨names, [some "n"], []⟩ (tallyBody byName) (tallyBody byIndex) := by
  have hblock : Opcode.ofName? "block" = some ⟨"block", 0x02, .structured⟩ := by decide
  have hloop : Opcode.ofName? "loop" = some ⟨"loop", 0x03, .structured⟩ := by decide
  have heqz : Opcode.ofName? "i32.eqz" = some ⟨"i32.eqz", 0x45, .none⟩ := by decide
  have hadd : Opcode.ofName? "i32.add" = some ⟨"i32.add", 0x6A, .none⟩ := by decide
  have hplain : Shape.none.IsPlain := ⟨by decide, by decide⟩
  refine .cons (.block hblock rfl (by decide) rfl (.cons (.block hloop rfl (by decide) rfl ?_)
    (.nil _))) (.nil _)
  have hstep : Expr.Numbered ⟨names, [some "n"], [some "again", some "done"]⟩
      (.node (byName "local.get" "n" 0) []) (.node (byIndex "local.get" "n" 0) []) :=
    Expr.numbered_byIndex .local (by decide) (by rfl) (by decide) (.nil _)
  have htotal : Expr.Numbered ⟨names, [some "n"], [some "again", some "done"]⟩
      (.node (byName "global.get" "total" 0) []) (.node (byIndex "global.get" "total" 0) []) :=
    Expr.numbered_byIndex .global (by decide) h (by decide) (.nil _)
  refine .cons ?_ (.cons ?_ (.cons ?_ (.nil _)))
  · refine Expr.numbered_byIndex .label (by decide) (by rfl) (by decide) (.cons ?_ (.nil _))
    exact .plain heqz hplain rfl .nil (.cons hstep (.nil _))
  · refine Expr.numbered_byIndex .global (by decide) h (by decide) (.cons ?_ (.nil _))
    exact .plain hadd hplain rfl .nil (.cons htotal (.cons hstep (.nil _)))
  · exact Expr.numbered_byIndex .label (by decide) (by rfl) (by decide) (.nil _)

theorem numbered_alike_tally : (tallyModule byName).compile = .ok tallyBytes ∧
    (tallyModule byIndex).compile = .ok tallyBytes := by
  have hcompile : (tallyModule byName).compile = .ok tallyBytes := by decide +kernel
  have hbare : (tallyModule byName).bare = tallyModule byName := by
    simp only [Node.bare, Node.dress, tallyModule, tallyBody, List.map_cons, List.map_nil,
      Expr.dress_node]
    rfl
  have hbare' : (tallyModule byIndex).bare = tallyModule byIndex := by
    simp only [Node.bare, Node.dress, tallyModule, tallyBody, List.map_cons, List.map_nil,
      Expr.dress_node]
    rfl
  have hnames : ((Draft.ofNode (tallyModule byName)).toOption.any fun d =>
      d.names.index? .function "tally" = some 0 ∧ d.names.index? .function "main" = some 1 ∧
        d.names.index? .global "total" = some 0) = true := by decide +kernel
  rw [← hbare] at hnames
  cases hdraft : Draft.ofNode (tallyModule byName).bare with
  | error e => rw [hdraft] at hnames; cases hnames
  | ok d =>
      rw [hdraft] at hnames
      obtain ⟨htally, hmain, htotal⟩ := of_decide_eq_true hnames
      refine ⟨hcompile, numbered_alike hcompile hdraft ?_⟩
      rw [hbare, hbare']
      refine ⟨rfl, .cons ?_ (.cons (.same _) (.cons ?_ (.cons ?_ (.cons ?_ .nil))))⟩
      · exact .start rfl (Head.numbered_byIndex hmain (by decide))
      · exact .function rfl rfl rfl (numberedAll_tallyBody htotal)
      · exact .function rfl rfl rfl (.cons (Expr.numbered_byIndex .function (by decide) htally
          (by decide) (Expr.NumberedAll.refl _ _)) (.nil _))
      · exact .exported rfl rfl rfl rfl (Head.numbered_byIndex htally (by decide))

end WasmText
