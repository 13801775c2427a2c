import WasmText.Compile
import WasmText.Proofs.Module.Sound
/-!
# Declarations are allowed

Every field of a module comes to allowed operations on the draft, so the
draft of a module form is sound (`Draft.ofNode_sound`). A body that is put
aside stays tied to the entry of its function, whose type has as many
parameters as the body counts among its locals (`DeferredBody.Awaited`).
-/

namespace WasmText

/-! ## Limits -/

theorem Limits.bounds_lt {bearer : Bearer} {ps : List Param} {sizes : List Nat} {shared : Bool}
    (h : bounds bearer ps = .ok (sizes, shared)) : ∀ n ∈ sizes, n < 2 ^ 32 := by
  induction ps generalizing sizes shared with
  | nil =>
      obtain ⟨rfl, -⟩ := Prod.mk.inj (Except.ok.inj h)
      nofun
  | cons p ps ih =>
      -- a number, in either notation, goes before the rest
      have hcons : ∀ {text : String} {bound : Nat} {rest : List Nat},
          Literal.readNatural text p.span = .ok bound → (∀ n ∈ rest, n < 2 ^ 32) →
            ∀ n ∈ bound :: rest, n < 2 ^ 32 := fun hbound hrest =>
        List.forall_mem_cons.2
          ⟨Literal.natural?_lt (Literal.readNatural_eq_ok.1 hbound), hrest⟩
      rw [bounds.eq_def] at h
      simp only at h
      split at h
      · obtain ⟨bound, hbound, h⟩ := bind_eq_ok.1 h
        obtain ⟨⟨rest, shared'⟩, hrest, h⟩ := bind_eq_ok.1 h
        obtain ⟨rfl, -⟩ := Prod.mk.inj (pure_eq_ok.1 h)
        exact hcons hbound (ih hrest)
      · obtain ⟨bound, hbound, h⟩ := bind_eq_ok.1 h
        obtain ⟨⟨rest, shared'⟩, hrest, h⟩ := bind_eq_ok.1 h
        obtain ⟨rfl, -⟩ := Prod.mk.inj (pure_eq_ok.1 h)
        exact hcons hbound (ih hrest)
      · obtain ⟨⟨rest, shared'⟩, hrest, h⟩ := bind_eq_ok.1 h
        obtain ⟨rfl, -⟩ := Prod.mk.inj (pure_eq_ok.1 h)
        exact ih hrest
      · exact ih h
      · cases h

theorem Limits.ofHead_inWords {bearer : Bearer} {head : Head} {l : Limits}
    (h : ofHead bearer head = .ok l) : l.InWords := by
  obtain ⟨⟨sizes, shared⟩, hbounds, h⟩ := bind_eq_ok.1 h
  have hlt := bounds_lt hbounds
  split at h
  next heq =>
    obtain ⟨rfl, -⟩ := Prod.mk.inj heq
    obtain rfl := pure_eq_ok.1 h
    exact ⟨hlt _ (by simp), nofun⟩
  next heq =>
    obtain ⟨rfl, -⟩ := Prod.mk.inj heq
    obtain rfl := pure_eq_ok.1 h
    refine ⟨hlt _ (by simp), fun max hmax => hlt _ ?_⟩
    obtain rfl := Option.some.inj hmax
    simp
  next => exact absurd h throw_ne_ok

/-! ## Signatures -/

/-- A signature stands where registering it says. -/
theorem TypeTable.at?_intern (table : TypeTable) (t : FuncType) :
    (table.intern t).2.at? (table.intern t).1 = some t := by
  obtain ⟨hlt, hat, -⟩ := List.idxOf?_eq_some_iff.1 (table.idxOf?_intern t)
  rw [at?, List.getElem?_eq_getElem hlt]
  exact congrArg some hat

/-- The signature of a form is in the table that it leaves. -/
theorem Signature.intern_eq_ok {names : Names} {table table' : TypeTable} {n : Node} {index : Nat}
    (h : intern names table n = .ok (index, table')) : table.Grows table' ∧ index < table'.count := by
  obtain ⟨⟨type, use⟩, hsig, h⟩ := bind_eq_ok.1 h
  obtain ⟨u, i, -, -, hlt, rfl⟩ | ⟨-, -, rfl⟩ := ofNode_eq_ok hsig
  · obtain ⟨rfl, rfl⟩ := Prod.mk.inj (pure_eq_ok.1 h)
    exact ⟨Relation.ReflTransGen.refl, hlt⟩
  · obtain ⟨rfl, rfl⟩ := Prod.mk.inj (pure_eq_ok.1 h)
    exact ⟨.intern table type, TypeTable.lt_count_of_idxOf? (table.idxOf?_intern type)⟩

namespace Draft

variable {d d' : Draft} {n : Node}

/-! ## Sequences of operations -/

theorem Steps.refl (d : Draft) : Steps d d := Relation.ReflTransGen.refl

theorem Steps.single (op : Operation) {registered : Option Registration} (hop : op.Allowed d)
    (hrun : d.perform op = .ok (registered, d')) : Steps d d' :=
  Relation.ReflTransGen.single ⟨op, registered, hop, hrun⟩

theorem Steps.trans {d'' : Draft} (h : Steps d d') (h' : Steps d' d'') : Steps d d'' :=
  Relation.ReflTransGen.trans h h'

/-- A table grows by registering one signature after the other. -/
theorem steps_of_grows {types : TypeTable} (h : d.types.Grows types) :
    Steps d { d with types } := by
  induction h with
  | refl => exact .refl d
  | tail _ hstep ih =>
      obtain ⟨t, rfl⟩ := hstep
      exact ih.trans (.single (.internType t) trivial rfl)

theorem steps_exportAll (d : Draft) (kind : ExportKind) (index : Nat)
    (exports : List (String × Span)) : Steps d (d.exportAll kind index exports) := by
  unfold exportAll
  induction exports generalizing d with
  | nil => exact .refl d
  | cons e exports ih =>
      exact (Steps.single (.addExport ⟨e.1, kind, .index index e.2⟩) trivial rfl).trans (ih _)

theorem typing_eq_ok {α : Type} {step : Typing α} {a : α} :
    d.typing step = .ok (a, d') ↔ ∃ types, step d.types = .ok a types ∧ { d with types } = d' := by
  unfold typing
  split
  next b types heq => simp [heq]
  next e types heq => simp [heq]

/-- **A constant expression** registers types, and is coded. -/
theorem Sound.constant [HexReader] (h : d.Sound) {es : List Expr} {bytes : List UInt8}
    (hrun : d.constant es = .ok (bytes, d')) : Steps d d' ∧ d'.Coded 0 bytes := by
  obtain ⟨⟨instrs, d₁⟩, htyping, hrun⟩ := bind_eq_ok.1 hrun
  obtain ⟨rfl, rfl⟩ := Prod.mk.inj (pure_eq_ok.1 hrun)
  obtain ⟨types, hcompile, rfl⟩ := typing_eq_ok.1 htyping
  obtain ⟨log, hlog⟩ := h.consistent
  exact ⟨steps_of_grows (compileAll_linear hcompile).1, (coded_of_compileAll hlog hcompile).2⟩

/-! ## Fields -/

theorem declareType_steps (hrun : d.declareType n = .ok d') : Steps d d' := by
  unfold declareType at hrun
  split at hrun
  · exact absurd hrun throw_ne_ok
  · obtain ⟨⟨type, use⟩, -, hrun⟩ := bind_eq_ok.1 hrun
    obtain rfl := pure_eq_ok.1 hrun
    exact .single (.addType n.label? type) trivial rfl

/-- An import registers the signature that it spells out, and is added. -/
theorem declareImport_steps (hrun : d.declareImport n = .ok d') : Steps d d' := by
  obtain ⟨⟨module, field⟩, -, hrun⟩ := bind_eq_ok.1 hrun
  cases hdesc : n.childNodes.head? with
  | none =>
      rw [hdesc] at hrun
      exact absurd hrun throw_ne_ok
  | some desc =>
      simp only [hdesc] at hrun
      split at hrun
      · obtain ⟨⟨type, types⟩, hintern, hrun⟩ := bind_eq_ok.1 hrun
        obtain ⟨⟨index, d₁⟩, himport, hrun⟩ := bind_eq_ok.1 hrun
        obtain rfl := pure_eq_ok.1 hrun
        obtain ⟨hgrows, hlt⟩ := Signature.intern_eq_ok hintern
        exact (steps_of_grows hgrows).trans
          (.single (.importFunction desc.label? module field type desc.span) hlt
            (bind_eq_ok.2 ⟨_, himport, rfl⟩))
      · obtain ⟨limits, hlimits, hrun⟩ := bind_eq_ok.1 hrun
        obtain ⟨⟨index, d₁⟩, himport, hrun⟩ := bind_eq_ok.1 hrun
        obtain rfl := pure_eq_ok.1 hrun
        exact .single (.importMemory desc.label? module field limits desc.span)
          (Limits.ofHead_inWords hlimits) (bind_eq_ok.2 ⟨_, himport, rfl⟩)
      · split at hrun
        · exact absurd hrun throw_ne_ok
        · obtain ⟨type, -, hrun⟩ := bind_eq_ok.1 hrun
          obtain ⟨⟨index, d₁⟩, himport, hrun⟩ := bind_eq_ok.1 hrun
          obtain rfl := pure_eq_ok.1 hrun
          exact .single (.importGlobal desc.label? module field type desc.span) trivial
            (bind_eq_ok.2 ⟨_, himport, rfl⟩)
      · exact absurd hrun throw_ne_ok

theorem declareMemory_steps (hrun : d.declareMemory n = .ok d') : Steps d d' := by
  obtain ⟨limits, hlimits, hrun⟩ := bind_eq_ok.1 hrun
  obtain ⟨⟨index, d₁⟩, hadd, hrun⟩ := bind_eq_ok.1 hrun
  obtain ⟨exports, -, hrun⟩ := bind_eq_ok.1 hrun
  obtain rfl := pure_eq_ok.1 hrun
  have hadded : Steps d d₁ :=
    .single (.addMemory n.label? limits n.span) (Limits.ofHead_inWords hlimits)
      (bind_eq_ok.2 ⟨_, hadd, rfl⟩)
  exact hadded.trans (steps_exportAll _ _ _ _)

theorem declareTable_steps (hrun : d.declareTable n = .ok d') : Steps d d' := by
  obtain ⟨limits, hlimits, hrun⟩ := bind_eq_ok.1 hrun
  obtain ⟨exports, -, hrun⟩ := bind_eq_ok.1 hrun
  obtain rfl := pure_eq_ok.1 hrun
  have hadded : Steps d (d.addTable n.label? limits).2 :=
    .single (.addTable n.label? limits) (Limits.ofHead_inWords hlimits) rfl
  exact hadded.trans (steps_exportAll _ _ _ _)

/-- A global is added once its first value is compiled. -/
theorem Sound.declareGlobal [HexReader] (h : d.Sound) (hrun : d.declareGlobal n = .ok d') :
    Steps d d' := by
  unfold Draft.declareGlobal at hrun
  split at hrun
  · exact absurd hrun throw_ne_ok
  · obtain ⟨type, -, hrun⟩ := bind_eq_ok.1 hrun
    obtain ⟨⟨init, d₁⟩, hinit, hrun⟩ := bind_eq_ok.1 hrun
    obtain ⟨exports, -, hrun⟩ := bind_eq_ok.1 hrun
    obtain rfl := pure_eq_ok.1 hrun
    obtain ⟨hsteps, hcoded⟩ := h.constant hinit
    have hadded : Steps d₁ (d₁.addGlobal n.label? ⟨type, init⟩).2 :=
      .single (.addGlobal n.label? ⟨type, init⟩) hcoded rfl
    exact (hsteps.trans hadded).trans (steps_exportAll _ _ _ _)

theorem declareExport_steps (hrun : d.declareExport n = .ok d') : Steps d d' := by
  obtain ⟨name, -, hrun⟩ := bind_eq_ok.1 hrun
  split at hrun
  · exact absurd hrun throw_ne_ok
  · split at hrun
    · exact absurd hrun throw_ne_ok
    · obtain ⟨target, -, hrun⟩ := bind_eq_ok.1 hrun
      obtain rfl := pure_eq_ok.1 hrun
      exact .single (.addExport _) trivial rfl

theorem Sound.segmentOffset [HexReader] (h : d.Sound) {offset : List UInt8} {rest : List Expr}
    (hrun : d.segmentOffset n = .ok (offset, rest, d')) : Steps d d' ∧ d'.Coded 0 offset := by
  unfold Draft.segmentOffset at hrun
  split at hrun
  · obtain ⟨⟨bytes, d₁⟩, hconstant, hrun⟩ := bind_eq_ok.1 hrun
    obtain ⟨rfl, hpair⟩ := Prod.mk.inj (pure_eq_ok.1 hrun)
    obtain ⟨-, rfl⟩ := Prod.mk.inj hpair
    exact h.constant hconstant
  · exact absurd hrun throw_ne_ok

theorem Sound.declareElement [HexReader] (h : d.Sound) (hrun : d.declareElement n = .ok d') :
    Steps d d' := by
  obtain ⟨⟨offset, rest, d₁⟩, hoffset, hrun⟩ := bind_eq_ok.1 hrun
  obtain ⟨inner, -, hrun⟩ := bind_eq_ok.1 hrun
  obtain ⟨trailing, -, hrun⟩ := bind_eq_ok.1 hrun
  obtain rfl := pure_eq_ok.1 hrun
  obtain ⟨hsteps, hcoded⟩ := h.segmentOffset hoffset
  exact hsteps.trans
    (.single (.addElement ⟨offset, inner.flatten ++ trailing, n.span⟩) hcoded rfl)

theorem Sound.declareData [HexReader] (h : d.Sound) (hrun : d.declareData n = .ok d') :
    Steps d d' := by
  obtain ⟨⟨offset, rest, d₁⟩, hoffset, hrun⟩ := bind_eq_ok.1 hrun
  obtain ⟨inner, -, hrun⟩ := bind_eq_ok.1 hrun
  obtain ⟨trailing, -, hrun⟩ := bind_eq_ok.1 hrun
  obtain rfl := pure_eq_ok.1 hrun
  obtain ⟨hsteps, hcoded⟩ := h.segmentOffset hoffset
  exact hsteps.trans (.single (.addData ⟨offset, inner.flatten ++ trailing.flatten⟩) hcoded rfl)

theorem declareStart_steps (hrun : d.declareStart n = .ok d') : Steps d d' := by
  obtain ⟨target, -, hrun⟩ := bind_eq_ok.1 hrun
  obtain rfl := pure_eq_ok.1 hrun
  exact .single (.setStart target) trivial rfl

end Draft

/-! ## Function fields -/

namespace FunctionField

variable {f : FunctionField} {n : Node}

/-- Only a `param` form, which spells out a signature, brings
parameters. -/
theorem ofChild_params {e : Expr} (h : ofChild e = .ok f) (hs : f.spelled = false) :
    f.params = [] := by
  unfold ofChild at h
  cases hnode : e.node? with
  | none =>
      simp only [hnode] at h
      obtain rfl := pure_eq_ok.1 h
      rfl
  | some n =>
      simp only [hnode] at h
      split at h
      · obtain rfl := pure_eq_ok.1 h
        rfl
      · obtain ⟨name, -, h⟩ := bind_eq_ok.1 h
        obtain rfl := pure_eq_ok.1 h
        rfl
      · obtain ⟨⟨module, field⟩, -, h⟩ := bind_eq_ok.1 h
        obtain rfl := pure_eq_ok.1 h
        rfl
      · obtain ⟨params, -, h⟩ := bind_eq_ok.1 h
        obtain rfl := pure_eq_ok.1 h
        cases hs
      · obtain ⟨results, -, h⟩ := bind_eq_ok.1 h
        obtain rfl := pure_eq_ok.1 h
        rfl
      · obtain ⟨locals, -, h⟩ := bind_eq_ok.1 h
        obtain rfl := pure_eq_ok.1 h
        rfl
      · obtain rfl := pure_eq_ok.1 h
        rfl

theorem ofNode_params (h : ofNode n = .ok f) (hs : f.spelled = false) : f.params = [] := by
  obtain ⟨parts, hparts, h⟩ := bind_eq_ok.1 h
  obtain rfl := pure_eq_ok.1 h
  refine List.flatMap_eq_nil_iff.2 fun part hpart => ?_
  obtain ⟨e, -, he⟩ := exists_of_mem_mapM (mapM_toOption hparts) hpart
  have hspelled : part.spelled = false := by simpa using List.any_eq_false.1 hs part hpart
  refine ofChild_params (e := e) ?_ hspelled
  cases hchild : ofChild e with
  | error _ => simp [hchild, Except.toOption] at he
  | ok _ => simpa [hchild, Except.toOption] using he

/-- A signature that is spelled out beside a type is that type. -/
theorem agreed_at? {names : Names} {table : TypeTable} {use : Node} {type : FuncType} {index : Nat}
    (h : Signature.agreed names table use (some type) = .ok index) :
    table.at? index = some type := by
  obtain ⟨i, -, h⟩ := bind_eq_ok.1 h
  split at h
  next hbeside =>
    obtain rfl := pure_eq_ok.1 h
    simpa [eq_comm] using hbeside
  next => exact absurd h throw_ne_ok

/-- **The type of a function field** is in the table that it leaves, and
has as many parameters as the body will count. -/
theorem resolveType_eq_ok {names : Names} {table table' : TypeTable} {index : Nat}
    {params : List Slot} (hf : ofNode n = .ok f)
    (h : f.resolveType names table n = .ok (index, params, table')) :
    table.Grows table' ∧ ∃ t, table'.at? index = some t ∧ t.params.length = params.length := by
  unfold resolveType at h
  split at h
  · obtain ⟨i, hagreed, h⟩ := bind_eq_ok.1 h
    split at h
    next hspelled =>
      obtain ⟨rfl, hpair⟩ := Prod.mk.inj (pure_eq_ok.1 h)
      obtain ⟨rfl, rfl⟩ := Prod.mk.inj hpair
      rw [signature?, if_pos hspelled] at hagreed
      exact ⟨Relation.ReflTransGen.refl, _, agreed_at? hagreed, List.length_map _⟩
    next =>
      obtain ⟨rfl, hpair⟩ := Prod.mk.inj (pure_eq_ok.1 h)
      obtain ⟨rfl, rfl⟩ := Prod.mk.inj hpair
      have hlt : i < table.entries.length := (Signature.agreed_eq_ok hagreed).2
      have hat : table.at? i = some table.entries[i] := List.getElem?_eq_getElem hlt
      refine ⟨Relation.ReflTransGen.refl, _, hat, ?_⟩
      rw [hat, List.length_map, Option.getD_some]
  · obtain ⟨rfl, hpair⟩ := Prod.mk.inj (pure_eq_ok.1 h)
    obtain ⟨rfl, rfl⟩ := Prod.mk.inj hpair
    refine ⟨.intern _ _, f.signature?.getD .empty, ?_, ?_⟩
    · exact table.at?_intern _
    · -- a field that spells nothing out has no parameters, like the empty type
      by_cases hspelled : f.spelled
      · simp [signature?, hspelled]
      · simp [signature?, hspelled, FuncType.empty, ofNode_params hf (by simpa using hspelled)]

end FunctionField

/-! ## Bodies put aside -/

/-- The function of a body is defined, and its type has the parameters
that the body counts among its locals. -/
def DeferredBody.Awaited (b : DeferredBody) (d : Draft) : Prop :=
  ∃ type t, (d.space .function)[b.index]? = some (.function type) ∧
    d.types.at? type = some t ∧ t.params.length = b.params.length

theorem DeferredBody.Awaited.of_extends {b : DeferredBody} {d d' : Draft} (h : d.Extends d')
    (hb : b.Awaited d) : b.Awaited d' := by
  obtain ⟨type, t, hspace, ht, hlen⟩ := hb
  exact ⟨type, t, h.getElem? hspace, h.at? ht, hlen⟩

/-- A sound draft, and bodies that it awaits. -/
structure Progress.Sound (p : Progress) : Prop where
  draft : p.draft.Sound
  bodies : ∀ b ∈ p.bodies, b.Awaited p.draft

namespace Progress

variable {p p' : Progress} {n : Node}

/-- Operations on the draft leave the bodies awaited. -/
theorem Sound.steps (h : p.Sound) {d : Draft} (hsteps : Draft.Steps p.draft d) :
    Sound { p with draft := d } := by
  obtain ⟨hsound, hextends⟩ := h.draft.steps hsteps
  exact ⟨hsound, fun b hb => (h.bodies b hb).of_extends hextends⟩

theorem onDraft_eq_ok {step : Draft → Node → Except CompileError Draft} :
    p.onDraft step n = .ok p' ↔ ∃ d, step p.draft n = .ok d ∧ p' = ⟨d, p.bodies⟩ := by
  rw [onDraft, bind_eq_ok]
  exact exists_congr fun d => and_congr_right fun _ => pure_eq_ok.trans eq_comm

theorem Sound.onDraft (h : p.Sound) {step : Draft → Node → Except CompileError Draft}
    (hstep : ∀ d, step p.draft n = .ok d → Draft.Steps p.draft d)
    (hrun : p.onDraft step n = .ok p') : p'.Sound := by
  obtain ⟨d, hd, rfl⟩ := onDraft_eq_ok.1 hrun
  exact h.steps (hstep d hd)

/-- A function that was just added stands at its index. -/
theorem space_addFunction {d : Draft} {name : Option String} {type : Nat}
    (h : (d.addFunction name type).2.Sound) :
    ((d.addFunction name type).2.space .function)[(d.addFunction name type).1]? =
      some (.function type) := by
  obtain ⟨log, hlog⟩ := h.consistent
  have hfunctions : (d.addFunction name type).2.functions =
      d.functions ++ [⟨d.functions.length, type, false, ⟨[], []⟩⟩] := by
    cases name <;> rfl
  refine hlog.numbered.space_function (f := ⟨d.functions.length, type, false, ⟨[], []⟩⟩) ?_ rfl
  rw [hfunctions]
  exact List.getElem?_concat_length

/-- **A function field** imports a function, or defines one and puts its
body aside. -/
theorem Sound.declareFunction (h : p.Sound) (hrun : p.declareFunction n = .ok p') :
    p'.Sound := by
  obtain ⟨f, hf, hrun⟩ := bind_eq_ok.1 hrun
  obtain ⟨⟨type, params, types⟩, hresolve, hrun⟩ := bind_eq_ok.1 hrun
  obtain ⟨hgrows, t, ht, hlen⟩ := FunctionField.resolveType_eq_ok hf hresolve
  have hlt : type < types.count := (List.getElem?_eq_some_iff.1 ht).1
  have htypes := Draft.steps_of_grows hgrows
  cases horigin : f.origin with
  | some origin =>
      obtain ⟨module, field, span⟩ := origin
      simp only [horigin] at hrun
      split at hrun
      · obtain ⟨⟨index, d⟩, himport, hrun⟩ := bind_eq_ok.1 hrun
        obtain rfl := pure_eq_ok.1 hrun
        have himported : Draft.Steps { p.draft with types } d :=
          .single (.importFunction n.label? module field type span) hlt
            (bind_eq_ok.2 ⟨_, himport, rfl⟩)
        exact h.steps ((htypes.trans himported).trans (Draft.steps_exportAll _ _ _ _))
      · exact absurd hrun throw_ne_ok
      · exact absurd hrun throw_ne_ok
  | none =>
      simp only [horigin] at hrun
      obtain rfl := pure_eq_ok.1 hrun
      have hadded : Draft.Steps p.draft
          (({ p.draft with types } : Draft).addFunction n.label? type).2 :=
        htypes.trans (.single (.addFunction n.label? type) hlt rfl)
      have hsound := (h.draft.steps htypes).1
      have hadd := hsound.steps (.single (.addFunction n.label? type) hlt rfl)
      have hexports := Draft.steps_exportAll (({ p.draft with types } : Draft).addFunction n.label?
        type).2 .function (({ p.draft with types } : Draft).addFunction n.label? type).1 f.exports
      -- the body is awaited once its entry is there, and exports move nothing
      have hlast := h.steps (hadded.trans hexports)
      refine ⟨hlast.draft, List.forall_mem_append.2 ⟨hlast.bodies, List.forall_mem_singleton.2 ?_⟩⟩
      exact DeferredBody.Awaited.of_extends (hadd.1.steps hexports).2
        ⟨type, t, space_addFunction hadd.1, hadd.2.at? ht, hlen⟩

/-- **Every field keeps the progress sound.** -/
theorem Sound.declare [HexReader] (h : p.Sound) {e : Expr} (hrun : p.declare e = .ok p') :
    p'.Sound := by
  unfold Progress.declare at hrun
  split at hrun
  · cases hrun
  · split at hrun
    · obtain rfl := Except.ok.inj hrun
      exact h
    · exact h.onDraft (fun _ => Draft.declareImport_steps) hrun
    · exact h.declareFunction hrun
    · exact h.onDraft (fun _ => Draft.declareMemory_steps) hrun
    · exact h.onDraft (fun _ => Draft.declareTable_steps) hrun
    · exact h.onDraft (fun _ => h.draft.declareGlobal) hrun
    · exact h.onDraft (fun _ => Draft.declareExport_steps) hrun
    · exact h.onDraft (fun _ => h.draft.declareElement) hrun
    · exact h.onDraft (fun _ => h.draft.declareData) hrun
    · exact h.onDraft (fun _ => Draft.declareStart_steps) hrun
    · cases hrun

/-- A module form with its types registered and its fields declared, but
no body compiled. -/
def ofNode [HexReader] (n : Node) : Except CompileError Progress := do
  let draft ← (n.childNodes.filter (·.instr = "type")).foldlM Draft.declareType .empty
  n.children.foldlM declare ⟨draft, []⟩

end Progress

/-! ## The whole module -/

namespace Draft

variable {d d' : Draft}

/-- A body is compiled into the entry that awaits it. -/
theorem Sound.compileBody [HexReader] (h : d.Sound) {b : DeferredBody} (hb : b.Awaited d)
    (hrun : d.compileBody b = .ok d') : Steps d d' := by
  obtain ⟨⟨instrs, d₁⟩, htyping, hrun⟩ := bind_eq_ok.1 hrun
  obtain rfl := pure_eq_ok.1 hrun
  obtain ⟨types, hcompile, rfl⟩ := typing_eq_ok.1 htyping
  obtain ⟨log, hlog⟩ := h.consistent
  obtain ⟨hextends, hcoded⟩ := coded_of_compileAll hlog hcompile
  obtain ⟨type, t, hspace, ht, hlen⟩ := hb.of_extends hextends
  refine (steps_of_grows (compileAll_linear hcompile).1).trans
    (.single (.setCode b.index ⟨b.locals.map (·.type), Instr.encodeAll instrs⟩)
      ⟨type, t, hspace, ht, ?_⟩ rfl)
  rw [List.length_map, hlen]
  simpa using hcoded

theorem ofNode_eq_ok [HexReader] {n : Node} :
    ofNode n = .ok d ↔ n.instr = "module" ∧
      ∃ p, Progress.ofNode n = .ok p ∧ p.bodies.foldlM compileBody p.draft = .ok d := by
  unfold ofNode Progress.ofNode
  split
  next hmodule =>
    simp only [bind_eq_ok]
    constructor
    · rintro ⟨draft, htypes, p, hfields, hbodies⟩
      exact ⟨hmodule, p, ⟨draft, htypes, hfields⟩, hbodies⟩
    · rintro ⟨-, p, ⟨draft, htypes, hfields⟩, hbodies⟩
      exact ⟨draft, htypes, p, hfields, hbodies⟩
  next hmodule => exact ⟨fun h => absurd h throw_ne_ok, fun h => absurd h.1 hmodule⟩

/-- **The draft of a module form is sound.** -/
theorem ofNode_sound [HexReader] {n : Node} (hrun : ofNode n = .ok d) : d.Sound := by
  obtain ⟨-, progress, hprogress, hbodies⟩ := ofNode_eq_ok.1 hrun
  obtain ⟨typed, htyped, hfields⟩ := bind_eq_ok.1 hprogress
  have hfirst : typed.Sound :=
    foldlM_induction (fun _ _ _ _ h hstep => (h.steps (declareType_steps hstep)).1) .empty htyped
  have hsecond : progress.Sound :=
    foldlM_induction (fun _ _ _ _ h hstep => h.declare hstep) ⟨hfirst, List.forall_mem_nil _⟩ hfields
  -- bodies still to come are awaited by the draft with those before them
  have hlast : d.Sound ∧ ∀ b ∈ progress.bodies, b.Awaited d := by
    refine foldlM_induction (P := fun d => d.Sound ∧ ∀ b ∈ progress.bodies, b.Awaited d) ?_
      ⟨hsecond.draft, hsecond.bodies⟩ hbodies
    intro d₁ d₂ b hb hd hstep
    obtain ⟨hsound, hextends⟩ := hd.1.steps (hd.1.compileBody (hd.2 b hb) hstep)
    exact ⟨hsound, fun b' hb' => (hd.2 b' hb').of_extends hextends⟩
  exact hlast.1

end Draft

end WasmText
