import WasmText.Proofs.Layout
import WasmText.Proofs.Module.Declared
/-!
# A body reaches its own code and nothing else

Two things could carry a change in one function over to the rest of its
module: the declarations, which do not look at bodies, and the type table,
which bodies add signatures to. A body whose signatures are all in the
table already leaves it as it is (`compileAll_registered`). So a module in
which such a body is replaced by another one differs from what it was in
one entry of the code section (`body_reaches_its_code_only`).
-/

namespace WasmText

/-! ## Signatures that are there -/

/-- The signature that a mark needs a type index for. A `type` form, or the
argument of an indirect call, gives the index itself. -/
def Mark.needs? : Mark → Option FuncType
  | instr op form _ =>
    if form.hasChild "type" then none
    else
      match op.shape with
      | .structured => form.written?.filter (!·.isShort)
      | .indirect => if form.arguments.isEmpty then form.written? else none
      | _ => none
  | _ => none

/-- Whether a type table has the signatures that marks need. -/
def TypeTable.Covers (t : TypeTable) (marks : List Mark) : Prop :=
  ∀ mark ∈ marks, ∀ type ∈ mark.needs?, type ∈ t.entries

instance (t : TypeTable) (marks : List Mark) : Decidable (t.Covers marks) :=
  inferInstanceAs (Decidable (∀ mark ∈ marks, ∀ type ∈ mark.needs?, type ∈ t.entries))

namespace TypeTable

variable {t t' : TypeTable} {marks marks' : List Mark}

@[simp] theorem covers_cons {mark : Mark} :
    t.Covers (mark :: marks) ↔ (∀ type ∈ mark.needs?, type ∈ t.entries) ∧ t.Covers marks :=
  List.forall_mem_cons

@[simp] theorem covers_append : t.Covers (marks ++ marks') ↔ t.Covers marks ∧ t.Covers marks' :=
  List.forall_mem_append

theorem Covers.of_isPrefix (h : t.Covers marks) (hgrown : t.entries <+: t'.entries) :
    t'.Covers marks :=
  fun mark hmark type htype => hgrown.subset (h mark hmark type htype)

/-- A signature that is there is not registered again. -/
theorem intern_of_mem {type : FuncType} (h : type ∈ t.entries) : (t.intern type).2 = t := by
  obtain ⟨i, -, hi⟩ | ⟨hnew, -⟩ := t.intern_cases type
  · rw [hi]
  · exact absurd h hnew

end TypeTable

variable {names : Names} {locals : Locals} {labels : Labels} {env : Env}
variable {t t' : TypeTable} {n : Node} {op : Opcode}

theorem blockType_registered {type : FuncType} {use : Option Nat} {b : BlockType}
    {earlier : TypeTable} (hs : op.shape = .structured)
    (hneeds : ∀ type ∈ (Mark.instr op n labels).needs?, type ∈ t.entries)
    (hsig : Signature.ofNode names earlier n = .ok (type, use))
    (h : blockType type use t = .ok b t') : t' = t := by
  obtain rfl : (t.blockType type use).2 = t' := by
    injection h
  obtain ⟨-, i, -, -, -, rfl⟩ | ⟨hu, hwritten, rfl⟩ := Signature.ofNode_eq_ok hsig
  · rfl
  · have hmem : type.isShort = false → type ∈ t.entries := by
      intro hshort
      refine hneeds type ?_
      simp [Mark.needs?, Node.hasChild, hu, hs, hwritten, hshort]
    obtain ⟨_ | ⟨param, params⟩, _ | ⟨result, _ | ⟨result', results⟩⟩⟩ := type
    · rfl
    · rfl
    all_goals exact TypeTable.intern_of_mem (hmem rfl)

theorem callType_registered {i : Nat} (hs : op.shape = .indirect)
    (hneeds : ∀ type ∈ (Mark.instr op n labels).needs?, type ∈ t.entries)
    (h : callType names n t = .ok i t') : t' = t := by
  obtain ⟨hargs, hintern⟩ | ⟨p, -, -, -, rfl⟩ := callType_iff.1 h
  · obtain ⟨⟨type, use⟩, hsig, hpair⟩ := bind_eq_ok.1 hintern
    obtain ⟨-, k, -, -, -, rfl⟩ | ⟨hu, hwritten, rfl⟩ := Signature.ofNode_eq_ok hsig
    · exact (Prod.mk.inj (pure_eq_ok.1 hpair)).2.symm
    · have hpair : t.intern type = (i, t') := pure_eq_ok.1 hpair
      have hmem : type ∈ t.entries := by
        refine hneeds type ?_
        simp [Mark.needs?, Node.hasChild, hu, hs, hwritten, hargs]
      rw [← TypeTable.intern_of_mem hmem, hpair]
  · rfl

theorem compileAll_registered_of [HexReader] {es : List Expr}
    (ih : ∀ e ∈ es, ∀ t t' instrs, t.Covers (e.linear labels) →
      compileExpr ⟨names, locals, labels⟩ e t = .ok instrs t' → t' = t)
    {t t' : TypeTable} {instrs : List Instr} (hcovers : t.Covers (Expr.linearAll labels es))
    (h : compileAll ⟨names, locals, labels⟩ es t = .ok instrs t') : t' = t := by
  induction es generalizing t instrs with
  | nil => exact (compileAll_nil_eq_ok.1 h).2.symm
  | cons e es ihes =>
      obtain ⟨hfirst, hrest⟩ := TypeTable.covers_append.1 hcovers
      obtain ⟨first, t₁, rest, he, hes, -⟩ := compileAll_cons_eq_ok.1 h
      obtain rfl := ih e List.mem_cons_self _ _ _ hfirst he
      exact ihes (fun c hc => ih c (List.mem_cons_of_mem e hc)) hrest hes

theorem compileElse_registered_of [HexReader] {instrs : List Instr}
    (ih : ∀ e ∈ n.branch "else", ∀ t t' instrs, t.Covers (e.linear (n.label? :: labels)) →
      compileExpr ⟨names, locals, n.label? :: labels⟩ e t = .ok instrs t' → t' = t)
    (hcovers : t.Covers (if n.hasChild "else" then
      .otherwise :: Expr.linearAll (n.label? :: labels) (n.branch "else") else []))
    (h : compileElse ⟨names, locals, labels⟩ n t = .ok instrs t') : t' = t := by
  rw [compileElse_eq_ok] at h
  split at h
  next helse =>
    obtain ⟨second, hsecond, -⟩ := h
    rw [if_pos helse] at hcovers
    exact compileAll_registered_of ih (TypeTable.covers_cons.1 hcovers).2 hsecond
  next => exact h.2.symm

/-- **A tree whose signatures are there** registers none. -/
theorem compileExpr_registered [HexReader] (names : Names) (locals : Locals) (labels : Labels)
    (e : Expr) :
    ∀ t t' instrs, t.Covers (e.linear labels) →
      compileExpr ⟨names, locals, labels⟩ e t = .ok instrs t' → t' = t := by
  induction labels, e using Expr.form_induction with
  | ref labels name span => exact fun t t' instrs _ h => absurd h compileExpr_ref_ne_ok
  | data labels bytes span => exact fun t t' instrs _ h => absurd h compileExpr_data_ne_ok
  | stray labels head children hop =>
      exact fun t t' instrs _ h => absurd h (compileExpr_stray_ne_ok hop)
  | block labels head children op hop hs hc ih =>
      intro t t' instrs hcovers h
      rw [Expr.linear_block hop hs hc] at hcovers
      simp only [List.cons_append, TypeTable.covers_cons, TypeTable.covers_append] at hcovers
      obtain ⟨hneeds, hinside, -⟩ := hcovers
      obtain ⟨type, use, b, t₁, body, hsig, hb, hbody, -⟩ :=
        (compileExpr_block_eq_ok hop hs hc).1 h
      obtain rfl := blockType_registered hs hneeds hsig hb
      exact compileAll_registered_of ih hinside hbody
  | conditional labels head children hop ihc iht ihe =>
      intro t t' instrs hcovers h
      rw [Expr.linear_conditional hop] at hcovers
      simp only [TypeTable.covers_append, TypeTable.covers_cons] at hcovers
      obtain ⟨⟨⟨hbefore, hneeds, hthen⟩, helse⟩, -⟩ := hcovers
      obtain ⟨type, use, condition, t₁, _, hsig, hcondition, -, hbranches, -⟩ :=
        (compileExpr_conditional_eq_ok hop).1 h
      obtain ⟨b, t₂, first, t₃, second, hb, hfirst, hsecond, -⟩ :=
        compileBranches_eq_ok.1 hbranches
      have hs : Opcode.conditional.shape = .structured := rfl
      obtain rfl := compileAll_registered_of ihc hbefore hcondition
      obtain rfl := blockType_registered hs hneeds hsig hb
      obtain rfl := compileAll_registered_of iht hthen hfirst
      exact compileElse_registered_of ihe helse hsecond
  | indirect labels head children op hop hs ih =>
      intro t t' instrs hcovers h
      rw [Expr.linear_indirect hop hs] at hcovers
      simp only [TypeTable.covers_append, TypeTable.covers_cons] at hcovers
      obtain ⟨hoperands, hneeds, -⟩ := hcovers
      obtain ⟨type, t₁, operands, htype, hrun, -⟩ := (compileExpr_indirect_eq_ok hop hs).1 h
      obtain rfl := callType_registered hs hneeds htype
      exact compileAll_registered_of ih hoperands hrun
  | plain labels head children op hop hs ih =>
      intro t t' instrs hcovers h
      rw [Expr.linear_plain hop hs] at hcovers
      obtain ⟨hoperands, -⟩ := TypeTable.covers_append.1 hcovers
      obtain ⟨operands, operand, hrun, -, -⟩ := (compileExpr_plain_eq_ok hop hs).1 h
      exact compileAll_registered_of ih hoperands hrun

theorem compileAll_registered [HexReader] {es : List Expr} {instrs : List Instr}
    (hcovers : t.Covers (Expr.linearAll env.labels es))
    (h : compileAll env es t = .ok instrs t') : t' = t :=
  compileAll_registered_of (fun e _ => compileExpr_registered env.names env.locals env.labels e)
    hcovers h

/-! ## One entry -/

namespace Draft

variable {d d' : Draft} {b : DeferredBody} {i : Nat} {c c' : Code}

theorem setCode_setCode (d : Draft) (i : Nat) (c c' : Code) :
    (d.setCode i c).setCode i c' = d.setCode i c' :=
  congrArg (fun functions => ({ d with functions } : Draft)) (List.modify_modify_eq _ _ i d.functions)

theorem setCode_comm (d : Draft) {j : Nat} (h : i ≠ j) (c c' : Code) :
    (d.setCode i c).setCode j c' = (d.setCode j c').setCode i c :=
  congrArg (fun functions => ({ d with functions } : Draft)) (List.modify_modify_ne _ _ d.functions h)

/-- A body that needs no new signature sets its code. -/
theorem exists_of_compileBody [HexReader] (hcovers : d.types.Covers (Expr.linearAll [] b.body))
    (h : d.compileBody b = .ok d') : ∃ c, d' = d.setCode b.index c := by
  obtain ⟨instrs, types, hcompile, rfl⟩ := compileBody_eq_ok.1 h
  obtain rfl := compileAll_registered hcovers hcompile
  exact ⟨_, rfl⟩

theorem typing_setCode {α : Type} (d : Draft) (step : Typing α) (i : Nat) (c : Code) :
    (d.setCode i c).typing step = (d.typing step).map (Prod.map id (·.setCode i c)) := by
  rw [typing, typing, show (d.setCode i c).types = d.types from rfl]
  cases step d.types with
  | error e types => rfl
  | ok a types => rfl

/-- Compiling a body does not look at the code of another. -/
theorem compileBody_setCode [HexReader] (h : b.index ≠ i) (d : Draft) (c : Code) :
    (d.setCode i c).compileBody b = (d.compileBody b).map (·.setCode i c) := by
  rw [compileBody, compileBody, typing_setCode, show (d.setCode i c).names = d.names from rfl]
  dsimp only
  cases d.typing (compileAll ⟨d.names, (b.params ++ b.locals).map Slot.name, []⟩ b.body) with
  | error e => rfl
  | ok made => exact congrArg Except.ok (setCode_comm made.2 h.symm _ _)

theorem foldlM_compileBody_setCode [HexReader] {bodies : List DeferredBody}
    (h : ∀ b ∈ bodies, b.index ≠ i) (d : Draft) (c : Code) :
    bodies.foldlM compileBody (d.setCode i c) =
      (bodies.foldlM compileBody d).map (·.setCode i c) := by
  induction bodies generalizing d with
  | nil => rfl
  | cons b bodies ih =>
      obtain ⟨hb, hbodies⟩ := List.forall_mem_cons.1 h
      rw [List.foldlM_cons, List.foldlM_cons, compileBody_setCode hb]
      cases d.compileBody b with
      | error e => rfl
      | ok d₁ => exact ih hbodies d₁

theorem finish_setCode {m : BinaryModule} (h : d.finish = .ok m) (i : Nat) (c : Code) :
    (d.setCode i c).finish = .ok { m with code := (d.setCode i c).defined.map (·.code) } := by
  have hresolve : (d.setCode i c).resolve = d.resolve := by
    funext space target
    cases target with
    | name name span => rfl
    | index index span =>
        have hcount : (d.setCode i c).count space = d.count space := by
          cases space with
          | function => exact List.length_modify _ _ _
          | _ => rfl
        rw [resolve, resolve, hcount]
  have htypes : (d.setCode i c).defined.map (·.type) = d.defined.map (·.type) :=
    defined_map_congr (d.setCode_entries i c) fun entry => entry.2.1
  obtain ⟨exports, hexports, h⟩ := bind_eq_ok.1 h
  obtain ⟨start, hstart, h⟩ := bind_eq_ok.1 h
  obtain ⟨elements, helements, h⟩ := bind_eq_ok.1 h
  obtain ⟨tables, htables, h⟩ := bind_eq_ok.1 h
  obtain rfl := pure_eq_ok.1 h
  rw [finish, hresolve, htypes]
  exact bind_eq_ok.2 ⟨exports, hexports, bind_eq_ok.2 ⟨start, hstart,
    bind_eq_ok.2 ⟨elements, helements, bind_eq_ok.2 ⟨tables, htables, rfl⟩⟩⟩⟩

/-- **Setting the code of a function** changes its entry among those that
are written. -/
theorem exists_of_setCode (hn : d.Numbered) {first last : List Nat}
    (h : d.defined.map (·.index) = first ++ i :: last) :
    ∃ earlier c later, d.defined.map (·.code) = earlier ++ c :: later ∧
      earlier.length = first.length ∧
      ∀ c', (d.setCode i c').defined.map (·.code) = earlier ++ c' :: later := by
  obtain ⟨before, rest, hdefined, rfl, hrest⟩ := List.map_eq_append_iff.1 h
  obtain ⟨f, after, rfl, rfl, rfl⟩ := List.map_eq_cons_iff.1 hrest
  obtain ⟨l₁, l₂, hsplit, hbefore, hfound⟩ := List.filter_eq_append_iff.1 hdefined
  obtain ⟨l₃, l₄, rfl, hnone, hf, hafter⟩ := List.filter_eq_cons_iff.1 hfound
  refine ⟨before.map (·.code), f.code, after.map (·.code), by simp [hdefined], by simp, fun c' => ?_⟩
  -- the entry stands at its index
  have hfunctions : d.functions = (l₁ ++ l₃) ++ f :: l₄ := by rw [hsplit, List.append_assoc]
  have hindex : f.index = (l₁ ++ l₃).length := by
    refine hn.index_eq ?_
    rw [hfunctions]
    exact List.getElem?_append_right (Nat.le_refl _) |>.trans (by simp)
  have hmodify : ∀ l : List Function, (l ++ f :: l₄).modify l.length ({ · with code := c' }) =
      l ++ { f with code := c' } :: l₄ := by
    intro l
    rw [List.modify_eq_take_cons_drop (by simp)]
    simp
  have hset : (d.setCode f.index c').functions = (l₁ ++ l₃) ++ { f with code := c' } :: l₄ := by
    rw [← hmodify, ← hfunctions, ← hindex]
    rfl
  have hskipped : l₃.filter (!·.imported) = [] := List.filter_eq_nil_iff.2 hnone
  rw [defined, hset]
  simp [List.filter_append, hbefore, hskipped, hf, hafter]

/-- **Another body in the place of one** leaves all as it is but its own
code, where neither needs a new signature. -/
theorem exists_of_foldlM_compileBody [HexReader] {earlier later : List DeferredBody}
    {final final' : Draft} (b b' : DeferredBody) (hindex : b'.index = b.index)
    (hnodup : ((earlier ++ b :: later).map (·.index)).Nodup)
    (hcovers : d.types.Covers (Expr.linearAll [] b.body))
    (hcovers' : d.types.Covers (Expr.linearAll [] b'.body))
    (h : (earlier ++ b :: later).foldlM compileBody d = .ok final)
    (h' : (earlier ++ b' :: later).foldlM compileBody d = .ok final') :
    ∃ c, final' = final.setCode b.index c := by
  rw [List.map_append, List.map_cons, List.nodup_append, List.nodup_cons] at hnodup
  obtain ⟨-, ⟨hfresh, -⟩, -⟩ := hnodup
  have hlater : ∀ other ∈ later, other.index ≠ b.index := fun other hother heq =>
    hfresh (List.mem_map.2 ⟨other, hother, heq⟩)
  rw [List.foldlM_append] at h h'
  obtain ⟨d₁, hearlier, h⟩ := bind_eq_ok.1 h
  obtain ⟨d₂, hearlier', h'⟩ := bind_eq_ok.1 h'
  obtain rfl : d₁ = d₂ := Except.ok.inj (hearlier.symm.trans hearlier')
  have hgrown := (filled_of_foldlM hearlier).types
  rw [List.foldlM_cons] at h h'
  obtain ⟨d₂, hbody, h⟩ := bind_eq_ok.1 h
  obtain ⟨d₂', hbody', h'⟩ := bind_eq_ok.1 h'
  obtain ⟨c, rfl⟩ := exists_of_compileBody (hcovers.of_isPrefix hgrown) hbody
  obtain ⟨c', rfl⟩ := exists_of_compileBody (hcovers'.of_isPrefix hgrown) hbody'
  rw [hindex, ← setCode_setCode d₁ b.index c c', foldlM_compileBody_setCode hlater, h] at h'
  exact ⟨c', (Except.ok.inj h').symm⟩

/-- The entries of defined functions are in the order of the bodies that
were put aside for them. -/
theorem indices_defined [HexReader] {n : Node} {p : Progress} (hp : Progress.ofNode n = .ok p)
    (hd : p.bodies.foldlM compileBody p.draft = .ok d) :
    d.defined.map (·.index) = p.bodies.map (·.index) := by
  obtain ⟨typed, htyped, hp⟩ := bind_eq_ok.1 hp
  have hwritten := (named_of_foldlM htyped).written hp List.prefix_rfl
  exact (defined_map_congr (filled_of_foldlM hd).functions fun entry => entry.1).trans
    hwritten.indices

end Draft

/-! ## Modules -/

/-- The bytes of sections, each with its identifier, after the preamble. -/
def encodeSections (sections : List (UInt8 × List UInt8)) : List UInt8 :=
  BinaryModule.preamble ++ sections.flatMap fun s => Binary.segment s.1 s.2

/-- The code section of some functions. -/
def codeSection (code : List Code) : UInt8 × List UInt8 := (10, Binary.vector Code.encode code)

/-- The code section stands among the others, which do not depend on
it. -/
theorem BinaryModule.exists_sections (m : BinaryModule) :
    ∃ front back, (∀ s ∈ front ++ back, s.1 ≠ 10) ∧
      ∀ code, { m with code }.encode = encodeSections (front ++ codeSection code :: back) := by
  let written : UInt8 × Option (List UInt8) → Option (UInt8 × List UInt8) :=
    fun part => part.2.map (part.1, ·)
  let front := (m.allSections.take 9).filterMap written
  let back := (m.allSections.drop 10).filterMap written
  have hsections : ∀ code, ({ m with code } : BinaryModule).sections =
      front ++ codeSection code :: back := by
    intro code
    have hparts : ({ m with code } : BinaryModule).allSections = m.allSections.take 9 ++
      (10, some (Binary.vector Code.encode code)) :: m.allSections.drop 10 := rfl
    rw [sections, hparts, List.filterMap_append]
    rfl
  have hids := m.sections_pairwise
  rw [hsections m.code, List.map_append, List.map_cons, List.pairwise_append,
    List.pairwise_cons] at hids
  obtain ⟨-, ⟨hback, -⟩, hfront⟩ := hids
  refine ⟨front, back, fun s hs => ?_, fun code => by rw [encode_eq, hsections]; rfl⟩
  rcases List.mem_append.1 hs with hs | hs
  · have hlt : s.1 < 10 := hfront s.1 (List.mem_map_of_mem hs) 10 List.mem_cons_self
    exact UInt8.ne_of_lt hlt
  · have hlt : 10 < s.1 := hback s.1 (List.mem_map_of_mem hs)
    exact (UInt8.ne_of_lt hlt).symm

/-- Two module forms that differ in the instructions of one defined
function declare the same, and put aside the same bodies but for that
one. -/
theorem Progress.exists_of_definesFunction [HexReader] {module function : Head}
    {before after children : List Expr} {p : Progress}
    (hdefines : Node.definesFunction ⟨function, children⟩ = true)
    (h : Progress.ofNode ⟨module, before ++ .node function children :: after⟩ = .ok p) :
    ∃ index params locals earlier later,
      earlier.length = ((before.filterMap Expr.node?).filter Node.definesFunction).length ∧
      ∀ children', Node.declarations ⟨function, children'⟩ = Node.declarations ⟨function, children⟩ →
        Progress.ofNode ⟨module, before ++ .node function children' :: after⟩ = .ok ⟨p.draft,
          earlier ++ ⟨index, params, locals, Node.instructions ⟨function, children'⟩⟩ :: later⟩ := by
  simp only [Node.definesFunction, Bool.and_eq_true, decide_eq_true_eq, Bool.not_eq_true'] at hdefines
  obtain ⟨hfunc, himport⟩ := hdefines
  have htypes : ∀ children', (Node.childNodes ⟨module, before ++ .node function children' :: after⟩).filter
      (·.instr = "type") = ((before ++ after).filterMap Expr.node?).filter (·.instr = "type") := by
    intro children'
    simp [Node.childNodes, Expr.node?, hfunc]
  obtain ⟨typed, htyped, hfields⟩ := bind_eq_ok.1 h
  obtain ⟨-, f, hf, horigin⟩ | ⟨q, d, index, params, locals, later, hbefore, hsame⟩ :=
    foldlM_declare_function hfunc hfields
  · rw [(FunctionField.ofNode_reads hf).origin, himport] at horigin
    cases horigin
  · obtain rfl : _ = p := Except.ok.inj ((hsame children rfl).symm.trans hfields)
    have hbodies := ((Draft.named_of_foldlM htyped).written hbefore List.prefix_rfl).bodies
    refine ⟨index, params, locals, q.bodies, later, hbodies.length_eq.symm, fun children' hdecl => ?_⟩
    refine bind_eq_ok.2 ⟨typed, ?_, hsame children' hdecl⟩
    rw [htypes] at htyped ⊢
    exact htyped

/-- **A body reaches its own code and nothing else.** Take two module
forms that differ, up to places, in the instructions of one defined
function. Where every signature that either version needs a type index for
is in the type table once everything is declared, they compile to the same
sections but for the entry of this function in the code section. -/
theorem body_reaches_its_code_only [HexReader] {n n' : Node} {module function : Head}
    {before after children children' : List Expr} {p : Progress} {bytes bytes' : List UInt8}
    (hform : n.bare = ⟨module, before ++ .node function children :: after⟩)
    (hform' : n'.bare = ⟨module, before ++ .node function children' :: after⟩)
    (hdefines : Node.definesFunction ⟨function, children⟩ = true)
    (hdeclarations : Node.declarations ⟨function, children'⟩ = Node.declarations ⟨function, children⟩)
    (hdeclared : Progress.ofNode n.bare = .ok p)
    (hcovers : p.draft.types.Covers (Expr.linearAll [] (Node.instructions ⟨function, children⟩)))
    (hcovers' : p.draft.types.Covers (Expr.linearAll [] (Node.instructions ⟨function, children'⟩)))
    (h : n.compile = .ok bytes) (h' : n'.compile = .ok bytes') :
    ∃ front back earlier later c c', (∀ s ∈ front ++ back, s.1 ≠ 10) ∧
      earlier.length = ((before.filterMap Expr.node?).filter Node.definesFunction).length ∧
      bytes = encodeSections (front ++ codeSection (earlier ++ c :: later) :: back) ∧
      bytes' = encodeSections (front ++ codeSection (earlier ++ c' :: later) :: back) := by
  rw [← n.compile_bare] at h
  rw [← n'.compile_bare] at h'
  rw [hform] at h hdeclared
  rw [hform'] at h'
  obtain ⟨d, hdraft, hbuild⟩ := bind_eq_ok.1 h
  obtain ⟨d', hdraft', hbuild'⟩ := bind_eq_ok.1 h'
  obtain ⟨log, hlog⟩ := (Draft.ofNode_sound hdraft).consistent
  obtain ⟨-, q, hq, hbodies⟩ := Draft.ofNode_eq_ok.1 hdraft
  obtain ⟨-, q', hq', hbodies'⟩ := Draft.ofNode_eq_ok.1 hdraft'
  obtain ⟨index, params, locals, earlier, later, hcount, hsame⟩ :=
    Progress.exists_of_definesFunction hdefines hdeclared
  obtain rfl := Except.ok.inj ((hsame children rfl).symm.trans hq)
  obtain rfl := Except.ok.inj ((hsame children' hdeclarations).symm.trans hq')
  have hindices := Draft.indices_defined hq hbodies
  have hnodup := hlog.numbered.nodup_defined
  rw [hindices] at hnodup
  rw [List.map_append, List.map_cons] at hindices
  have hother : ∃ c', d' = d.setCode index c' :=
    Draft.exists_of_foldlM_compileBody ⟨index, params, locals, Node.instructions ⟨function, children⟩⟩
      ⟨index, params, locals, Node.instructions ⟨function, children'⟩⟩ rfl hnodup hcovers hcovers'
      hbodies hbodies'
  obtain ⟨c', rfl⟩ := hother
  obtain ⟨codes, c, codes', hcode, hlength, hset⟩ := Draft.exists_of_setCode hlog.numbered hindices
  obtain ⟨m, hfinish, rfl⟩ := Draft.build_eq_ok.1 hbuild
  obtain ⟨m', hfinish', rfl⟩ := Draft.build_eq_ok.1 hbuild'
  rw [Draft.finish_setCode hfinish, hset] at hfinish'
  obtain rfl := Except.ok.inj hfinish'
  obtain ⟨front, back, hothers, hencode⟩ := m.exists_sections
  have hmcode : m.code = codes ++ c :: codes' := (Draft.finish_declares hfinish).code.trans hcode
  refine ⟨front, back, codes, codes', c, c', hothers, ?_, ?_, hencode _⟩
  · rw [hlength, List.length_map, hcount]
  · rw [← hmcode]
    exact hencode m.code

/-- The signature of a function or block that takes a number and gives
one. -/
def numberToNumber : List Expr := [
  .node (.plain "param" .zero) [.node (.plain "i32" .zero) []],
  .node (.plain "result" .zero) [.node (.plain "i32" .zero) []]]

/-- A parameter given back. -/
def plainEcho : List Expr := [.node ⟨"local.get", none, [⟨.number "0", .zero⟩], .zero⟩ []]

/-- A parameter given back through a block that needs a type index. -/
def blockEcho : List Expr := plainEcho ++ [.node (.plain "block" .zero) numberToNumber]

/-- A function with the given body, between two functions that call it. -/
def echoModule (body : List Expr) : Node where
  toHead := .plain "module" .zero
  children :=
    let caller := .node (.plain "func" .zero) (numberToNumber ++
      [.node ⟨"call", some ⟨"echo", .zero⟩, [], .zero⟩ plainEcho])
    [caller] ++ .node ⟨"func", some ⟨"echo", .zero⟩, [], .zero⟩ (numberToNumber ++ body) :: [caller]

theorem body_reaches_its_code_only_echo : ∃ bytes bytes',
    (echoModule plainEcho).compile = .ok bytes ∧ (echoModule blockEcho).compile = .ok bytes' ∧
      bytes ≠ bytes' ∧
      ∃ front back earlier later c c', (∀ s ∈ front ++ back, s.1 ≠ 10) ∧ earlier.length = 1 ∧
        bytes = encodeSections (front ++ codeSection (earlier ++ c :: later) :: back) ∧
        bytes' = encodeSections (front ++ codeSection (earlier ++ c' :: later) :: back) := by
  have hcompile : (echoModule plainEcho).compile = .ok [0x00, 0x61, 0x73, 0x6D, 1, 0, 0, 0,
      1, 6, 1, 0x60, 1, 0x7F, 1, 0x7F, 3, 4, 3, 0, 0, 0,
      10, 20, 3, 6, 0, 0x20, 0, 0x10, 1, 0x0B, 4, 0, 0x20, 0, 0x0B,
      6, 0, 0x20, 0, 0x10, 1, 0x0B] := by decide +kernel
  have hcompile' : (echoModule blockEcho).compile = .ok [0x00, 0x61, 0x73, 0x6D, 1, 0, 0, 0,
      1, 6, 1, 0x60, 1, 0x7F, 1, 0x7F, 3, 4, 3, 0, 0, 0,
      10, 23, 3, 6, 0, 0x20, 0, 0x10, 1, 0x0B, 7, 0, 0x20, 0, 0x02, 0, 0x0B, 0x0B,
      6, 0, 0x20, 0, 0x10, 1, 0x0B] := by decide +kernel
  have hform : (echoModule plainEcho).bare = echoModule plainEcho := by
    simp only [Node.bare, Node.dress, echoModule, plainEcho, numberToNumber, List.cons_append,
      List.nil_append, List.map_cons, List.map_nil, Expr.dress_node]
    rfl
  have hform' : (echoModule blockEcho).bare = echoModule blockEcho := by
    simp only [Node.bare, Node.dress, echoModule, blockEcho, plainEcho, numberToNumber, List.cons_append,
      List.nil_append, List.map_cons, List.map_nil, Expr.dress_node]
    rfl
  have hcovers : ((Progress.ofNode (echoModule plainEcho)).toOption.any fun p =>
      p.draft.types.Covers (Expr.linearAll [] plainEcho) ∧
        p.draft.types.Covers (Expr.linearAll [] blockEcho)) = true := by decide +kernel
  rw [← hform] at hcovers
  cases hp : Progress.ofNode (echoModule plainEcho).bare with
  | error e => rw [hp] at hcovers; cases hcovers
  | ok p =>
      rw [hp] at hcovers
      obtain ⟨hplain, hblock⟩ := of_decide_eq_true hcovers
      exact ⟨_, _, hcompile, hcompile', by decide, body_reaches_its_code_only hform hform'
        (by decide) rfl hp hplain hblock hcompile hcompile'⟩

end WasmText
