import WasmText.Proofs.Instruction.Signed
import WasmText.Proofs.Module.Site
/-!
# What a function field says

A function field is read child by child. Said of the whole form: its
instructions are the children that declare nothing, its slots are named
and typed by its `param` and `local` forms in order (`Node.slotNames`,
`Node.typesOf?`), and its signature is given as that of any other form
(`Node.HasType`). Parameters that only a `type` form brings have no
names (`Node.parameterNames`).
-/

namespace WasmText

namespace Node

/-- The names of the slots that the forms of a kind declare: one slot for
each type, under the label of its form. -/
def slotNames (n : Node) (kind : String) : Locals :=
  (n.childNodes.filter (·.instr = kind)).flatMap fun c => c.children.map fun _ => c.label?

/-- The names of the parameters of a function of the given type. -/
def parameterNames (n : Node) (t : FuncType) : Locals :=
  if n.spells then n.slotNames "param" else t.params.map fun _ => none

theorem hasChild_eq_any (n : Node) (name : String) :
    n.hasChild name = n.children.any (·.isNode name) := by
  rw [hasChild_eq, childNodes]
  induction n.children with
  | nil => rfl
  | cons e es ih =>
      cases e with
      | ref => simpa [Expr.node?, Expr.isNode] using ih
      | data => simpa [Expr.node?, Expr.isNode] using ih
      | node head children => simp [Expr.node?, Expr.isNode, ih]

/-- A form that spells nothing out has the empty signature. -/
theorem written?_of_spells_eq_false {n : Node} (h : n.spells = false) :
    n.written? = some .empty := by
  obtain ⟨hparam, hresult⟩ := Bool.or_eq_false_iff.1 h
  have hnone : ∀ name, n.hasChild name = false → n.typesOf? name = some [] := by
    intro name hname
    rw [hasChild_eq, List.any_eq_false] at hname
    have hempty : n.childNodes.filter (·.instr = name) = [] :=
      List.filter_eq_nil_iff.2 fun c hc => by simpa using hname c hc
    rw [typesOf?, hempty]
    rfl
  simp [written?, hnone _ hparam, hnone _ hresult, FuncType.empty]

end Node

/-- The slots of a form have its label, and one type each. -/
theorem Slot.listOf_eq_ok {n : Node} {slots : List Slot} (h : listOf n = .ok slots) :
    slots.map (·.name) = n.children.map (fun _ => n.label?) ∧
      n.children.mapM (fun e => (ValType.ofExpr e).toOption) = some (slots.map (·.type)) := by
  obtain ⟨types, htypes, h⟩ := bind_eq_ok.1 h
  have hread := mapM_toOption htypes
  have hlength : types.length = n.children.length := length_of_mapM hread
  split at h
  next hname =>
    obtain rfl := pure_eq_ok.1 h
    refine ⟨?_, by simpa [Function.comp_def] using hread⟩
    simp [Head.label?, hname, Function.comp_def, hlength]
  next label type hname =>
    obtain rfl := pure_eq_ok.1 h
    obtain ⟨e, he⟩ := List.length_eq_one_iff.1 hlength.symm
    exact ⟨by simp [Head.label?, hname, he], hread⟩
  next => exact absurd h throw_ne_ok

namespace FunctionField

variable {e : Expr} {f : FunctionField} {n : Node}

/-! ## Children -/

/-- What reading a child gives, if it is a form of the kind, or else
nothing. -/
def Gives {α : Type} (read : Node → Except CompileError (List α)) (kind : String) :
    Expr → List α → Prop
  | .node head children, as =>
    if head.instr = kind then read ⟨head, children⟩ = .ok as else as = []
  | _, as => as = []

/-- What one child contributes, part by part. -/
structure Contributed (e : Expr) (f : FunctionField) : Prop where
  params : Gives Slot.listOf "param" e f.params
  results : Gives ValType.listOf "result" e f.results
  locals : Gives Slot.listOf "local" e f.locals
  spelled : f.spelled = (e.isNode "param" || e.isNode "result")
  origin : f.origin.isSome = e.isNode "import"
  body : f.body = if e.isDeclaration then [] else [e]

theorem ofChild_contributed (h : ofChild e = .ok f) : Contributed e f := by
  cases e with
  | ref =>
      obtain rfl := pure_eq_ok.1 h
      exact ⟨rfl, rfl, rfl, rfl, rfl, rfl⟩
  | data =>
      obtain rfl := pure_eq_ok.1 h
      exact ⟨rfl, rfl, rfl, rfl, rfl, rfl⟩
  | node head children =>
      unfold ofChild at h
      dsimp only [Expr.node?] at h
      split at h
      next hinstr =>
        obtain rfl := pure_eq_ok.1 h
        constructor <;> simp [Gives, Expr.isNode, Expr.isDeclaration, hinstr, empty]
      next hinstr =>
        obtain ⟨name, -, h⟩ := bind_eq_ok.1 h
        obtain rfl := pure_eq_ok.1 h
        constructor <;> simp [Gives, Expr.isNode, Expr.isDeclaration, hinstr, empty]
      next hinstr =>
        obtain ⟨⟨module, field⟩, -, h⟩ := bind_eq_ok.1 h
        obtain rfl := pure_eq_ok.1 h
        constructor <;> simp [Gives, Expr.isNode, Expr.isDeclaration, hinstr, empty]
      next hinstr =>
        obtain ⟨params, hread, h⟩ := bind_eq_ok.1 h
        obtain rfl := pure_eq_ok.1 h
        constructor <;> simp [Gives, Expr.isNode, Expr.isDeclaration, hinstr, empty, hread]
      next hinstr =>
        obtain ⟨results, hread, h⟩ := bind_eq_ok.1 h
        obtain rfl := pure_eq_ok.1 h
        constructor <;> simp [Gives, Expr.isNode, Expr.isDeclaration, hinstr, empty, hread]
      next hinstr =>
        obtain ⟨locals, hread, h⟩ := bind_eq_ok.1 h
        obtain rfl := pure_eq_ok.1 h
        constructor <;> simp [Gives, Expr.isNode, Expr.isDeclaration, hinstr, empty, hread]
      next htype hexport himport hparam hresult hlocal =>
        obtain rfl := pure_eq_ok.1 h
        constructor <;> simp_all [Gives, Expr.isNode, Expr.isDeclaration, empty]

/-! ## The whole form -/

/-- What children of a kind give, one after the other. -/
theorem exists_of_gives {α : Type} {read : Node → Except CompileError (List α)} {kind : String}
    {part : FunctionField → List α} {es : List Expr} {parts : List FunctionField}
    (h : List.Forall₂ (fun e f => Gives read kind e (part f)) es parts) :
    ∃ lists, List.Forall₂ (fun c as => read c = .ok as)
        ((es.filterMap Expr.node?).filter (·.instr = kind)) lists ∧
      lists.flatten = parts.flatMap part := by
  induction h with
  | nil => exact ⟨[], .nil, rfl⟩
  | @cons e f es parts hgives _ ih =>
      obtain ⟨lists, hlists, hflatten⟩ := ih
      cases e with
      | ref | data =>
          have hnone : part f = [] := hgives
          exact ⟨lists, hlists, by rw [List.flatMap_cons, hflatten, hnone, List.nil_append]⟩
      | node head children =>
          rw [Gives] at hgives
          split at hgives
          next hkind =>
            refine ⟨part f :: lists, ?_, by rw [List.flatten_cons, hflatten, List.flatMap_cons]⟩
            simpa [Expr.node?, hkind] using ⟨hgives, hlists⟩
          next hkind =>
            refine ⟨lists, ?_, by rw [List.flatMap_cons, hflatten, hgives, List.nil_append]⟩
            simpa [Expr.node?, hkind] using hlists

/-- The names and the types of slots, form by form. -/
theorem slots_of_forall₂ {nodes : List Node} {lists : List (List Slot)}
    (h : List.Forall₂ (fun c slots => Slot.listOf c = .ok slots) nodes lists) :
    lists.flatten.map (·.name) = nodes.flatMap (fun c => c.children.map fun _ => c.label?) ∧
      (nodes.flatMap (·.children)).mapM (fun e => (ValType.ofExpr e).toOption) =
        some (lists.flatten.map (·.type)) := by
  induction h with
  | nil => exact ⟨rfl, rfl⟩
  | @cons c slots nodes lists hread _ ih =>
      obtain ⟨hnames, htypes⟩ := Slot.listOf_eq_ok hread
      rw [List.flatten_cons, List.map_append, List.map_append, List.flatMap_cons, List.flatMap_cons]
      exact ⟨by rw [hnames, ih.1], mapM_append_eq_some.2 ⟨_, _, htypes, ih.2, rfl⟩⟩

theorem types_of_forall₂ {nodes : List Node} {lists : List (List ValType)}
    (h : List.Forall₂ (fun c types => ValType.listOf c = .ok types) nodes lists) :
    (nodes.flatMap (·.children)).mapM (fun e => (ValType.ofExpr e).toOption) =
      some lists.flatten := by
  induction h with
  | nil => rfl
  | @cons c types nodes lists hread _ ih =>
      rw [List.flatMap_cons, List.flatten_cons]
      exact mapM_append_eq_some.2 ⟨_, _, mapM_toOption hread, ih, rfl⟩

/-- The parts of a function field, said of the form as a whole. -/
structure Reads (f : FunctionField) (n : Node) : Prop where
  paramNames : f.params.map (·.name) = n.slotNames "param"
  paramTypes : n.typesOf? "param" = some (f.params.map (·.type))
  results : n.typesOf? "result" = some f.results
  localNames : f.locals.map (·.name) = n.slotNames "local"
  localTypes : n.typesOf? "local" = some (f.locals.map (·.type))
  spelled : f.spelled = n.spells
  origin : f.origin.isSome = n.hasChild "import"
  body : f.body = n.instructions

section Contributions

variable {es : List Expr} {parts : List FunctionField} (h : List.Forall₂ Contributed es parts)

include h

theorem any_spelled :
    parts.any (·.spelled) = (es.any (·.isNode "param") || es.any (·.isNode "result")) := by
  induction h with
  | nil => rfl
  | @cons e f es parts hc _ ih =>
      rw [List.any_cons, List.any_cons, List.any_cons, ih, hc.spelled]
      ac_rfl

theorem any_origin : parts.any (·.origin.isSome) = es.any (·.isNode "import") := by
  induction h with
  | nil => rfl
  | @cons e f es parts hc _ ih => rw [List.any_cons, List.any_cons, ih, hc.origin]

theorem flatMap_body : parts.flatMap (·.body) = es.filter (!·.isDeclaration) := by
  induction h with
  | nil => rfl
  | @cons e f es parts hc _ ih =>
      rw [List.flatMap_cons, List.filter_cons, ih, hc.body]
      cases e.isDeclaration with
      | true => rfl
      | false => rfl

end Contributions

/-- **A function field is read as its form says.** -/
theorem ofNode_reads (h : ofNode n = .ok f) : f.Reads n := by
  obtain ⟨parts, hparts, h⟩ := bind_eq_ok.1 h
  obtain rfl := pure_eq_ok.1 h
  have hall := (mapM_eq_ok.1 hparts).imp fun e part => ofChild_contributed
  obtain ⟨params, hparams, hpjoin⟩ := exists_of_gives (hall.imp fun _ _ hc => hc.params)
  obtain ⟨results, hresults, hrjoin⟩ := exists_of_gives (hall.imp fun _ _ hc => hc.results)
  obtain ⟨locals, hlocals, hljoin⟩ := exists_of_gives (hall.imp fun _ _ hc => hc.locals)
  obtain ⟨hpnames, hptypes⟩ := slots_of_forall₂ hparams
  obtain ⟨hlnames, hltypes⟩ := slots_of_forall₂ hlocals
  refine ⟨?_, ?_, ?_, ?_, ?_, ?_, ?_, ?_⟩
  · rw [join, ← hpjoin]
    exact hpnames
  · rw [join, ← hpjoin]
    exact hptypes
  · rw [join, ← hrjoin]
    exact types_of_forall₂ hresults
  · rw [join, ← hljoin]
    exact hlnames
  · rw [join, ← hljoin]
    exact hltypes
  · rw [Node.spells, Node.hasChild_eq_any, Node.hasChild_eq_any]
    exact any_spelled hall
  · rw [Node.hasChild_eq_any, join, List.isSome_findSome?, List.any_reverse]
    exact any_origin hall
  · exact flatMap_body hall

/-! ## Types -/

/-- What a function field spells out is what its form does. -/
theorem Reads.written? (hf : f.Reads n) :
    n.written? = some ⟨f.params.map (·.type), f.results⟩ := by
  simp [Node.written?, hf.paramTypes, hf.results]

theorem Reads.signature? (hf : f.Reads n) : n.written? = some (f.signature?.getD .empty) := by
  rw [FunctionField.signature?]
  split
  next => rw [hf.written?, Option.getD_some]
  next hspelled =>
    rw [hf.spelled, Bool.not_eq_true] at hspelled
    rw [Node.written?_of_spells_eq_false hspelled, Option.getD_none]

/-- **The type of a function** is the signature that its form gives, in
every later table, and its parameters are the slots that a body sees. -/
theorem hasType_of_resolveType {names : Names} {named : TypeNames} {final : List FuncType}
    {table table' : TypeTable} {index : Nat} {params : List Slot}
    (hnames : names.Mean final named) (hf : f.Reads n) (hfinal : table'.entries <+: final)
    (h : f.resolveType names table n = .ok (index, params, table')) :
    ∃ t, n.HasType final named t ∧ final[index]? = some t ∧
      params.length = t.params.length ∧ params.map (·.name) = n.parameterNames t := by
  unfold resolveType at h
  split at h
  next use huse =>
    obtain ⟨i, hagreed, h⟩ := bind_eq_ok.1 h
    split at h
    next hspelled =>
      obtain ⟨rfl, hpair⟩ := Prod.mk.inj (pure_eq_ok.1 h)
      obtain ⟨rfl, rfl⟩ := Prod.mk.inj hpair
      obtain ⟨t, hreference, -, hentry, hother⟩ :=
        Signature.reference?_of_agreed hnames hfinal hagreed
      obtain rfl : ⟨f.params.map (·.type), f.results⟩ = t :=
        hother _ (by rw [FunctionField.signature?, if_pos hspelled]; rfl)
      refine ⟨_, ⟨?_, fun _ _ => hf.written?⟩, hentry, (List.length_map _).symm, ?_⟩
      · simp [Node.signature?, huse, hreference]
      · rw [Node.parameterNames, ← hf.spelled, if_pos hspelled, hf.paramNames]
    next hspelled =>
      obtain ⟨rfl, hpair⟩ := Prod.mk.inj (pure_eq_ok.1 h)
      obtain ⟨rfl, rfl⟩ := Prod.mk.inj hpair
      obtain ⟨t, hreference, hat, hentry, -⟩ :=
        Signature.reference?_of_agreed hnames hfinal hagreed
      rw [hf.spelled, Bool.not_eq_true] at hspelled
      rw [hat, Option.getD_some]
      refine ⟨t, ⟨?_, fun _ hspells => ?_⟩, hentry, List.length_map _, ?_⟩
      · simp [Node.signature?, huse, hreference]
      · rw [hspelled] at hspells
        cases hspells
      · rw [Node.parameterNames, hspelled, List.map_map]
        rfl
  next huse =>
    obtain ⟨rfl, hpair⟩ := Prod.mk.inj (pure_eq_ok.1 h)
    obtain ⟨rfl, rfl⟩ := Prod.mk.inj hpair
    have hsame : f.signature?.getD .empty = ⟨f.params.map (·.type), f.results⟩ :=
      Option.some.inj (hf.signature?.symm.trans hf.written?)
    rw [hsame] at hfinal ⊢
    refine ⟨_, ⟨?_, fun _ _ => hf.written?⟩, TypeTable.getElem?_intern hfinal,
      (List.length_map _).symm, ?_⟩
    · rw [Node.signature?, huse, hf.written?]
    · rw [Node.parameterNames, hf.paramNames]
      split
      next => rfl
      next hspells =>
        -- nothing spelled out, so there are no parameters
        rw [Bool.not_eq_true] at hspells
        have hnone := hf.written?.symm.trans (Node.written?_of_spells_eq_false hspells)
        obtain ⟨hparams, -⟩ : f.params = [] ∧ f.results = [] := by
          simpa [FuncType.empty] using hnone
        rw [← hf.paramNames, hparams]
        rfl

end FunctionField

end WasmText
