import WasmText.Proofs.Instruction.Compile
/-!
# The signatures that instructions are written with

What signature a form has, said with the type section of the finished
module at hand and without compiling anything: the signature that its
`type` form refers to, or else what is spelled out. Where both are there
they are the same (`Node.HasType`).

Compiling writes a type index where it has one and goes on, and the type
table grows behind it. In the end every type index in a body stands for
the signature that its form gives (`compileAll_typed`).
-/

namespace WasmText

/-! ## Signatures in a source -/

/-- What the names of types mean. -/
abbrev TypeNames := String → Option FuncType

/-- The signature that an argument refers to: what its name means, or the
entry of the type section that it numbers. -/
def Param.signature? (types : List FuncType) (named : TypeNames) (p : Param) : Option FuncType :=
  match p.arg with
  | .label name => named name
  | arg => (arg.numeric?.bind fun text => Literal.natural? text.toList).bind (types[·]?)

namespace Node

/-- Whether a form spells out parameters or results. -/
def spells (n : Node) : Bool := n.hasChild "param" || n.hasChild "result"

/-- The signature that a `type` form refers to by its one argument. -/
def reference? (types : List FuncType) (named : TypeNames) (use : Node) : Option FuncType :=
  match use.arguments with
  | [p] => p.signature? types named
  | _ => none

/-- The signature that a form gives: that of its `type` form, or else what
is spelled out. -/
def signature? (types : List FuncType) (named : TypeNames) (n : Node) : Option FuncType :=
  match n.child? "type" with
  | some use => use.reference? types named
  | none => n.written?

/-- A form of the given signature. What it spells out beside a `type` form
repeats the signature. -/
structure HasType (types : List FuncType) (named : TypeNames) (n : Node) (t : FuncType) : Prop where
  signature : n.signature? types named = some t
  agrees : n.hasChild "type" = true → n.spells = true → n.written? = some t

/-- An indirect call of the given signature: that of its forms, or of its
only argument. -/
def CallsType (types : List FuncType) (named : TypeNames) (n : Node) (t : FuncType) : Prop :=
  match n.arguments with
  | [] => n.HasType types named t
  | [p] => n.hasChild "type" = false ∧ p.signature? types named = some t
  | _ => False

end Node

/-! ## Signatures in a body -/

/-- The signature that a block type stands for. -/
def BlockType.signature? (types : List FuncType) : BlockType → Option FuncType
  | empty => some ⟨[], []⟩
  | value type => some ⟨[], [type]⟩
  | index i => types[i]?

/-- Whether an operand says anything about types. -/
def Immediate.isTyped : Immediate → Bool
  | block _ => true
  | indirect _ => true
  | _ => false

/-- An instruction whose type index, if it has one, stands for the
signature that its mark gives. -/
inductive Mark.Typed (types : List FuncType) (named : TypeNames) : Mark → Instr → Prop where
  | construct {op : Opcode} {form : Node} {labels : Labels} {b : BlockType} {t : FuncType}
      (hshape : op.shape = .structured) (hform : form.HasType types named t)
      (hblock : b.signature? types = some t) :
    Typed types named (.instr op form labels) (.op op (.block b))
  | call {op : Opcode} {form : Node} {labels : Labels} {i : Nat} {t : FuncType}
      (hshape : op.shape = .indirect) (hform : form.CallsType types named t)
      (hentry : types[i]? = some t) :
    Typed types named (.instr op form labels) (.op op (.indirect i))
  | plain {op : Opcode} {form : Node} {labels : Labels} {imm : Immediate}
      (hshape : op.shape.IsPlain) (himm : imm.isTyped = false) :
    Typed types named (.instr op form labels) (.op op imm)
  | otherwise : Typed types named .otherwise .otherwise
  | close : Typed types named .close .close

/-- Names that mean by their index what they mean. -/
def Names.Mean (names : Names) (types : List FuncType) (named : TypeNames) : Prop :=
  ∀ name i, names.index? .type name = some i → named name = types[i]?

/-! ## What is checked -/

theorem getElem?_of_isPrefix {α : Type} {as bs : List α} {i : Nat} (h : as <+: bs)
    (hi : i < as.length) : bs[i]? = as[i]? := by
  obtain ⟨more, rfl⟩ := h
  exact List.getElem?_append_left hi

theorem TypeTable.getElem?_intern {table : TypeTable} {t : FuncType} {final : List FuncType}
    (h : (table.intern t).2.entries <+: final) : final[(table.intern t).1]? = some t := by
  obtain ⟨hlt, hat, -⟩ := List.idxOf?_eq_some_iff.1 (table.idxOf?_intern t)
  rw [getElem?_of_isPrefix h hlt, List.getElem?_eq_getElem hlt]
  exact congrArg some hat

theorem Node.hasChild_eq (n : Node) (name : String) :
    n.hasChild name = n.childNodes.any (·.instr == name) := by
  rw [hasChild, child?, List.isSome_find?]

variable {names : Names} {final : List FuncType} {named : TypeNames} {n : Node}

namespace Signature

variable {table : TypeTable}

theorem isSome_of_part {part : Option FuncType} (h : Signature.part n = .ok part) :
    part.isSome = (n.instr == "param" || n.instr == "result") := by
  unfold Signature.part at h
  split at h
  · next hparam =>
    obtain ⟨types, -, h⟩ := bind_eq_ok.1 h
    obtain rfl := pure_eq_ok.1 h
    simp [hparam]
  · next hparam =>
    split at h
    · next hresult =>
      obtain ⟨types, -, h⟩ := bind_eq_ok.1 h
      obtain rfl := pure_eq_ok.1 h
      simp [hresult]
    · next hresult =>
      obtain rfl := pure_eq_ok.1 h
      simp [hparam, hresult]

theorem isEmpty_of_mapM_part {nodes : List Node} {parts : List (Option FuncType)}
    (h : nodes.mapM part = .ok parts) : (parts.filterMap id).isEmpty =
      !(nodes.any (·.instr == "param") || nodes.any (·.instr == "result")) := by
  rw [mapM_eq_ok] at h
  induction h with
  | nil => rfl
  | @cons c part nodes parts hpart _ ih =>
      have hsome := isSome_of_part hpart
      cases part with
      | none =>
          rw [Option.isSome_none, eq_comm, Bool.or_eq_false_iff] at hsome
          rw [List.filterMap_cons_none rfl, ih]
          simp [hsome]
      | some type =>
          rw [Option.isSome_some, eq_comm, Bool.or_eq_true] at hsome
          rcases hsome with hparam | hresult
          · simp [hparam]
          · simp [hresult]

/-- A signature is spelled out where a `param` or `result` form is. -/
theorem isSome_of_spelled {beside : Option FuncType} (h : spelled n = .ok beside) :
    beside.isSome = n.spells := by
  obtain ⟨parts, hparts, h⟩ := bind_eq_ok.1 h
  have hempty := isEmpty_of_mapM_part hparts
  rw [← Node.hasChild_eq, ← Node.hasChild_eq, ← Node.spells] at hempty
  dsimp only at h
  split at h
  · next hnone =>
    obtain rfl := pure_eq_ok.1 h
    rw [hnone] at hempty
    simpa using hempty
  · next hsome =>
    obtain rfl := pure_eq_ok.1 h
    rw [Bool.eq_false_iff.2 hsome] at hempty
    simpa using hempty

variable (hnames : names.Mean final named)

include hnames

theorem signature?_of_referred {p : Param} {i : Nat} (hfinal : table.entries <+: final)
    (h : referred names table p = .ok i) :
    p.signature? final named = table.at? i ∧ final[i]? = table.at? i ∧ (table.at? i).isSome := by
  obtain ⟨hindex, hlt⟩ := referred_eq_ok h
  have hentry : final[i]? = table.at? i := getElem?_of_isPrefix hfinal hlt
  refine ⟨hentry ▸ ?_, hentry, by simpa [TypeTable.at?, TypeTable.count] using hlt⟩
  unfold Param.index? at hindex
  unfold Param.signature?
  split
  · next hlabel =>
    rw [hlabel] at hindex
    exact hnames _ i hindex
  · next arg hlabel =>
    split at hindex
    · next name harg => exact absurd harg (hlabel name)
    · rw [hindex]
      rfl

theorem reference?_of_agreed {use : Node} {beside : Option FuncType} {i : Nat}
    (hfinal : table.entries <+: final) (h : agreed names table use beside = .ok i) :
    ∃ t, use.reference? final named = some t ∧ table.at? i = some t ∧ final[i]? = some t ∧
      ∀ other ∈ beside, other = t := by
  obtain ⟨j, hused, h⟩ := bind_eq_ok.1 h
  unfold used at hused
  split at hused
  · next p hargs =>
    obtain ⟨hreference, hentry, hsome⟩ := signature?_of_referred hnames hfinal hused
    obtain ⟨t, ht⟩ := Option.isSome_iff_exists.1 hsome
    rw [ht] at hreference hentry
    split at h
    · next hagree =>
      obtain rfl := pure_eq_ok.1 h
      refine ⟨t, by simp [Node.reference?, hargs, hreference], ht, hentry, fun other hother => ?_⟩
      rw [Option.mem_def.1 hother, ht] at hagree
      simpa using hagree
    · exact absurd h throw_ne_ok
  · cases hused

/-- **The signature of a form** is the one it gives, and has the index
that its `type` form gives. -/
theorem hasType_of_ofNode {type : FuncType} {use : Option Nat} (hfinal : table.entries <+: final)
    (h : ofNode names table n = .ok (type, use)) :
    n.HasType final named type ∧ ∀ i ∈ use, final[i]? = some type := by
  obtain ⟨beside, hbeside, h⟩ := bind_eq_ok.1 h
  have hwritten := spelled_eq_ok hbeside
  have hspells := isSome_of_spelled hbeside
  cases hu : n.child? "type" with
  | none =>
      simp only [hu] at h
      obtain ⟨rfl, rfl⟩ := Prod.mk.inj (pure_eq_ok.1 h)
      refine ⟨⟨by simp [Node.signature?, hu, hwritten], fun htype => ?_⟩, by simp⟩
      rw [Node.hasChild, hu] at htype
      cases htype
  | some u =>
      simp only [hu] at h
      obtain ⟨i, hagreed, h⟩ := bind_eq_ok.1 h
      obtain ⟨rfl, rfl⟩ := Prod.mk.inj (pure_eq_ok.1 h)
      obtain ⟨t, hreference, hat, hentry, hother⟩ := reference?_of_agreed hnames hfinal hagreed
      rw [hat, Option.getD_some]
      refine ⟨⟨by simp [Node.signature?, hu, hreference], fun _ hspelled => ?_⟩, fun k hk => ?_⟩
      · -- what is spelled out is the signature referred to
        rw [hspelled] at hspells
        obtain ⟨other, rfl⟩ := Option.isSome_iff_exists.1 hspells
        rw [hwritten, Option.getD_some, hother other rfl]
      · rw [← Option.some.inj (Option.mem_def.1 hk)]
        exact hentry

/-- Registering the signature of a form gives its index. -/
theorem hasType_of_intern {table' : TypeTable} {i : Nat} (hfinal : table'.entries <+: final)
    (h : intern names table n = .ok (i, table')) :
    ∃ t, n.HasType final named t ∧ final[i]? = some t := by
  obtain ⟨⟨type, use⟩, hsig, h⟩ := bind_eq_ok.1 h
  cases use with
  | some k =>
      obtain ⟨rfl, rfl⟩ := Prod.mk.inj (pure_eq_ok.1 h)
      obtain ⟨hform, huse⟩ := hasType_of_ofNode hnames hfinal hsig
      exact ⟨type, hform, huse k rfl⟩
  | none =>
      obtain ⟨rfl, rfl⟩ := Prod.mk.inj (pure_eq_ok.1 h)
      have hform := (hasType_of_ofNode hnames ((table.prefix_intern type).trans hfinal) hsig).1
      exact ⟨type, hform, TypeTable.getElem?_intern hfinal⟩

end Signature

section Table

variable {t t' : TypeTable} (hnames : names.Mean final named)

/-- A block type stands for its signature in every later table. -/
theorem signature?_of_blockType {type : FuncType} {use : Option Nat} {b : BlockType}
    (huse : ∀ i ∈ use, final[i]? = some type) (hfinal : t'.entries <+: final)
    (h : blockType type use t = .ok b t') : b.signature? final = some type := by
  obtain ⟨rfl, rfl⟩ : (t.blockType type use).1 = b ∧ (t.blockType type use).2 = t' := by
    injection h with h₁ h₂
    exact ⟨h₁, h₂⟩
  cases use with
  | some i => exact huse i rfl
  | none =>
      -- the two short forms say it all
      obtain ⟨_ | ⟨param, params⟩, _ | ⟨result, _ | ⟨result', results⟩⟩⟩ := type
      · rfl
      · rfl
      all_goals exact TypeTable.getElem?_intern hfinal

include hnames

theorem callsType_of_callType {i : Nat} (hfinal : t'.entries <+: final)
    (h : callType names n t = .ok i t') :
    ∃ type, n.CallsType final named type ∧ final[i]? = some type := by
  obtain ⟨hargs, hintern⟩ | ⟨p, hargs, hhas, hp, rfl⟩ := callType_iff.1 h
  · obtain ⟨type, hform, hentry⟩ := Signature.hasType_of_intern hnames hfinal hintern
    exact ⟨type, by simpa [Node.CallsType, hargs] using hform, hentry⟩
  · obtain ⟨hreference, hentry, hsome⟩ := Signature.signature?_of_referred hnames hfinal hp
    obtain ⟨type, htype⟩ := Option.isSome_iff_exists.1 hsome
    rw [htype] at hreference hentry
    exact ⟨type, by simp [Node.CallsType, hargs, hhas, hreference], hentry⟩

end Table

/-! ## Bodies -/

/-- The operand of a plain instruction has no type in it. -/
theorem isTyped_of_immediate [HexReader] {env : Env} {shape : Shape} {head : Head} {imm : Immediate}
    (hs : shape.IsPlain) (h : immediate env shape head = .ok imm) : imm.isTyped = false := by
  have hoperand := immediate_eq_ok hs h .empty []
  unfold Mark.operand? at hoperand
  cases imm with
  | block b | indirect i =>
      split at hoperand
      all_goals simp_all [Shape.IsPlain, Option.bind_eq_some_iff]
  | _ => rfl

/-- Whether what a computation gives is typed as its marks are, in every
table that holds what it has registered. -/
def Types (final : List FuncType) (named : TypeNames) (x : Typing (List Instr))
    (marks : List Mark) : Prop :=
  ∀ t t' instrs, x t = .ok instrs t' → t'.entries <+: final →
    List.Forall₂ (Mark.Typed final named) marks instrs

variable {locals : Locals} {labels : Labels} {es : List Expr}

theorem compileAll_types [HexReader]
    (h : ∀ e ∈ es, Types final named (compileExpr ⟨names, locals, labels⟩ e) (e.linear labels)) :
    Types final named (compileAll ⟨names, locals, labels⟩ es) (Expr.linearAll labels es) := by
  induction es with
  | nil =>
      intro t t' instrs hrun _
      obtain ⟨rfl, rfl⟩ := compileAll_nil_eq_ok.1 hrun
      exact .nil
  | cons e es ih =>
      intro t t' instrs hrun hfinal
      obtain ⟨first, t₁, rest, hfirst, hrest, rfl⟩ := compileAll_cons_eq_ok.1 hrun
      have hgrow := (compileAll_linear hrest).1.isPrefix
      exact List.rel_append (h e List.mem_cons_self t t₁ first hfirst (hgrow.trans hfinal))
        (ih (fun c hc => h c (List.mem_cons_of_mem e hc)) t₁ t' rest hrest hfinal)

theorem compileElse_types [HexReader] {n : Node}
    (h : ∀ e ∈ n.branch "else", Types final named
      (compileExpr ⟨names, locals, n.label? :: labels⟩ e) (e.linear (n.label? :: labels))) :
    Types final named (compileElse ⟨names, locals, labels⟩ n)
      (if n.hasChild "else" then
        .otherwise :: Expr.linearAll (n.label? :: labels) (n.branch "else") else []) := by
  intro t t' instrs hrun hfinal
  rw [compileElse_eq_ok] at hrun
  split at hrun
  · next helse =>
      obtain ⟨second, hsecond, rfl⟩ := hrun
      rw [if_pos helse]
      exact .cons .otherwise (compileAll_types h _ _ _ hsecond hfinal)
  · next helse =>
      obtain ⟨rfl, rfl⟩ := hrun
      rw [if_neg helse]
      exact .nil

/-- **Every type index in a tree** stands for the signature of its form. -/
theorem compileExpr_types [HexReader] (hnames : names.Mean final named) (locals : Locals)
    (labels : Labels) (e : Expr) :
    Types final named (compileExpr ⟨names, locals, labels⟩ e) (e.linear labels) := by
  induction labels, e using Expr.form_induction with
  | ref labels name span => exact fun t t' instrs hrun => absurd hrun compileExpr_ref_ne_ok
  | data labels bytes span => exact fun t t' instrs hrun => absurd hrun compileExpr_data_ne_ok
  | stray labels head children hop =>
      exact fun t t' instrs hrun => absurd hrun (compileExpr_stray_ne_ok hop)
  | block labels head children op hop hs hc ih =>
      intro t t' instrs hrun hfinal
      obtain ⟨type, use, b, t₁, body, hsig, hb, hbody, rfl⟩ :=
        (compileExpr_block_eq_ok hop hs hc).1 hrun
      -- the body may register types of its own, after that of the block
      have hfinal₁ := (compileAll_linear hbody).1.isPrefix.trans hfinal
      obtain ⟨hform, huse⟩ := Signature.hasType_of_ofNode hnames
        ((blockType_eq_ok hsig hb).1.isPrefix.trans hfinal₁) hsig
      rw [Expr.linear_block hop hs hc]
      refine .cons (.construct hs hform (signature?_of_blockType huse hfinal₁ hb)) ?_
      exact List.rel_append (compileAll_types ih _ _ _ hbody hfinal) (.cons .close .nil)
  | conditional labels head children hop ihc iht ihe =>
      intro t t' instrs hrun hfinal
      obtain ⟨type, use, condition, t₁, _, hsig, hcondition, -, hbranches, rfl⟩ :=
        (compileExpr_conditional_eq_ok hop).1 hrun
      obtain ⟨b, t₂, first, t₃, second, hb, hfirst, hsecond, rfl⟩ :=
        compileBranches_eq_ok.1 hbranches
      -- the table at the end holds what each part has registered
      have hfinal₃ := (compileElse_grows hsecond).isPrefix.trans hfinal
      have hfinal₂ := (compileAll_linear hfirst).1.isPrefix.trans hfinal₃
      have hfinal₁ := (blockType_eq_ok hsig hb).1.isPrefix.trans hfinal₂
      obtain ⟨hform, huse⟩ := Signature.hasType_of_ofNode hnames
        ((compileAll_linear hcondition).1.isPrefix.trans hfinal₁) hsig
      have hblock := signature?_of_blockType huse hfinal₂ hb
      rw [Expr.linear_conditional hop]
      simp only [List.append_assoc, List.cons_append]
      refine List.rel_append (compileAll_types ihc _ _ _ hcondition hfinal₁)
        (.cons (.construct rfl hform hblock) ?_)
      exact List.rel_append (compileAll_types iht _ _ _ hfirst hfinal₃)
        (List.rel_append (compileElse_types ihe _ _ _ hsecond hfinal) (.cons .close .nil))
  | indirect labels head children op hop hs ih =>
      intro t t' instrs hrun hfinal
      obtain ⟨type, t₁, operands, htype, hoperands, rfl⟩ :=
        (compileExpr_indirect_eq_ok hop hs).1 hrun
      obtain ⟨signature, hform, hentry⟩ := callsType_of_callType hnames
        ((compileAll_linear hoperands).1.isPrefix.trans hfinal) htype
      rw [Expr.linear_indirect hop hs]
      exact List.rel_append (compileAll_types ih _ _ _ hoperands hfinal)
        (.cons (.call hs hform hentry) .nil)
  | plain labels head children op hop hs ih =>
      intro t t' instrs hrun hfinal
      obtain ⟨operands, operand, hoperands, himm, rfl⟩ := (compileExpr_plain_eq_ok hop hs).1 hrun
      rw [Expr.linear_plain hop hs]
      exact List.rel_append (compileAll_types ih _ _ _ hoperands hfinal)
        (.cons (.plain hs (isTyped_of_immediate hs himm)) .nil)

/-- **Every type index in a body** stands for the signature of its form,
in any table that holds what is registered by then. -/
theorem compileAll_typed [HexReader] {env : Env} (hnames : env.names.Mean final named)
    {t t' : TypeTable} {instrs : List Instr} (hfinal : t'.entries <+: final)
    (h : compileAll env es t = .ok instrs t') :
    List.Forall₂ (Mark.Typed final named) (Expr.linearAll env.labels es) instrs := by
  obtain ⟨names, locals, labels⟩ := env
  exact compileAll_types (fun e _ => compileExpr_types hnames locals labels e) t t' instrs h hfinal

end WasmText
