import WasmText.Proofs.Instruction.Operand
/-!
# Compiled trees are their linear form

Compiling goes through a tree once, looks names up on the way and
registers signatures as it meets them. What comes out is the linear form
of the tree with every mark resolved against the type table at the end
(`compileAll_linear`). From there on a body can be discussed as a list of
marks: its instructions nest, and a reader of instructions gets them back
from their bytes.
-/

namespace WasmText

variable {names : Names} {locals : Locals} {labels : Labels} {env : Env}
variable {head : Head} {children es : List Expr} {op : Opcode}

/-! ## One equation per kind of form -/

theorem compileAll_nil [HexReader] (env : Env) : compileAll env [] = pure [] := by
  rw [compileAll, compileWhere]

theorem compileAll_cons [HexReader] (env : Env) (e : Expr) (es : List Expr) :
    compileAll env (e :: es) = do
      let first ← compileExpr env e
      let rest ← compileAll env es
      return first ++ rest := by
  rw [compileAll, compileWhere, if_pos rfl]
  rfl

/-- Compiling the trees to keep is compiling after the others are gone. -/
theorem compileWhere_eq [HexReader] (env : Env) (keep : Expr → Bool) (es : List Expr) :
    compileWhere env keep es = compileAll env (es.filter keep) := by
  induction es with
  | nil => rw [compileWhere, List.filter_nil, compileAll_nil]
  | cons e es ih =>
      rw [compileWhere]
      by_cases h : keep e = true
      · rw [if_pos h, List.filter_cons_of_pos h, compileAll_cons, ih]
      · rw [if_neg h, List.filter_cons_of_neg h, ih]

/-- A branch is the first child of its name. -/
theorem compileBranch_eq [HexReader] (env : Env) (name : String) (head : Head)
    (children : List Expr) :
    compileBranch env name children = compileAll env (Node.branch ⟨head, children⟩ name) := by
  induction children with
  | nil =>
      rw [compileBranch]
      exact (compileAll_nil env).symm
  | cons e es ih =>
      cases e with
      | ref =>
          rw [compileBranch, ih]
          · rfl
          · nofun
      | data =>
          rw [compileBranch, ih]
          · rfl
          · nofun
      | node h inside =>
          rw [compileBranch]
          by_cases hname : h.instr = name
          · rw [if_pos hname]
            simp [Node.branch, Node.child?, Node.childNodes, Expr.node?, hname, compileAll]
          · rw [if_neg hname, ih]
            simp [Node.branch, Node.child?, Node.childNodes, Expr.node?, hname]

theorem compileExpr_block [HexReader] (h : Opcode.ofName? head.instr = some op)
    (hs : op.shape = .structured) (hc : op ≠ .conditional) :
    compileExpr env (.node head children) = do
      let (type, use) ← .read (Signature.ofNode env.names · ⟨head, children⟩)
      let block ← blockType type use
      let body ← compileAll (env.enter head.label?) (Node.body ⟨head, children⟩)
      return .op op (.block block) :: body ++ [.close] := by
  rw [compileExpr, h]
  simp only [hs, if_neg hc, compileWhere_eq, Node.body]

theorem compileExpr_conditional [HexReader] (h : Opcode.ofName? head.instr = some .conditional) :
    compileExpr env (.node head children) = (do
      let (type, use) ← .read (Signature.ofNode env.names · ⟨head, children⟩)
      let condition ← compileAll env (Node.condition ⟨head, children⟩)
      if Node.hasChild ⟨head, children⟩ "then" then
        let block ← blockType type use
        let first ← compileAll (env.enter head.label?) (Node.branch ⟨head, children⟩ "then")
        if Node.hasChild ⟨head, children⟩ "else" then
          let second ← compileAll (env.enter head.label?) (Node.branch ⟨head, children⟩ "else")
          return condition ++ .op .conditional (.block block) :: first ++
            .otherwise :: second ++ [.close]
        else return condition ++ .op .conditional (.block block) :: first ++ [.close]
      else throw (.malformed .missingThen head.span)) := by
  rw [compileExpr, h]
  have hs : Opcode.conditional.shape = .structured := rfl
  simp only [hs, if_true, compileWhere_eq, compileBranch_eq _ _ head, Node.condition,
    Node.hasChild]
  refine bind_congr fun sig => bind_congr fun condition => ?_
  obtain hthen | ⟨first, hthen⟩ := (Node.child? ⟨head, children⟩ "then").eq_none_or_eq_some
  · simp [hthen]
  · obtain helse | ⟨second, helse⟩ := (Node.child? ⟨head, children⟩ "else").eq_none_or_eq_some
    · simp [hthen, helse]
    · simp [hthen, helse]

theorem compileExpr_indirect [HexReader] (h : Opcode.ofName? head.instr = some op)
    (hs : op.shape = .indirect) :
    compileExpr env (.node head children) = do
      let type ← callType env.names ⟨head, children⟩
      let operands ← compileAll env (Node.body ⟨head, children⟩)
      return operands ++ [.op op (.indirect type)] := by
  rw [compileExpr, h]
  simp only [hs, compileWhere_eq, Node.body]

theorem compileExpr_plain [HexReader] (h : Opcode.ofName? head.instr = some op)
    (hs : op.shape.IsPlain) :
    compileExpr env (.node head children) = do
      let operands ← compileAll env children
      let operand ← .check (immediate env op.shape head)
      return operands ++ [.op op operand] := by
  rw [compileExpr, h]
  dsimp only
  split
  · exact absurd ‹_› hs.1
  · exact absurd ‹_› hs.2
  · rfl

/-! ## When a form compiles -/

section Compiles

variable [HexReader] {t t' : TypeTable} {instrs : List Instr} {e : Expr}

theorem compileAll_nil_eq_ok : compileAll env [] t = .ok instrs t' ↔ instrs = [] ∧ t = t' := by
  rw [compileAll_nil, Typing.pure_eq_ok, eq_comm]

/-- Trees side by side compile one after the other. -/
theorem compileAll_cons_eq_ok :
    compileAll env (e :: es) t = .ok instrs t' ↔
      ∃ first t₁ rest, compileExpr env e t = .ok first t₁ ∧ compileAll env es t₁ = .ok rest t' ∧
        instrs = first ++ rest := by
  rw [compileAll_cons]
  simp only [Typing.bind_eq_ok, Typing.pure_eq_ok]
  constructor
  · rintro ⟨first, t₁, hfirst, rest, _, hrest, rfl, rfl⟩
    exact ⟨first, t₁, rest, hfirst, hrest, rfl⟩
  · rintro ⟨first, t₁, rest, hfirst, hrest, rfl⟩
    exact ⟨first, t₁, hfirst, rest, t', hrest, rfl, rfl⟩

theorem compileExpr_ref_ne_ok {name : String} {span : Span} :
    compileExpr env (.ref name span) t ≠ .ok instrs t' := by
  rw [compileExpr]
  exact Typing.throw_ne_ok

theorem compileExpr_data_ne_ok {bytes : List UInt8} {span : Span} :
    compileExpr env (.data bytes span) t ≠ .ok instrs t' := by
  rw [compileExpr]
  exact Typing.throw_ne_ok

/-- A form of no instruction does not compile. -/
theorem compileExpr_stray_ne_ok (h : Opcode.ofName? head.instr = none) :
    compileExpr env (.node head children) t ≠ .ok instrs t' := by
  rw [compileExpr, h]
  exact Typing.throw_ne_ok

/-- A block or loop compiles exactly if its signature and its body do. -/
theorem compileExpr_block_eq_ok (h : Opcode.ofName? head.instr = some op)
    (hs : op.shape = .structured) (hc : op ≠ .conditional) :
    compileExpr env (.node head children) t = .ok instrs t' ↔
      ∃ type use block t₁ body,
        Signature.ofNode env.names t ⟨head, children⟩ = .ok (type, use) ∧
        blockType type use t = .ok block t₁ ∧
        compileAll (env.enter head.label?) (Node.body ⟨head, children⟩) t₁ = .ok body t' ∧
        instrs = .op op (.block block) :: body ++ [.close] := by
  rw [compileExpr_block h hs hc]
  simp only [Typing.bind_eq_ok, Typing.read_eq_ok, Typing.pure_eq_ok]
  constructor
  · rintro ⟨⟨type, use⟩, _, ⟨hsig, rfl⟩, block, t₁, hblock, body, _, hbody, rfl, rfl⟩
    exact ⟨type, use, block, t₁, body, hsig, hblock, hbody, rfl⟩
  · rintro ⟨type, use, block, t₁, body, hsig, hblock, hbody, rfl⟩
    exact ⟨(type, use), t, ⟨hsig, rfl⟩, block, t₁, hblock, body, t', hbody, rfl, rfl⟩

/-- The second branch of a conditional, where there is one. -/
def compileElse (env : Env) (n : Node) : Typing (List Instr) :=
  if n.hasChild "else" then do
    let second ← compileAll (env.enter n.label?) (n.branch "else")
    return .otherwise :: second
  else return []

/-- A conditional without an `else` has nothing in its place. -/
theorem compileElse_eq_ok {n : Node} :
    compileElse env n t = .ok instrs t' ↔
      if n.hasChild "else" then
        ∃ second, compileAll (env.enter n.label?) (n.branch "else") t = .ok second t' ∧
          instrs = .otherwise :: second
      else instrs = [] ∧ t = t' := by
  rw [compileElse]
  split
  · simp only [Typing.bind_eq_ok, Typing.pure_eq_ok]
    constructor
    · rintro ⟨second, _, hsecond, rfl, rfl⟩
      exact ⟨second, hsecond, rfl⟩
    · rintro ⟨second, hsecond, rfl⟩
      exact ⟨second, t', hsecond, rfl, rfl⟩
  · rw [Typing.pure_eq_ok, eq_comm]

/-- A conditional without its condition. -/
def compileBranches (env : Env) (n : Node) (type : FuncType) (use : Option Nat) :
    Typing (List Instr) := do
  let block ← blockType type use
  let first ← compileAll (env.enter n.label?) (n.branch "then")
  let rest ← compileElse env n
  return .op .conditional (.block block) :: first ++ rest ++ [.close]

/-- The branches of a conditional compile after its block type. -/
theorem compileBranches_eq_ok {n : Node} {type : FuncType} {use : Option Nat} :
    compileBranches env n type use t = .ok instrs t' ↔
      ∃ block t₁ first t₂ rest, blockType type use t = .ok block t₁ ∧
        compileAll (env.enter n.label?) (n.branch "then") t₁ = .ok first t₂ ∧
        compileElse env n t₂ = .ok rest t' ∧
        instrs = .op .conditional (.block block) :: first ++ rest ++ [.close] := by
  rw [compileBranches]
  simp only [Typing.bind_eq_ok, Typing.pure_eq_ok]
  constructor
  · rintro ⟨block, t₁, hblock, first, t₂, hfirst, rest, _, hrest, rfl, rfl⟩
    exact ⟨block, t₁, first, t₂, rest, hblock, hfirst, hrest, rfl⟩
  · rintro ⟨block, t₁, first, t₂, rest, hblock, hfirst, hrest, rfl⟩
    exact ⟨block, t₁, hblock, first, t₂, hfirst, rest, t', hrest, rfl, rfl⟩

theorem compileExpr_conditional_branches (h : Opcode.ofName? head.instr = some .conditional) :
    compileExpr env (.node head children) = (do
      let (type, use) ← .read (Signature.ofNode env.names · ⟨head, children⟩)
      let condition ← compileAll env (Node.condition ⟨head, children⟩)
      if Node.hasChild ⟨head, children⟩ "then" then
        let rest ← compileBranches env ⟨head, children⟩ type use
        return condition ++ rest
      else throw (.malformed .missingThen head.span)) := by
  rw [compileExpr_conditional h]
  refine bind_congr fun sig => bind_congr fun condition => if_congr Iff.rfl ?_ rfl
  simp only [compileBranches, compileElse, bind_assoc]
  refine bind_congr fun block => bind_congr fun first => ?_
  split
  · simp
  · simp

/-- A conditional compiles exactly if its signature, its condition and its
branches do, of which the first has to be there. -/
theorem compileExpr_conditional_eq_ok (h : Opcode.ofName? head.instr = some .conditional) :
    compileExpr env (.node head children) t = .ok instrs t' ↔
      ∃ type use condition t₁ rest,
        Signature.ofNode env.names t ⟨head, children⟩ = .ok (type, use) ∧
        compileAll env (Node.condition ⟨head, children⟩) t = .ok condition t₁ ∧
        Node.hasChild ⟨head, children⟩ "then" = true ∧
        compileBranches env ⟨head, children⟩ type use t₁ = .ok rest t' ∧
        instrs = condition ++ rest := by
  rw [compileExpr_conditional_branches h]
  simp only [Typing.bind_eq_ok, Typing.read_eq_ok]
  constructor
  · rintro ⟨⟨type, use⟩, _, ⟨hsig, rfl⟩, condition, t₁, hcondition, h⟩
    split at h
    · next hthen =>
        obtain ⟨rest, _, hrest, h⟩ := Typing.bind_eq_ok.1 h
        obtain ⟨rfl, rfl⟩ := Typing.pure_eq_ok.1 h
        exact ⟨type, use, condition, t₁, rest, hsig, hcondition, hthen, hrest, rfl⟩
    · exact absurd h Typing.throw_ne_ok
  · rintro ⟨type, use, condition, t₁, rest, hsig, hcondition, hthen, hrest, rfl⟩
    refine ⟨(type, use), t, ⟨hsig, rfl⟩, condition, t₁, hcondition, ?_⟩
    rw [if_pos hthen]
    exact Typing.bind_eq_ok.2 ⟨rest, t', hrest, rfl⟩

/-- An indirect call compiles exactly if its type and its operands do, in
this order. -/
theorem compileExpr_indirect_eq_ok (h : Opcode.ofName? head.instr = some op)
    (hs : op.shape = .indirect) :
    compileExpr env (.node head children) t = .ok instrs t' ↔
      ∃ type t₁ operands, callType env.names ⟨head, children⟩ t = .ok type t₁ ∧
        compileAll env (Node.body ⟨head, children⟩) t₁ = .ok operands t' ∧
        instrs = operands ++ [.op op (.indirect type)] := by
  rw [compileExpr_indirect h hs]
  simp only [Typing.bind_eq_ok, Typing.pure_eq_ok]
  constructor
  · rintro ⟨type, t₁, htype, operands, _, hoperands, rfl, rfl⟩
    exact ⟨type, t₁, operands, htype, hoperands, rfl⟩
  · rintro ⟨type, t₁, operands, htype, hoperands, rfl⟩
    exact ⟨type, t₁, htype, operands, t', hoperands, rfl, rfl⟩

/-- A plain instruction compiles exactly if its operands do and it has an
immediate. -/
theorem compileExpr_plain_eq_ok (h : Opcode.ofName? head.instr = some op)
    (hs : op.shape.IsPlain) :
    compileExpr env (.node head children) t = .ok instrs t' ↔
      ∃ operands i, compileAll env children t = .ok operands t' ∧
        immediate env op.shape head = .ok i ∧ instrs = operands ++ [.op op i] := by
  rw [compileExpr_plain h hs]
  simp only [Typing.bind_eq_ok, Typing.check_eq_ok, Typing.pure_eq_ok]
  constructor
  · rintro ⟨operands, _, hoperands, i, _, ⟨hi, rfl⟩, rfl, rfl⟩
    exact ⟨operands, i, hoperands, hi, rfl⟩
  · rintro ⟨operands, i, hoperands, hi, rfl⟩
    exact ⟨operands, t', hoperands, i, t', ⟨hi, rfl⟩, rfl, rfl⟩

end Compiles

/-! ## The linear form comes out -/

/-- Whether what a computation gives is a list of marks, resolved against
any table that holds what it has registered. -/
def Yields [HexReader] (names : Names) (locals : Locals) (x : Typing (List Instr))
    (marks : List Mark) : Prop :=
  ∀ t t' instrs, x t = .ok instrs t' → t.Grows t' ∧
    ∀ final : TypeTable, t'.entries <+: final.entries →
      marks.mapM (Mark.instr? names locals final) = some instrs

/-- Trees side by side come out one after the other. -/
theorem compileAll_yields [HexReader]
    (h : ∀ e ∈ es, Yields names locals (compileExpr ⟨names, locals, labels⟩ e) (e.linear labels)) :
    Yields names locals (compileAll ⟨names, locals, labels⟩ es) (Expr.linearAll labels es) := by
  induction es with
  | nil =>
      intro t t' instrs hrun
      obtain ⟨rfl, rfl⟩ := compileAll_nil_eq_ok.1 hrun
      exact ⟨.refl, fun _ _ => rfl⟩
  | cons e es ih =>
      intro t t' instrs hrun
      obtain ⟨first, t₁, rest, hfirst, hrest, rfl⟩ := compileAll_cons_eq_ok.1 hrun
      obtain ⟨hgrow, hmarks⟩ := h e List.mem_cons_self t t₁ first hfirst
      obtain ⟨hgrow', hmarks'⟩ :=
        ih (fun c hc => h c (List.mem_cons_of_mem e hc)) t₁ t' rest hrest
      refine ⟨hgrow.trans hgrow', fun final hfinal => ?_⟩
      exact mapM_append_eq_some.2
        ⟨first, rest, hmarks final (hgrow'.isPrefix.trans hfinal), hmarks' final hfinal, rfl⟩

/-- The second branch of a conditional yields its part of the linear form. -/
theorem compileElse_yields [HexReader] {n : Node}
    (h : ∀ e ∈ n.branch "else", Yields names locals
      (compileExpr ⟨names, locals, n.label? :: labels⟩ e) (e.linear (n.label? :: labels))) :
    Yields names locals (compileElse ⟨names, locals, labels⟩ n)
      (if n.hasChild "else" then
        .otherwise :: Expr.linearAll (n.label? :: labels) (n.branch "else") else []) := by
  intro t t' instrs hrun
  rw [compileElse_eq_ok] at hrun
  split at hrun
  · next helse =>
      obtain ⟨second, hsecond, rfl⟩ := hrun
      obtain ⟨hgrow, hmarks⟩ := compileAll_yields h _ _ _ hsecond
      refine ⟨hgrow, fun final hfinal => ?_⟩
      rw [if_pos helse]
      exact mapM_cons_eq_some.2 ⟨.otherwise, second, rfl, hmarks final hfinal, rfl⟩
  · next helse =>
      obtain ⟨rfl, rfl⟩ := hrun
      rw [if_neg helse]
      exact ⟨.refl, fun _ _ => rfl⟩

/-- A construct resolves to its opcode with its block type. -/
theorem instr?_block [HexReader] {final : TypeTable} {n : Node} {b : BlockType} (locals : Locals)
    (labels : Labels) (hs : op.shape = .structured)
    (h : n.blockType? names final = some b) :
    Mark.instr? names locals final (.instr op n labels) = some (.op op (.block b)) := by
  simp [Mark.instr?, Mark.operand?, hs, h]

/-- **Compiling a tree yields its linear form.** -/
theorem compileExpr_yields [HexReader] (names : Names) (locals : Locals) (labels : Labels)
    (e : Expr) :
    Yields names locals (compileExpr ⟨names, locals, labels⟩ e) (e.linear labels) := by
  induction labels, e using Expr.form_induction with
  | ref labels name span => exact fun t t' instrs hrun => absurd hrun compileExpr_ref_ne_ok
  | data labels bytes span => exact fun t t' instrs hrun => absurd hrun compileExpr_data_ne_ok
  | stray labels head children hop =>
      exact fun t t' instrs hrun => absurd hrun (compileExpr_stray_ne_ok hop)
  | block labels head children op hop hs hc ih =>
      intro t t' instrs hrun
      obtain ⟨type, use, b, t₁, body, hsig, hb, hbody, rfl⟩ :=
        (compileExpr_block_eq_ok hop hs hc).1 hrun
      obtain ⟨hgrow, hblock⟩ := blockType_eq_ok hsig hb
      obtain ⟨hgrow', hmarks⟩ := compileAll_yields ih _ _ _ hbody
      -- the body may register types of its own, after that of the block
      refine ⟨hgrow.trans hgrow', fun final hfinal => ?_⟩
      rw [Expr.linear_block hop hs hc]
      have hopen := instr?_block locals labels hs (hblock final (hgrow'.isPrefix.trans hfinal))
      exact mapM_cons_eq_some.2 ⟨_, body ++ [.close], hopen,
        mapM_append_eq_some.2 ⟨body, [.close], hmarks final hfinal, rfl, rfl⟩, rfl⟩
  | conditional labels head children hop ihc iht ihe =>
      intro t t' instrs hrun
      obtain ⟨type, use, condition, t₁, _, hsig, hcondition, -, hbranches, rfl⟩ :=
        (compileExpr_conditional_eq_ok hop).1 hrun
      obtain ⟨b, t₂, first, t₃, second, hb, hfirst, hsecond, rfl⟩ :=
        compileBranches_eq_ok.1 hbranches
      obtain ⟨hgrow₁, hconditions⟩ := compileAll_yields ihc _ _ _ hcondition
      obtain ⟨hgrow₂, hblock⟩ := blockType_eq_ok hsig hb
      obtain ⟨hgrow₃, hfirsts⟩ := compileAll_yields iht _ _ _ hfirst
      obtain ⟨hgrow₄, hseconds⟩ := compileElse_yields ihe _ _ _ hsecond
      refine ⟨((hgrow₁.trans hgrow₂).trans hgrow₃).trans hgrow₄, fun final hfinal => ?_⟩
      have hfinal₃ := hgrow₄.isPrefix.trans hfinal
      have hfinal₂ := hgrow₃.isPrefix.trans hfinal₃
      have hs : Opcode.conditional.shape = .structured := rfl
      have hopen := instr?_block locals labels hs (hblock final hfinal₂)
      rw [Expr.linear_conditional hop]
      simp only [List.append_assoc, List.cons_append]
      have hclose : [Mark.close].mapM (Mark.instr? names locals final) = some [.close] := rfl
      have hinside := mapM_append_eq_some.2 ⟨first, _, hfirsts final hfinal₃,
        mapM_append_eq_some.2 ⟨second, _, hseconds final hfinal, hclose, rfl⟩, rfl⟩
      exact mapM_append_eq_some.2 ⟨condition, _, hconditions final (hgrow₂.isPrefix.trans hfinal₂),
        mapM_cons_eq_some.2 ⟨_, _, hopen, hinside, rfl⟩, rfl⟩
  | indirect labels head children op hop hs ih =>
      intro t t' instrs hrun
      obtain ⟨type, t₁, operands, htype, hoperands, rfl⟩ :=
        (compileExpr_indirect_eq_ok hop hs).1 hrun
      obtain ⟨hgrow, hcall⟩ := callType_eq_ok locals labels htype
      obtain ⟨hgrow', hmarks⟩ := compileAll_yields ih _ _ _ hoperands
      refine ⟨hgrow.trans hgrow', fun final hfinal => ?_⟩
      rw [Expr.linear_indirect hop hs]
      have hlast : Mark.instr? names locals final (.instr op ⟨head, children⟩ labels) =
          some (.op op (.indirect type)) := by
        rw [Mark.instr?, hs, hcall final (hgrow'.isPrefix.trans hfinal)]
        rfl
      exact mapM_append_eq_some.2 ⟨operands, _, hmarks final hfinal,
        mapM_cons_eq_some.2 ⟨_, [], hlast, rfl, rfl⟩, rfl⟩
  | plain labels head children op hop hs ih =>
      intro t t' instrs hrun
      obtain ⟨operands, operand, hoperands, hi, rfl⟩ := (compileExpr_plain_eq_ok hop hs).1 hrun
      obtain ⟨hgrow, hmarks⟩ := compileAll_yields ih _ _ _ hoperands
      refine ⟨hgrow, fun final hfinal => ?_⟩
      rw [Expr.linear_plain hop hs]
      have hlast : Mark.instr? names locals final (.instr op ⟨head, children⟩ labels) =
          some (.op op operand) := by
        rw [Mark.instr?, immediate_eq_ok hs hi final children]
        rfl
      exact mapM_append_eq_some.2 ⟨operands, _, hmarks final hfinal,
        mapM_cons_eq_some.2 ⟨_, [], hlast, rfl, rfl⟩, rfl⟩

/-- **Compiling trees side by side yields their linear forms.** -/
theorem compileAll_linear [HexReader] {t t' : TypeTable} {instrs : List Instr}
    (h : compileAll env es t = .ok instrs t') :
    t.Grows t' ∧ (Expr.linearAll env.labels es).mapM (Mark.instr? env.names env.locals t') =
      some instrs := by
  obtain ⟨names, locals, labels⟩ := env
  obtain ⟨hgrow, hmarks⟩ :=
    compileAll_yields (fun e _ => compileExpr_yields names locals labels e) t t' instrs h
  exact ⟨hgrow, hmarks t' (List.prefix_refl _)⟩

/-- A second branch only adds types. -/
theorem compileElse_grows [HexReader] {t t' : TypeTable} {instrs : List Instr} {n : Node}
    (h : compileElse env n t = .ok instrs t') : t.Grows t' := by
  obtain ⟨names, locals, labels⟩ := env
  exact (compileElse_yields (fun e _ => compileExpr_yields names locals _ e) t t' instrs h).1

/-! ## What is linear is nested -/

/-- The instruction at a mark has the operand of its form. -/
theorem instr?_instr [HexReader] {final : TypeTable} {n : Node} {i : Instr} :
    Mark.instr? names locals final (.instr op n labels) = some i ↔
      ∃ imm, Mark.operand? names locals final labels n op.shape = some imm ∧ i = .op op imm := by
  simp [Mark.instr?, eq_comm]

/-- What a list of trees resolves to is nested if what each of them does
is. -/
theorem nested_of_linearAll [HexReader] {final : TypeTable}
    (h : ∀ e ∈ es, ∀ instrs, (e.linear labels).mapM (Mark.instr? names locals final) = some instrs →
      Nested instrs) {instrs : List Instr}
    (hrun : (Expr.linearAll labels es).mapM (Mark.instr? names locals final) = some instrs) :
    Nested instrs := by
  induction es generalizing instrs with
  | nil =>
      obtain rfl : [] = instrs := by simpa [Expr.linearAll] using hrun
      exact .nil
  | cons e es ih =>
      obtain ⟨first, rest, hfirst, hrest, rfl⟩ := mapM_append_eq_some.1 hrun
      exact .append (h e List.mem_cons_self first hfirst)
        (ih (fun c hc => h c (List.mem_cons_of_mem e hc)) hrest)

/-- **The instructions of a tree nest.** -/
theorem nested_of_linear [HexReader] {final : TypeTable} (labels : Labels) (e : Expr) :
    ∀ instrs, (e.linear labels).mapM (Mark.instr? names locals final) = some instrs →
      Nested instrs := by
  induction labels, e using Expr.form_induction with
  | ref labels name span =>
      intro instrs hrun
      rw [Expr.linear_eq] at hrun
      cases hrun
  | data labels bytes span =>
      intro instrs hrun
      rw [Expr.linear_eq] at hrun
      cases hrun
  | stray labels head children hop =>
      intro instrs hrun
      rw [Expr.linear_stray hop] at hrun
      cases hrun
  | block labels head children op hop hs hc ih =>
      intro instrs hrun
      rw [Expr.linear_block hop hs hc] at hrun
      obtain ⟨i, rest, hi, hrest, rfl⟩ := mapM_cons_eq_some.1 hrun
      obtain ⟨body, ends, hbody, hends, rfl⟩ := mapM_append_eq_some.1 hrest
      obtain ⟨imm, -, rfl⟩ := instr?_instr.1 hi
      obtain rfl : [.close] = ends := by simpa [Mark.instr?] using hends
      exact .block hs (nested_of_linearAll ih hbody)
  | conditional labels head children hop ihc iht ihe =>
      intro instrs hrun
      rw [Expr.linear_conditional hop] at hrun
      obtain ⟨most, ends, hmost, hends, rfl⟩ := mapM_append_eq_some.1 hrun
      obtain ⟨upto, other, hupto, hother, rfl⟩ := mapM_append_eq_some.1 hmost
      obtain ⟨condition, inside, hcondition, hinside, rfl⟩ := mapM_append_eq_some.1 hupto
      obtain ⟨i, first, hi, hfirst, rfl⟩ := mapM_cons_eq_some.1 hinside
      obtain ⟨imm, -, rfl⟩ := instr?_instr.1 hi
      obtain rfl : [.close] = ends := by simpa [Mark.instr?] using hends
      have hbefore := nested_of_linearAll ihc hcondition
      have hthen := nested_of_linearAll iht hfirst
      have hs : Opcode.conditional.shape = .structured := rfl
      split at hother
      · obtain ⟨i, second, hi, hsecond, rfl⟩ := mapM_cons_eq_some.1 hother
        obtain rfl : .otherwise = i := by simpa [Mark.instr?] using hi
        have hinner := Nested.conditional (i := imm) hthen (nested_of_linearAll ihe hsecond)
        simpa only [List.append_assoc, List.cons_append] using hbefore.append hinner
      · obtain rfl : [] = other := by simpa using hother
        have hinner := Nested.block (i := imm) hs hthen
        simpa only [List.append_assoc, List.cons_append, List.append_nil, List.nil_append]
          using hbefore.append hinner
  | indirect labels head children op hop hs ih =>
      intro instrs hrun
      rw [Expr.linear_indirect hop hs] at hrun
      obtain ⟨operands, ends, hoperands, hends, rfl⟩ := mapM_append_eq_some.1 hrun
      obtain ⟨i, rest, hi, hrest, rfl⟩ := mapM_cons_eq_some.1 hends
      obtain ⟨imm, -, rfl⟩ := instr?_instr.1 hi
      obtain rfl : [] = rest := by simpa using hrest
      exact .append (nested_of_linearAll ih hoperands) (.plain (by rw [hs]; decide))
  | plain labels head children op hop hs ih =>
      intro instrs hrun
      rw [Expr.linear_plain hop hs] at hrun
      obtain ⟨operands, ends, hoperands, hends, rfl⟩ := mapM_append_eq_some.1 hrun
      obtain ⟨i, rest, hi, hrest, rfl⟩ := mapM_cons_eq_some.1 hends
      obtain ⟨imm, -, rfl⟩ := instr?_instr.1 hi
      obtain rfl : [] = rest := by simpa using hrest
      exact .append (nested_of_linearAll ih hoperands) (.plain hs.1)

end WasmText
