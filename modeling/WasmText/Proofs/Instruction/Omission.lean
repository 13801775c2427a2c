import WasmText.Proofs.Instruction.Decode
import WasmText.Proofs.Instruction.FormCount
import WasmText.Proofs.Instruction.Numbering
/-!
# What compiling passes over

Every instruction form of a tree that compiles becomes one instruction,
except for those inside a second `then` or `else` of a conditional, which
are passed over (`countP_of_compileExpr`). Every argument of an
instruction stands in its immediate, except for an alignment or an offset
that is given again (`carries_of_mark`). What is written on a construct
besides its label, and on a branch besides its trees, is not looked at
(`compileExpr_unargued`).
-/

namespace WasmText

/-! ## Instructions -/

def Instr.isOp : Instr → Bool
  | op _ _ => true
  | _ => false

section mapM

variable {names : Names} {locals : Locals} {final : TypeTable} {marks : List Mark}
  {instrs : List Instr}

/-- An instruction that is no mark of a construct has a form of its own. -/
theorem countP_isOp [HexReader] (h : marks.mapM (Mark.instr? names locals final) = some instrs) :
    instrs.countP Instr.isOp = marks.countP Mark.isInstr := by
  have hall := mapM_eq_some.1 h
  induction hall with
  | nil => rfl
  | @cons m i marks instrs hi _ ih =>
      have hsame : i.isOp = m.isInstr := by
        cases m with
        | instr op n labels =>
            obtain ⟨imm, -, rfl⟩ := instr?_instr.1 hi
            rfl
        | otherwise =>
            cases hi
            rfl
        | close =>
            cases hi
            rfl
        | stray => cases hi
      rw [List.countP_cons, List.countP_cons, ih (mapM_eq_some.2 ‹_›), hsame]

/-- A stray form has no instruction, so none is left in trees that compile.
-/
theorem stray_not_mem [HexReader] (h : marks.mapM (Mark.instr? names locals final) = some instrs) :
    .stray ∉ marks := by
  intro hmem
  obtain ⟨i, -, hi⟩ := exists_of_mem_forall₂ (mapM_eq_some.1 h).flip hmem
  cases hi

end mapM

theorem Mark.weightAll_eq (marks : List Mark) :
    weightAll marks = marks.countP Mark.isInstr + (marks.map Mark.passedOver).sum := by
  induction marks with
  | nil => rfl
  | cons m marks ih =>
      rw [weightAll_cons, ih, List.countP_cons, List.map_cons, List.sum_cons, weight]
      omega

/-! ## Arguments -/

namespace Param

/-- The keyword that an argument gives a value to. -/
def key? (p : Param) : Option Keyword :=
  match p.arg with
  | .keyword key (some _) => some key
  | _ => none

/-- An argument that gives a value to a keyword has this keyword. -/
theorem key?_of_valueOf? {p : Param} {key : Keyword} {n : Nat} (h : p.valueOf? key = some n) :
    p.key? = some key := by
  obtain ⟨arg, span⟩ := p
  cases arg with
  | keyword k value =>
      cases value with
      | none => cases h
      | some text =>
          simp only [valueOf?] at h
          split at h
          next hkey => exact congrArg some hkey
          next => cases h
  | _ => cases h

end Param

/-- Whether the keyword of an argument is given again further on. -/
def Overridden (p : Param) (args : List Param) : Prop :=
  ∃ before after q, args = before ++ p :: after ∧ q ∈ after ∧ p.key?.isSome ∧ q.key? = p.key?

/-- Whether an immediate holds what an argument of an instruction of the
given shape stands for. -/
def Immediate.Carries [HexReader] (env : Env) (shape : Shape) (p : Param) : Immediate → Prop
  | index i => p.index? (env.lookup? shape) = some i
  | labels targets default =>
    ∃ depth ∈ targets ++ [default], p.index? env.labels.depth? = some depth
  | indirect i => p.index? (env.names.index? .type) = some i
  | access alignment offset =>
    (p.valueOf? .align).map Nat.log2 = some alignment ∨ p.valueOf? .offset = some offset
  | i32 v => p.constant? (Literal.word? 32) = some v
  | i64 v => p.constant? (Literal.word? 64) = some v
  | f32 bits =>
    (p.constant? fun text => (Literal.float .single text).toOption).map (.ofNat 32) = some bits
  | f64 bits =>
    (p.constant? fun text => (Literal.float .double text).toOption).map (.ofNat 64) = some bits
  | _ => False

/-- An argument is the last for its keyword, or is overridden. -/
theorem lastValue?_or_overridden {p : Param} {key : Keyword} {n : Nat} {args : List Param}
    (hp : p ∈ args) (hn : p.valueOf? key = some n) :
    lastValue? key args = some n ∨ Overridden p args := by
  obtain ⟨before, after, rfl⟩ := List.append_of_mem hp
  by_cases hagain : ∃ q ∈ after, (q.valueOf? key).isSome
  · obtain ⟨q, hq, hsome⟩ := hagain
    obtain ⟨m, hm⟩ := Option.isSome_iff_exists.1 hsome
    have hkey := Param.key?_of_valueOf? hn
    refine .inr ⟨before, after, q, rfl, hq, by simp [hkey], ?_⟩
    rw [hkey, Param.key?_of_valueOf? hm]
  · left
    have hnone : after.filterMap (·.valueOf? key) = [] := by
      rw [List.filterMap_eq_nil_iff]
      intro q hq
      by_contra hne
      exact hagain ⟨q, hq, Option.isSome_iff_ne_none.2 hne⟩
    rw [lastValue?, List.filterMap_append, List.filterMap_cons_some hn, hnone]
    exact List.getLast?_concat

/-- Every argument of an access gives an alignment or an offset. -/
theorem valueOf?_of_accessArguments {ps : List Param} {alignment offset : Nat} {access : Nat × Nat}
    (h : accessArguments alignment offset ps = .ok access) {p : Param} (hp : p ∈ ps) :
    ∃ n, p.valueOf? .align = some n ∨ p.valueOf? .offset = some n := by
  fun_induction accessArguments alignment offset ps with
  | case1 => cases hp
  | case2 alignment offset text span ps ih =>
      obtain ⟨n, hn, h⟩ := bind_eq_ok.1 h
      rcases List.mem_cons.1 hp with rfl | hp
      · exact ⟨n, .inr (Literal.readNatural_eq_ok.1 hn)⟩
      · exact ih n h hp
  | case3 alignment offset text span ps ih =>
      obtain ⟨bytes, hbytes, h⟩ := bind_eq_ok.1 h
      obtain ⟨n, hn, h⟩ := bind_eq_ok.1 h
      rcases List.mem_cons.1 hp with rfl | hp
      · exact ⟨bytes, .inl (Literal.readNatural_eq_ok.1 hbytes)⟩
      · exact ih n h hp
  | case4 => cases h

/-- **No argument of a plain instruction is dropped**, unless another
overrides it. -/
theorem carries_of_immediate [HexReader] {env : Env} {shape : Shape} {head : Head} {imm : Immediate}
    (h : immediate env shape head = .ok imm) {p : Param} (hp : p ∈ head.arguments) :
    imm.Carries env shape p ∨ Overridden p head.arguments := by
  cases shape with
  | none | structured | indirect | memory =>
      obtain ⟨u, hu, -⟩ := bind_eq_ok.1 h
      rw [refuseArguments_eq_ok.1 hu] at hp
      cases hp
  | label =>
      obtain ⟨q, hq, h⟩ := bind_eq_ok.1 h
      obtain ⟨depth, hdepth, h⟩ := bind_eq_ok.1 h
      obtain rfl := pure_eq_ok.1 h
      rw [soleArgument_eq_ok.1 hq, List.mem_singleton] at hp
      exact .inl (hp ▸ Env.branchDepth_eq_ok.1 hdepth)
  | labels =>
      obtain ⟨depths, last, hdepths, hlast, rfl⟩ := labelArguments_eq_ok h
      obtain ⟨depth, hmem, hdepth⟩ := exists_of_mem_forall₂ (mapM_eq_some.1 hdepths).flip hp
      refine .inl ⟨depth, ?_, hdepth⟩
      rwa [List.dropLast_append_getLast? last hlast]
  | function | «local» | global =>
      obtain ⟨q, n, hq, hn, rfl⟩ := index_soleArgument_eq_ok h
      rw [hq, List.mem_singleton] at hp
      exact .inl (hp ▸ hn)
  | access natural =>
      obtain ⟨access, haccess, h⟩ := bind_eq_ok.1 h
      obtain rfl := pure_eq_ok.1 h
      rw [accessArguments_eq_ok haccess]
      obtain ⟨n, hn | hn⟩ := valueOf?_of_accessArguments haccess hp
      · refine (lastValue?_or_overridden hp hn).imp_left fun hlast => .inl ?_
        rw [hn, hlast]
        rfl
      · refine (lastValue?_or_overridden hp hn).imp_left fun hlast => .inr ?_
        rw [hn, hlast]
        rfl
  | i32 =>
      obtain ⟨q, v, hq, hv, rfl⟩ :=
        constant_soleArgument_eq_ok (Literal.word? 32) (fun _ _ _ => Literal.orInvalid_eq_ok) h
      rw [hq, List.mem_singleton] at hp
      exact .inl (hp ▸ hv)
  | i64 =>
      obtain ⟨q, v, hq, hv, rfl⟩ :=
        constant_soleArgument_eq_ok (Literal.word? 64) (fun _ _ _ => Literal.orInvalid_eq_ok) h
      rw [hq, List.mem_singleton] at hp
      exact .inl (hp ▸ hv)
  | f32 =>
      obtain ⟨q, bits, hq, hbits, rfl⟩ :=
        constant_soleArgument_eq_ok (fun text => (Literal.float .single text).toOption)
          (fun _ _ _ => Literal.readF32_eq_ok) h
      rw [hq, List.mem_singleton] at hp
      exact .inl (Option.map_eq_some_iff.2 ⟨bits, hp ▸ hbits, rfl⟩)
  | f64 =>
      obtain ⟨q, bits, hq, hbits, rfl⟩ :=
        constant_soleArgument_eq_ok (fun text => (Literal.float .double text).toOption)
          (fun _ _ _ => Literal.readF64_eq_ok) h
      rw [hq, List.mem_singleton] at hp
      exact .inl (Option.map_eq_some_iff.2 ⟨bits, hp ▸ hbits, rfl⟩)

/-- **No argument of an indirect call is dropped.** -/
theorem carries_of_indirect [HexReader] (env : Env) {table : TypeTable} {n : Node} {imm : Immediate}
    (h : Mark.operand? env.names env.locals table env.labels n .indirect = some imm) {p : Param}
    (hp : p ∈ n.arguments) : imm.Carries env .indirect p := by
  rcases hargs : n.arguments with _ | ⟨q, _ | ⟨extra, ps⟩⟩
  · rw [hargs] at hp
    cases hp
  · rw [hargs, List.mem_singleton] at hp
    simp only [Mark.operand?, hargs, Option.map_eq_some_iff] at h
    obtain ⟨i, hi, rfl⟩ := h
    exact hp ▸ hi
  · simp [Mark.operand?, hargs] at h

/-- Whether the arguments at a mark of a plain instruction are in order. -/
def Mark.Checked [HexReader] (names : Names) (locals : Locals) : Mark → Prop
  | instr op n labels =>
    op.shape.IsPlain → ∃ imm, immediate ⟨names, locals, labels⟩ op.shape n.toHead = .ok imm
  | _ => True

namespace Mark

variable {names : Names} {locals : Locals}

/-- Only plain instructions have an immediate to check. -/
theorem checked_instr [HexReader] {op : Opcode} (h : ¬ op.shape.IsPlain) (n : Node)
    (labels : Labels) :
    Checked names locals (.instr op n labels) := fun hplain => absurd hplain h

/-- Trees side by side are checked if each of them is. -/
theorem checked_linearAll [HexReader] {env : Env} {es : List Expr} {t t' : TypeTable}
    {instrs : List Instr} {labels : Labels}
    (h : ∀ e ∈ es, ∀ t t' instrs, compileExpr env e t = .ok instrs t' →
      ∀ m ∈ e.linear labels, m.Checked names locals)
    (hrun : compileAll env es t = .ok instrs t') :
    ∀ m ∈ Expr.linearAll labels es, m.Checked names locals := by
  intro m hm
  obtain ⟨e, he, hm⟩ := List.mem_flatMap.1 hm
  obtain ⟨t₁, t₂, first, hfirst⟩ := exists_of_mem_compileAll hrun he
  exact h e he t₁ t₂ first hfirst m hm

end Mark

/-- **Compiling checks the arguments of every plain instruction.** -/
theorem Expr.checked_of_compileExpr [HexReader] (names : Names) (locals : Locals) (labels : Labels)
    (e : Expr) :
    ∀ t t' instrs, compileExpr ⟨names, locals, labels⟩ e t = .ok instrs t' →
      ∀ m ∈ e.linear labels, m.Checked names locals := by
  induction labels, e using Expr.form_induction with
  | ref labels name span => exact fun t t' instrs hrun => absurd hrun compileExpr_ref_ne_ok
  | data labels bytes span => exact fun t t' instrs hrun => absurd hrun compileExpr_data_ne_ok
  | stray labels head children hop =>
      exact fun t t' instrs hrun => absurd hrun (compileExpr_stray_ne_ok hop)
  | block labels head children op hop hs hc ih =>
      intro t t' instrs hrun m hm
      obtain ⟨_, _, _, _, _, -, -, hbody, -⟩ := (compileExpr_block_eq_ok hop hs hc).1 hrun
      rw [linear_block hop hs hc, List.cons_append, List.mem_cons, List.mem_append,
        List.mem_singleton] at hm
      rcases hm with rfl | hm | rfl
      · exact Mark.checked_instr (fun hplain => hplain.1 hs) _ _
      · exact Mark.checked_linearAll ih hbody m hm
      · trivial
  | conditional labels head children hop ihc iht ihe =>
      intro t t' instrs hrun m hm
      obtain ⟨_, _, _, _, _, -, hcondition, -, hbranches, -⟩ :=
        (compileExpr_conditional_eq_ok hop).1 hrun
      obtain ⟨_, _, _, _, _, -, hfirst, hrest, -⟩ := compileBranches_eq_ok.1 hbranches
      rw [linear_conditional hop] at hm
      simp only [List.mem_append, List.mem_cons, List.not_mem_nil, or_false] at hm
      rcases hm with ((hm | rfl | hm) | hm) | rfl
      · exact Mark.checked_linearAll ihc hcondition m hm
      · exact Mark.checked_instr (fun hplain => hplain.1 rfl) _ _
      · exact Mark.checked_linearAll iht hfirst m hm
      · rw [compileElse_eq_ok] at hrest
        split at hrest
        next helse =>
          obtain ⟨_, hsecond, -⟩ := hrest
          rw [if_pos helse, List.mem_cons] at hm
          rcases hm with rfl | hm
          · trivial
          · exact Mark.checked_linearAll ihe hsecond m hm
        next helse =>
          rw [if_neg helse] at hm
          cases hm
      · trivial
  | indirect labels head children op hop hs ih =>
      intro t t' instrs hrun m hm
      obtain ⟨_, _, _, -, hoperands, -⟩ := (compileExpr_indirect_eq_ok hop hs).1 hrun
      rw [linear_indirect hop hs, List.mem_append, List.mem_singleton] at hm
      rcases hm with hm | rfl
      · exact Mark.checked_linearAll ih hoperands m hm
      · exact Mark.checked_instr (fun hplain => hplain.2 hs) _ _
  | plain labels head children op hop hs ih =>
      intro t t' instrs hrun m hm
      obtain ⟨_, imm, hoperands, himm, -⟩ := (compileExpr_plain_eq_ok hop hs).1 hrun
      rw [linear_plain hop hs, List.mem_append, List.mem_singleton] at hm
      rcases hm with hm | rfl
      · exact Mark.checked_linearAll ih hoperands m hm
      · exact fun _ => ⟨imm, himm⟩

/-! ## Constructs and branches -/

namespace Head

/-- A head without what compiling does not look at: a construct keeps its
label only, and a branch nothing. -/
def unargued (head : Head) : Head :=
  if head.isBranch then .plain head.instr head.span
  else if (Opcode.ofName? head.instr).any (·.shape = .structured) then { head with params := [] }
  else head

@[simp] theorem instr_unargued (head : Head) : head.unargued.instr = head.instr := by
  unfold unargued
  split
  · rfl
  · split <;> rfl

@[simp] theorem span_unargued (head : Head) : head.unargued.span = head.span := by
  unfold unargued
  split
  · rfl
  · split <;> rfl

variable {head : Head} {op : Opcode}

theorem label?_unargued (h : Opcode.ofName? head.instr = some op) :
    head.unargued.label? = head.label? := by
  rw [unargued, Expr.isBranch_eq_false h, if_neg Bool.false_ne_true]
  split <;> rfl

/-- Only structured instructions and branches lose what is written on them.
-/
theorem unargued_of_ne (h : Opcode.ofName? head.instr = some op) (hs : op.shape ≠ .structured) :
    head.unargued = head := by
  simp [unargued, Expr.isBranch_eq_false h, h, hs]

end Head

mutual

/-- A tree without the arguments of constructs and branches. Signatures
stay as they are. -/
def Expr.unargued : Expr → Expr
  | .node head children =>
    if (Expr.node head children).isSignature then .node head children
    else .node head.unargued (unarguedAll children)
  | e => e

def Expr.unarguedAll : List Expr → List Expr
  | [] => []
  | e :: es => e.unargued :: unarguedAll es

end

namespace Expr

theorem unarguedAll_eq (es : List Expr) : unarguedAll es = es.map unargued := by
  induction es with
  | nil => rfl
  | cons e es ih => rw [unarguedAll, ih, List.map_cons]

theorem unargued_of_isSignature {e : Expr} (h : e.isSignature = true) : e.unargued = e := by
  cases e with
  | ref => rfl
  | data => rfl
  | node head children => rw [unargued, if_pos h]

/-- A form that is no signature loses its arguments, and so do its
children. -/
theorem unargued_node {head : Head} {children : List Expr}
    (h : (Expr.node head children).isSignature = false) :
    (Expr.node head children).unargued = .node head.unargued (children.map unargued) := by
  rw [unargued, h, if_neg Bool.false_ne_true, unarguedAll_eq]

@[simp] theorem isNode_unargued (e : Expr) (name : String) :
    e.unargued.isNode name = e.isNode name := by
  cases e with
  | ref => rfl
  | data => rfl
  | node head children =>
      cases h : (Expr.node head children).isSignature with
      | true => rw [unargued_of_isSignature h]
      | false => simp [unargued_node h, isNode]

@[simp] theorem isSignature_unargued (e : Expr) : e.unargued.isSignature = e.isSignature := by
  simp [isSignature]

/-- An instruction is no signature, so its arguments may go. -/
theorem unargued_instr {head : Head} {op : Opcode} (h : Opcode.ofName? head.instr = some op)
    (children : List Expr) :
    (Expr.node head children).unargued = .node head.unargued (children.map unargued) :=
  unargued_node (IsInstr.isSignature_eq_false ⟨⟨head, children⟩, op, rfl, h⟩)

end Expr

namespace Node

variable (head head' : Head) (children : List Expr)

/-- Dropping arguments commutes with every selection that does not look at
them. -/
theorem filter_map_unargued (keep : Expr → Bool) (hkeep : ∀ e, keep e.unargued = keep e) :
    (children.map Expr.unargued).filter keep = (children.filter keep).map Expr.unargued := by
  rw [List.filter_map]
  congr 2
  funext e
  exact hkeep e

theorem body_unargued : body ⟨head', children.map Expr.unargued⟩ =
    (body ⟨head, children⟩).map Expr.unargued :=
  filter_map_unargued children _ (by simp)

theorem condition_unargued : condition ⟨head', children.map Expr.unargued⟩ =
    (condition ⟨head, children⟩).map Expr.unargued :=
  filter_map_unargued children _ (by simp [isCondition])

/-- Signatures keep their arguments, so that of a construct stays. -/
theorem signature_unargued : signature ⟨head', children.map Expr.unargued⟩ =
    signature ⟨head, children⟩ := by
  rw [signature, signature, filter_map_unargued children _ Expr.isSignature_unargued]
  refine (List.map_congr_left fun e he => ?_).trans (List.map_id _)
  exact Expr.unargued_of_isSignature (List.mem_filter.1 he).2

theorem find?_map_unargued (name : String) : (children.map Expr.unargued).find? (·.isNode name) =
    (children.find? (·.isNode name)).map Expr.unargued := by
  rw [List.find?_map]
  congr 2
  funext e
  exact e.isNode_unargued name

theorem hasChild_unargued (name : String) :
    hasChild ⟨head', children.map Expr.unargued⟩ name = hasChild ⟨head, children⟩ name := by
  have hisSome : ∀ n : Node, n.hasChild name = (n.children.find? (·.isNode name)).isSome := by
    intro n
    rw [hasChild, child?_eq]
    cases hfind : n.children.find? (·.isNode name) with
    | none => rfl
    | some e =>
        have hnode := List.find?_some hfind
        cases e with
        | node => rfl
        | ref | data => cases hnode
  rw [hisSome, hisSome, find?_map_unargued, Option.isSome_map]

/-- The children of a branch are found as before. -/
theorem branch_unargued {name : String} (h : name = "then" ∨ name = "else") :
    branch ⟨head', children.map Expr.unargued⟩ name =
      (branch ⟨head, children⟩ name).map Expr.unargued := by
  rw [branch, branch, child?_eq, child?_eq, find?_map_unargued]
  cases hfind : children.find? (·.isNode name) with
  | none => rfl
  | some e =>
      have hnode := List.find?_some hfind
      cases e with
      | ref | data => cases hnode
      | node inside es =>
          have hname : inside.instr = name := by simpa [Expr.isNode] using hnode
          have hsig : (Expr.node inside es).isSignature = false := by
            rcases h with rfl | rfl <;> simp [Expr.isSignature, Expr.isNode, hname]
          rw [Option.map_some, Expr.unargued_node hsig]
          rfl

end Node

/-- Trees side by side compile alike if each of them does. -/
theorem compileAll_map_unargued [HexReader] (env : Env) {es : List Expr}
    (h : ∀ e ∈ es, compileExpr env e.unargued = compileExpr env e) :
    compileAll env (es.map Expr.unargued) = compileAll env es := by
  induction es with
  | nil => rfl
  | cons e es ih =>
      rw [List.map_cons, compileAll_cons, compileAll_cons, h e List.mem_cons_self,
        ih fun c hc => h c (List.mem_cons_of_mem e hc)]

/-- **What is written on a construct besides its label, or on a branch, is
not looked at**, whatever it is. -/
theorem compileExpr_unargued [HexReader] (names : Names) (locals : Locals) (labels : Labels)
    (e : Expr) :
    compileExpr ⟨names, locals, labels⟩ e.unargued = compileExpr ⟨names, locals, labels⟩ e := by
  induction labels, e using Expr.form_induction with
  | ref labels name span => rfl
  | data labels bytes span => rfl
  | stray labels head children hop =>
      cases hsig : (Expr.node head children).isSignature with
      | true => rw [Expr.unargued_of_isSignature hsig]
      | false =>
          rw [Expr.unargued_node hsig, compileExpr, compileExpr, Head.instr_unargued, hop]
          simp only [notAnInstruction, Head.instr_unargued, Head.span_unargued]
  | block labels head children op hop hs hc ih =>
      have hop' : Opcode.ofName? head.unargued.instr = some op := by rwa [Head.instr_unargued]
      rw [Expr.unargued_instr hop, compileExpr_block hop' hs hc, compileExpr_block hop hs hc,
        Node.body_unargued head, Head.label?_unargued hop,
        compileAll_map_unargued (.enter ⟨names, locals, labels⟩ head.label?) ih]
      simp only [Signature.ofNode_congr (Node.signature_unargued head _ children)]
  | conditional labels head children hop ihc iht ihe =>
      have hop' : Opcode.ofName? head.unargued.instr = some .conditional := by
        rwa [Head.instr_unargued]
      rw [Expr.unargued_instr hop, compileExpr_conditional hop', compileExpr_conditional hop,
        Node.condition_unargued head, Node.branch_unargued head _ _ (.inl rfl),
        Node.branch_unargued head _ _ (.inr rfl), Node.hasChild_unargued head,
        Node.hasChild_unargued head, Head.label?_unargued hop, Head.span_unargued,
        compileAll_map_unargued _ ihc,
        compileAll_map_unargued (.enter ⟨names, locals, labels⟩ head.label?) iht,
        compileAll_map_unargued (.enter ⟨names, locals, labels⟩ head.label?) ihe]
      simp only [Signature.ofNode_congr (Node.signature_unargued head _ children)]
  | indirect labels head children op hop hs ih =>
      rw [Expr.unargued_instr hop, Head.unargued_of_ne hop (by rw [hs]; decide),
        compileExpr_indirect hop hs, compileExpr_indirect hop hs, Node.body_unargued head,
        compileAll_map_unargued _ ih,
        callType_congr (n := ⟨head, children⟩) (Node.signature_unargued head head children)]
  | plain labels head children op hop hs ih =>
      rw [Expr.unargued_instr hop, Head.unargued_of_ne hop hs.1, compileExpr_plain hop hs,
        compileExpr_plain hop hs, compileAll_map_unargued _ ih]

/-! ## Accounting for a tree -/

section compile

variable {names : Names} {locals : Locals} {labels : Labels} {e : Expr} {t t' : TypeTable}
  {instrs : List Instr}

/-- The marks of a tree that compiles are its instructions. -/
theorem mapM_linear [HexReader] (h : compileExpr ⟨names, locals, labels⟩ e t = .ok instrs t') :
    (e.linear labels).mapM (Mark.instr? names locals t') = some instrs :=
  (compileExpr_yields names locals labels e t t' instrs h).2 t' (List.prefix_refl _)

/-- Every form of a tree that compiles is an instruction, or is passed
over. -/
theorem countP_of_compileExpr [HexReader]
    (h : compileExpr ⟨names, locals, labels⟩ e t = .ok instrs t') :
    instrs.countP Instr.isOp + e.passedOver labels = e.formCount := by
  have hmarks := mapM_linear h
  rw [countP_isOp hmarks, Expr.passedOver, ← Mark.weightAll_eq,
    Expr.weightAll_linear labels e (stray_not_mem hmarks)]

/-- The instruction at a mark carries the arguments of its form. -/
theorem carries_of_mark [HexReader] (h : compileExpr ⟨names, locals, labels⟩ e t = .ok instrs t')
    {k : Nat} {op : Opcode} {n : Node} {around : Labels}
    (hk : (e.linear labels)[k]? = some (.instr op n around)) :
    ∃ imm, instrs[k]? = some (.op op imm) ∧ (op.shape ≠ .structured → ∀ p ∈ n.arguments,
      imm.Carries ⟨names, locals, around⟩ op.shape p ∨ Overridden p n.arguments) := by
  obtain ⟨i, hi, hget⟩ := exists_of_getElem?_mapM (mapM_linear h) hk
  obtain ⟨imm, himm, rfl⟩ := instr?_instr.1 hi
  refine ⟨imm, hget, fun hs p hp => ?_⟩
  by_cases hindirect : op.shape = .indirect
  · rw [hindirect] at himm ⊢
    exact .inl (carries_of_indirect ⟨names, locals, around⟩ himm hp)
  · have hplain : op.shape.IsPlain := ⟨hs, hindirect⟩
    obtain ⟨imm', himm'⟩ :=
      Expr.checked_of_compileExpr names locals labels e t t' instrs h _ (List.mem_of_getElem? hk) hplain
    obtain rfl : imm' = imm :=
      Option.some.inj ((immediate_eq_ok hplain himm' t' n.children).symm.trans himm)
    exact carries_of_immediate himm' hp

end compile

/-- **Where the forms and arguments of a tree go.** The bytes of a tree
that compiles read back as its instructions. There is one for every
instruction form, but for the forms inside repeated branches. The
instruction of a form stands where the linear form has it and, unless the
form is a construct, carries every argument that is not overridden. What
is written on a construct besides its label, or on a branch, changes
nothing. -/
theorem forms_and_arguments_accounted [HexReader] {names : Names} {locals : Locals}
    {labels : Labels} {e : Expr} {t t' : TypeTable} {instrs : List Instr}
    (h : compileExpr ⟨names, locals, labels⟩ e t = .ok instrs t') :
    (Reader.instr .any).many (Instr.encodeAll instrs) = some instrs ∧
      instrs.countP Instr.isOp + e.passedOver labels = e.formCount ∧
      (∀ (k : Nat) op n around, (e.linear labels)[k]? = some (.instr op n around) →
        ∃ imm, instrs[k]? = some (.op op imm) ∧ (op.shape ≠ .structured → ∀ p ∈ n.arguments,
          imm.Carries ⟨names, locals, around⟩ op.shape p ∨ Overridden p n.arguments)) ∧
      compileExpr ⟨names, locals, labels⟩ e.unargued t = .ok instrs t' := by
  refine ⟨many_of_compileAll (compileAll_singleton h), countP_of_compileExpr h, ?_, ?_⟩
  · exact fun k op n around hk => carries_of_mark h hk
  · rwa [compileExpr_unargued]

/-- An argument on a conditional and one on a branch, an offset given
twice, and a second `then`. -/
def overfull : Expr :=
  let form (instr : String) (args : List Argument) (children : List Expr) : Expr :=
    .node ⟨instr, none, args.map (⟨·, .zero⟩), .zero⟩ children
  let first := form "local.get" [.number "0"] []
  let load := form "i32.load" [.keyword .offset (some "4"), .keyword .offset (some "8")] [first]
  form "if" [.number "7"] [first, form "then" [.number "9"] [form "drop" [] [load]],
    form "then" [] [form "nop" [] []]]

def overfullCode : List Instr :=
  [.op ⟨"local.get", 0x20, .local⟩ (.index 0), .op .conditional (.block .empty),
    .op ⟨"local.get", 0x20, .local⟩ (.index 0), .op ⟨"i32.load", 0x28, .access 2⟩ (.access 2 8),
    .op ⟨"drop", 0x1A, .none⟩ .none, .close]

theorem forms_and_arguments_accounted_overfull :
    compileExpr ⟨.empty, [], []⟩ overfull .empty = .ok overfullCode .empty ∧
      overfullCode.countP Instr.isOp + overfull.passedOver [] = overfull.formCount ∧
      compileExpr ⟨.empty, [], []⟩ overfull.unargued .empty = .ok overfullCode .empty := by
  have h : compileExpr ⟨.empty, [], []⟩ overfull .empty = .ok overfullCode .empty := rfl
  have haccount := forms_and_arguments_accounted h
  exact ⟨h, haccount.2.1, haccount.2.2.2⟩

/-- **Forms and arguments are dropped without an error**: a tree of six
forms compiles to five instructions, and none of them carries the argument
of the conditional. -/
theorem overfull_loses :
    compileExpr ⟨.empty, [], []⟩ overfull .empty = .ok overfullCode .empty ∧
      (Reader.instr .any).many (Instr.encodeAll overfullCode) = some overfullCode ∧
      overfullCode.countP Instr.isOp = 5 ∧ overfull.formCount = 6 ∧
      ∀ op imm, .op op imm ∈ overfullCode →
        ¬ imm.Carries ⟨.empty, [], []⟩ op.shape ⟨.number "7", .zero⟩ := by
  have h : compileExpr ⟨.empty, [], []⟩ overfull .empty = .ok overfullCode .empty := rfl
  have hseven : ∀ lookup, Param.index? lookup ⟨.number "7", .zero⟩ = some 7 := fun _ => rfl
  refine ⟨h, many_of_compileAll (compileAll_singleton h), rfl, by decide +kernel, ?_⟩
  intro op imm hmem
  simp only [overfullCode, List.mem_cons, Instr.op.injEq, reduceCtorEq, List.not_mem_nil, or_false]
    at hmem
  rcases hmem with ⟨rfl, rfl⟩ | ⟨rfl, rfl⟩ | ⟨rfl, rfl⟩ | ⟨rfl, rfl⟩ | ⟨rfl, rfl⟩
  · simp [Immediate.Carries, hseven]
  · exact not_false
  · simp [Immediate.Carries, hseven]
  · simp [Immediate.Carries, Param.valueOf?]
  · exact not_false

end WasmText
