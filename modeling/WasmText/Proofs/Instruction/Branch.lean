import WasmText.Proofs.Instruction.Decode
import WasmText.Proofs.Instruction.Enclosure
import WasmText.Proofs.Instruction.Evaluation
import WasmText.Proofs.Instruction.Omission
/-!
# Branches

Where a branch leads. The number that a named target is compiled to counts
the constructs open at the branch, and the construct it arrives at is the
innermost one of that name (`branch_leads_to_innermost`). A name that no
construct around the branch carries is an error: to see that it is this
error and no other, a tree is compared with itself inside more constructs,
where the name is known. A branch that compiling passes over is not looked
at, whatever its name (`hiddenBranch_accepted`).
-/

namespace WasmText

/-- The instructions that leave a construct. -/
def Opcode.IsBranch (op : Opcode) : Prop := op.name ∈ ["br", "br_if", "br_table"]

/-- The branches are the instructions that take labels. -/
theorem Opcode.isBranch_iff {op : Opcode} (h : op ∈ all) :
    op.IsBranch ↔ op.shape = .label ∨ op.shape = .labels := by
  have hall : ∀ op ∈ all, op.name ∈ ["br", "br_if", "br_table"] ↔
      op.shape = .label ∨ op.shape = .labels := by
    decide +kernel
  exact hall op h

/-- The label depths that a branch carries, in the order they are written. -/
def Immediate.targets : Immediate → List Nat
  | index depth => [depth]
  | labels targets default => targets ++ [default]
  | _ => []

/-- Whether the innermost construct of a name is so many constructs out. -/
def Labels.LeadsTo (labels : Labels) (depth : Nat) (name : String) : Prop :=
  labels[depth]? = some (some name) ∧ ∀ nearer < depth, labels[nearer]? ≠ some (some name)

/-- The depth of a name leads to the innermost label with it. -/
theorem Labels.leadsTo_of_depth? {labels : Labels} {name : String} {d : Nat}
    (h : labels.depth? name = some d) : labels.LeadsTo d name := by
  obtain ⟨hlt, hd, hfirst⟩ := List.idxOf?_eq_some_iff.1 h
  refine ⟨List.getElem?_eq_some_iff.2 ⟨hlt, hd⟩, fun j hj hname => ?_⟩
  obtain ⟨hlt', hj'⟩ := List.getElem?_eq_some_iff.1 hname
  exact hfirst j hj hj'

/-- The targets of a branch are the depths of its arguments. -/
theorem Mark.operand?_targets [HexReader] {names : Names} {locals : Locals} {table : TypeTable}
    {labels : Labels} {n : Node} {shape : Shape} {imm : Immediate}
    (hs : shape = .label ∨ shape = .labels)
    (h : operand? names locals table labels n shape = some imm) :
    n.arguments.mapM (·.index? labels.depth?) = some imm.targets := by
  rcases hs with rfl | rfl
  · rcases hargs : n.arguments with _ | ⟨p, _ | ⟨q, ps⟩⟩
    · simp [operand?, hargs] at h
    · simp only [operand?, hargs, Option.map_eq_some_iff] at h
      obtain ⟨d, hd, rfl⟩ := h
      exact mapM_cons_eq_some.2 ⟨d, [], hd, rfl, rfl⟩
    · simp [operand?, hargs] at h
  · obtain ⟨depths, hdepths, h⟩ := Option.bind_eq_some_iff.1 h
    obtain ⟨last, hlast, h⟩ := Option.bind_eq_some_iff.1 h
    obtain rfl := Option.some.inj h
    rw [hdepths, Immediate.targets, List.dropLast_append_getLast? last hlast]

/-! ## Missing labels -/

/-- Whether marks hold a branch to a name that no construct around it
carries. -/
def Missing (marks : List Mark) (name : String) (span : Span) : Prop :=
  ∃ op n around, .instr op n around ∈ marks ∧ op.IsBranch ∧ ⟨.label name, span⟩ ∈ n.arguments ∧
    some name ∉ around

/-- Whether a computation gives what another one gives, or else fails on a
missing label. -/
def AgreesUnless {α : Type} (missing : String → Span → Prop) (x y : Except CompileError α) : Prop :=
  ∀ a, x = .ok a → y = .ok a ∨
    ∃ name span, missing name span ∧ y = .error (.unresolved .label name span)

namespace AgreesUnless

variable {α β : Type} {missing : String → Span → Prop}

theorem refl (x : Except CompileError α) : AgreesUnless missing x x := fun _ h => .inl h

/-- Results agree through a sequence of steps if they do at each. -/
theorem bind {x y : Except CompileError α} {f g : α → Except CompileError β}
    (h : AgreesUnless missing x y)
    (hf : ∀ a, x = .ok a → AgreesUnless missing (f a) (g a)) :
    AgreesUnless missing (x >>= f) (y >>= g) := by
  intro b hb
  obtain ⟨a, ha, hb⟩ := bind_eq_ok.1 hb
  obtain rfl | ⟨name, span, hmissing, rfl⟩ := h a ha
  · exact hf a ha b hb
  · exact .inr ⟨name, span, hmissing, rfl⟩

/-- Results agree along a list if they do for each of its items. -/
theorem mapM {f g : α → Except CompileError β} {as : List α}
    (h : ∀ a ∈ as, AgreesUnless missing (f a) (g a)) :
    AgreesUnless missing (as.mapM f) (as.mapM g) := by
  induction as with
  | nil => exact refl _
  | cons a as ih =>
      rw [List.mapM_cons, List.mapM_cons]
      exact bind (h a List.mem_cons_self) fun b _ =>
        bind (ih fun c hc => h c (List.mem_cons_of_mem a hc)) fun bs _ => refl _

end AgreesUnless

variable {names : Names} {locals : Locals} {missing : String → Span → Prop}

/-- Taking labels away from the outside changes no depth but that of a
missing label. -/
theorem branchDepth_agrees (labels extra : Labels) {p : Param}
    (hmissing : ∀ name, p.arg = .label name → some name ∉ labels → missing name p.span) :
    AgreesUnless missing (Env.branchDepth ⟨names, locals, labels ++ extra⟩ p)
      (Env.branchDepth ⟨names, locals, labels⟩ p) := by
  obtain ⟨arg, span⟩ := p
  cases arg with
  | label name =>
      intro d hd
      have hd : (labels ++ extra).depth? name = some d := resolved_eq_ok.1 hd
      cases hin : labels.depth? name with
      | none =>
          refine .inr ⟨name, span, hmissing name rfl ?_, by simp [Env.branchDepth, hin, resolved]⟩
          exact List.idxOf?_eq_none_iff.1 hin
      | some d' =>
          have hd' : (labels ++ extra).depth? name = some d' :=
            idxOf?_of_isPrefix (List.prefix_append labels extra) hin
          obtain rfl : d' = d := Option.some.inj (hd'.symm.trans hd)
          exact .inl (by simp [Env.branchDepth, hin, resolved])
  | number text => exact .refl _
  | hex text => exact .refl _
  | str bytes => exact .refl _
  | keyword key value => exact .refl _

/-- Labels further out matter only to a branch whose label is missing. -/
theorem immediate_agrees [HexReader] (labels extra : Labels) {shape : Shape} {head : Head}
    (hmissing : shape = .label ∨ shape = .labels → ∀ name span,
      ⟨.label name, span⟩ ∈ head.arguments → some name ∉ labels → missing name span) :
    AgreesUnless missing (immediate ⟨names, locals, labels ++ extra⟩ shape head)
      (immediate ⟨names, locals, labels⟩ shape head) := by
  cases shape with
  | label =>
      refine .bind (.refl _) fun p hp => .bind (branchDepth_agrees labels extra ?_) fun _ _ => .refl _
      intro name harg
      refine hmissing (.inl rfl) name p.span ?_
      rw [soleArgument_eq_ok.1 hp, ← harg]
      exact List.mem_singleton_self p
  | labels =>
      refine .bind (.mapM fun p hp => branchDepth_agrees labels extra ?_) fun _ _ => .refl _
      intro name harg
      refine hmissing (.inr rfl) name p.span ?_
      rw [← harg]
      exact hp
  | none => exact .refl _
  | structured => exact .refl _
  | function => exact .refl _
  | indirect => exact .refl _
  | «local» => exact .refl _
  | global => exact .refl _
  | access natural => exact .refl _
  | memory => exact .refl _
  | i32 => exact .refl _
  | i64 => exact .refl _
  | f32 => exact .refl _
  | f64 => exact .refl _

namespace Typing

/-- Whether a computation along a type table gives what another one gives,
or else fails on a missing label. -/
def AgreesUnless {α : Type} (missing : String → Span → Prop) (x y : Typing α) : Prop :=
  ∀ t t' a, x t = .ok a t' → y t = .ok a t' ∨
    ∃ name span t'', missing name span ∧ y t = .error (.unresolved .label name span) t''

namespace AgreesUnless

variable {α β : Type}

theorem refl (x : Typing α) : AgreesUnless missing x x := fun _ _ _ h => .inl h

/-- Results agree unless less is missing. -/
theorem mono {missing' : String → Span → Prop} {x y : Typing α} (h : AgreesUnless missing x y)
    (himp : ∀ name span, missing name span → missing' name span) : AgreesUnless missing' x y := by
  intro t t' a ha
  obtain hy | ⟨name, span, t'', hmissing, hy⟩ := h t t' a ha
  · exact .inl hy
  · exact .inr ⟨name, span, t'', himp name span hmissing, hy⟩

/-- Results agree through a sequence of steps if they do at each. -/
theorem bind {x y : Typing α} {f g : α → Typing β} (h : AgreesUnless missing x y)
    (hf : ∀ a, AgreesUnless missing (f a) (g a)) :
    AgreesUnless missing (x >>= f) (y >>= g) := by
  intro t t' b hb
  obtain ⟨a, t₁, ha, hb⟩ := bind_eq_ok.1 hb
  obtain hy | ⟨name, span, t'', hmissing, hy⟩ := h t t₁ a ha
  · rw [bind_of_ok hy]
    exact hf a t₁ t' b hb
  · exact .inr ⟨name, span, t'', hmissing, bind_of_error hy⟩

theorem check {x y : Except CompileError α} (h : WasmText.AgreesUnless missing x y) :
    AgreesUnless missing (check x) (check y) := by
  intro t t' a ha
  obtain ⟨rfl, rfl⟩ := check_eq_ok.1 ha
  obtain rfl | ⟨name, span, hmissing, rfl⟩ := h a rfl
  · exact .inl rfl
  · exact .inr ⟨name, span, t, hmissing, rfl⟩

end AgreesUnless

end Typing

theorem Missing.mono {marks marks' : List Mark} {name : String} {span : Span}
    (hsub : marks ⊆ marks') (h : Missing marks name span) : Missing marks' name span := by
  obtain ⟨op, n, around, hmem, hrest⟩ := h
  exact ⟨op, n, around, hsub hmem, hrest⟩

/-- Trees side by side agree if each of them does. -/
theorem compileAll_agrees [HexReader] (extra : Labels) {labels : Labels} {es : List Expr}
    (h : ∀ e ∈ es, Typing.AgreesUnless (Missing (e.linear labels))
      (compileExpr ⟨names, locals, labels ++ extra⟩ e) (compileExpr ⟨names, locals, labels⟩ e)) :
    Typing.AgreesUnless (Missing (Expr.linearAll labels es))
      (compileAll ⟨names, locals, labels ++ extra⟩ es) (compileAll ⟨names, locals, labels⟩ es) := by
  induction es with
  | nil =>
      rw [compileAll_nil, compileAll_nil]
      exact .refl _
  | cons e es ih =>
      have hrest := ih fun c hc => h c (List.mem_cons_of_mem e hc)
      rw [compileAll_cons, compileAll_cons]
      refine .bind ((h e List.mem_cons_self).mono fun _ _ => Missing.mono ?_) fun _ =>
        .bind (hrest.mono fun _ _ => Missing.mono ?_) fun _ => .refl _
      · exact List.subset_append_left _ _
      · exact List.subset_append_right _ _

/-- **Taking labels away from the outside** changes nothing about a tree
but that it may come to fail on a label that is then missing. -/
theorem compileExpr_agrees [HexReader] (names : Names) (locals : Locals) (extra labels : Labels)
    (e : Expr) :
    Typing.AgreesUnless (Missing (e.linear labels))
      (compileExpr ⟨names, locals, labels ++ extra⟩ e) (compileExpr ⟨names, locals, labels⟩ e) := by
  induction labels, e using Expr.form_induction with
  | ref labels name span =>
      rw [compileExpr, compileExpr]
      exact .refl _
  | data labels bytes span =>
      rw [compileExpr, compileExpr]
      exact .refl _
  | stray labels head children hop =>
      rw [compileExpr, compileExpr, hop]
      exact .refl _
  | block labels head children op hop hs hc ih =>
      rw [compileExpr_block hop hs hc, compileExpr_block hop hs hc, Expr.linear_block hop hs hc]
      refine .bind (.refl _) fun sig => .bind (.refl _) fun b => .bind ?_ fun _ => .refl _
      refine (compileAll_agrees extra ih).mono fun _ _ => Missing.mono fun m hm => ?_
      simp [hm]
  | conditional labels head children hop ihc iht ihe =>
      rw [compileExpr_conditional hop, compileExpr_conditional hop, Expr.linear_conditional hop]
      refine .bind (.refl _) fun sig => .bind ?_ fun condition => ?_
      · refine (compileAll_agrees extra ihc).mono fun _ _ => Missing.mono fun m hm => ?_
        simp [hm]
      by_cases hthen : Node.hasChild ⟨head, children⟩ "then" = true
      · rw [if_pos hthen, if_pos hthen]
        refine .bind (.refl _) fun b => .bind ?_ fun first => ?_
        · refine (compileAll_agrees extra iht).mono fun _ _ => Missing.mono fun m hm => ?_
          simp [hm]
        by_cases helse : Node.hasChild ⟨head, children⟩ "else" = true
        · rw [if_pos helse, if_pos helse, if_pos helse]
          refine .bind ?_ fun _ => .refl _
          refine (compileAll_agrees extra ihe).mono fun _ _ => Missing.mono fun m hm => ?_
          simp [hm]
        · rw [if_neg helse, if_neg helse, if_neg helse]
          exact .refl _
      · rw [if_neg hthen, if_neg hthen]
        exact .refl _
  | indirect labels head children op hop hs ih =>
      rw [compileExpr_indirect hop hs, compileExpr_indirect hop hs, Expr.linear_indirect hop hs]
      refine .bind (.refl _) fun type => .bind ?_ fun _ => .refl _
      refine (compileAll_agrees extra ih).mono fun _ _ => Missing.mono fun m hm => ?_
      simp [hm]
  | plain labels head children op hop hs ih =>
      rw [compileExpr_plain hop hs, compileExpr_plain hop hs, Expr.linear_plain hop hs]
      refine .bind ?_ fun operands => .bind (.check (immediate_agrees labels extra ?_)) fun _ => .refl _
      · refine (compileAll_agrees extra ih).mono fun _ _ => Missing.mono fun m hm => ?_
        simp [hm]
      · -- only a branch looks its arguments up among the labels
        intro hbranch name span harg habsent
        have hop := (Opcode.isBranch_iff (Opcode.mem_all_of_ofName? hop)).2 hbranch
        exact ⟨op, ⟨head, children⟩, labels, by simp, hop, harg, habsent⟩

/-! ## Where branches lead -/

section Resolved

variable {table : TypeTable} {labels labels' : Labels} {marks : List Mark} {code : List Instr}

/-- **A branch that resolves leads to the innermost construct** of each
name it is written with. -/
theorem leadsTo_of_resolved [HexReader] (hs : Scoped labels marks labels')
    (h : marks.mapM (Mark.instr? names locals table) = some code) {k : Nat} {op : Opcode} {n : Node}
    {around : Labels} (hk : marks[k]? = some (.instr op n around)) (hbranch : op.IsBranch) :
    ∃ imm, code[k]? = some (.op op imm) ∧
      ∀ (j : Nat) (p : Param) (name : String), n.arguments[j]? = some p → p.arg = .label name →
        ∃ depth, imm.targets[j]? = some depth ∧ around.LeadsTo depth name := by
  have hmem := Opcode.mem_all_of_ofName? (hs.at_mark hk).1
  obtain ⟨i, hi, hcode⟩ := exists_of_getElem?_mapM h hk
  obtain ⟨imm, himm, rfl⟩ := instr?_instr.1 hi
  refine ⟨imm, hcode, fun j p name hp harg => ?_⟩
  have htargets := Mark.operand?_targets ((Opcode.isBranch_iff hmem).1 hbranch) himm
  obtain ⟨depth, hdepth, hj⟩ := exists_of_getElem?_mapM htargets hp
  rw [Param.index?, harg] at hdepth
  exact ⟨depth, hj, Labels.leadsTo_of_depth? hdepth⟩

/-- Where all marks resolve, no label is missing. -/
theorem not_missing_of_resolved [HexReader] (hs : Scoped labels marks labels')
    (h : marks.mapM (Mark.instr? names locals table) = some code) (name : String) (span : Span) :
    ¬ Missing marks name span := by
  rintro ⟨op, n, around, hmem, hbranch, harg, habsent⟩
  obtain ⟨k, hk⟩ := List.getElem?_of_mem hmem
  obtain ⟨j, hj⟩ := List.getElem?_of_mem harg
  obtain ⟨imm, -, htargets⟩ := leadsTo_of_resolved hs h hk hbranch
  obtain ⟨depth, -, hlead, -⟩ := htargets j _ name hj rfl
  exact habsent (List.mem_of_getElem? hlead)

end Resolved

/-- **A branch leads to the innermost construct of its name.** When a tree
is accepted, the stack of labels is what it was, its bytes read back as its
instructions, and these leave nothing open. Every instruction form of the
tree has a mark at the place of its instruction, unless it is passed over.
The labels at a mark are the names of the constructs that the instructions
before it leave open, innermost first, and then the labels around the tree.
A branch to a name carries the first place of that name among them. A name
that is not among them makes the tree fail, and where the tree would be
accepted inside more constructs it fails on such a name. -/
theorem branch_leads_to_innermost [HexReader] (names : Names) (locals : Locals) (labels : Labels)
    (e : Expr) (t : TypeTable) :
    (∀ instrs s, evaluate names locals e ⟨t, labels⟩ = .ok instrs s →
      s.labels = labels ∧
      (Reader.instr .any).many (Instr.encodeAll instrs) = some instrs ∧
      (e.linear labels).mapM (Mark.instr? names locals s.table) = some instrs ∧
      openSites instrs = [] ∧
      (∀ n op, e.Contains n → Opcode.ofName? n.instr = some op → e.Accounts labels n) ∧
      ∀ k op n around, (e.linear labels)[k]? = some (.instr op n around) →
        around = (openSites (instrs.take k)).map (siteLabel (e.linear labels)) ++ labels ∧
        (op.IsBranch → ∃ imm, instrs[k]? = some (.op op imm) ∧
          ∀ (j : Nat) (p : Param) (name : String), n.arguments[j]? = some p →
            p.arg = .label name →
            ∃ depth, imm.targets[j]? = some depth ∧ Labels.LeadsTo around depth name)) ∧
    (∀ name span, Missing (e.linear labels) name span →
      (∀ instrs s, evaluate names locals e ⟨t, labels⟩ ≠ .ok instrs s) ∧
      ∀ extra instrs s, evaluate names locals e ⟨t, labels ++ extra⟩ = .ok instrs s →
        ∃ name' span' s', Missing (e.linear labels) name' span' ∧
          evaluate names locals e ⟨t, labels⟩ = .error (.unresolved .label name' span') s') := by
  have hscoped := Scoped.linear labels e
  have hresolves : ∀ {instrs t'}, compileExpr ⟨names, locals, labels⟩ e t = .ok instrs t' →
      (e.linear labels).mapM (Mark.instr? names locals t') = some instrs := fun h =>
    (compileExpr_yields names locals labels e t _ _ h).2 _ (List.prefix_refl _)
  refine ⟨fun instrs s h => ?_, fun name span hmissing => ⟨fun instrs s h => ?_, ?_⟩⟩
  · obtain ⟨hcompile, hstack⟩ := evaluate_eq_ok.1 h
    have hmarks := hresolves hcompile
    have hnested := nested_of_linear labels e instrs hmarks
    refine ⟨hstack, ?_, hmarks, openSites_eq_nil hnested,
      fun n op => Expr.marked_or_passedOver labels e (stray_not_mem hmarks),
      fun k op n around hk => ⟨?_, ?_⟩⟩
    · exact Reader.many_encodeAll
        (fits_of_scoped (.any _ _ _) hscoped hmarks (fun _ _ => nofun) fun _ _ _ _ => nofun)
    · have hle : k ≤ instrs.length := by
        rw [length_of_mapM hmarks]
        exact (List.getElem?_eq_some_iff.1 hk).1.le
      rw [(hscoped.at_mark hk).2, scope_take_eq labels hnested hmarks hle]
    · exact leadsTo_of_resolved hscoped hmarks hk
  · obtain ⟨hcompile, -⟩ := evaluate_eq_ok.1 h
    exact not_missing_of_resolved hscoped (hresolves hcompile) name span hmissing
  · intro extra instrs s houter
    obtain ⟨hcompile, -⟩ := evaluate_eq_ok.1 houter
    obtain h | ⟨name', span', t'', hmissing', h⟩ :=
      compileExpr_agrees names locals extra labels e t s.table instrs hcompile
    · exact absurd hmissing (not_missing_of_resolved hscoped (hresolves h) name span)
    · obtain ⟨stack, -, herror⟩ := exists_evaluate_eq_error h
      exact ⟨name', span', _, hmissing', herror⟩

/-- A branch to any of three constructs, of which two are around it. -/
def threeWayBranch : Node :=
  ⟨⟨"br_table", some ⟨"a", .zero⟩, [⟨.label "b", .zero⟩, ⟨.label "outer", .zero⟩], .zero⟩, []⟩

/-- The loop `b` in the block `a` around `threeWayBranch`. -/
def nestedBranch : Expr :=
  .node ⟨"block", some ⟨"a", .zero⟩, [], .zero⟩
    [.node ⟨"loop", some ⟨"b", .zero⟩, [], .zero⟩ [threeWayBranch.toExpr]]

theorem branch_leads_to_innermost_nested :
    (evaluate .empty [] nestedBranch ⟨.empty, [some "outer"]⟩ =
        .ok [.op ⟨"block", 0x02, .structured⟩ (.block .empty),
          .op ⟨"loop", 0x03, .structured⟩ (.block .empty),
          .op ⟨"br_table", 0x0E, .labels⟩ (.labels [1, 0] 2), .close, .close]
          ⟨.empty, [some "outer"]⟩ ∧
      Labels.LeadsTo [some "b", some "a", some "outer"] 2 "outer") ∧
    ∃ name span s, evaluate .empty [] nestedBranch ⟨.empty, []⟩ =
      .error (.unresolved .label name span) s := by
  have hmark : ∀ labels, (nestedBranch.linear labels)[2]? =
      some (.instr ⟨"br_table", 0x0E, .labels⟩ threeWayBranch
        (some "b" :: some "a" :: labels)) := by
    intro labels
    cbv
  have h : evaluate .empty [] nestedBranch ⟨.empty, [some "outer"]⟩ =
      .ok [.op ⟨"block", 0x02, .structured⟩ (.block .empty),
        .op ⟨"loop", 0x03, .structured⟩ (.block .empty),
        .op ⟨"br_table", 0x0E, .labels⟩ (.labels [1, 0] 2), .close, .close]
        ⟨.empty, [some "outer"]⟩ := rfl
  refine ⟨⟨h, ?_⟩, ?_⟩
  · obtain ⟨-, -, -, -, -, hat⟩ := (branch_leads_to_innermost _ _ _ _ _).1 _ _ h
    obtain ⟨imm, himm, hlead⟩ := (hat 2 _ _ _ (hmark _)).2 (by simp [Opcode.IsBranch])
    obtain rfl : .labels [1, 0] 2 = imm := by simpa using himm
    obtain ⟨depth, hdepth, hlead⟩ := hlead 2 ⟨.label "outer", .zero⟩ "outer" rfl rfl
    obtain rfl : 2 = depth := by simpa [Immediate.targets] using hdepth
    exact hlead
  · have hmissing : Missing (nestedBranch.linear []) "outer" .zero :=
      ⟨_, _, _, List.mem_of_getElem? (hmark []), by simp [Opcode.IsBranch],
        by simp [threeWayBranch, Head.arguments], by simp⟩
    obtain ⟨name, span, s, -, herror⟩ :=
      ((branch_leads_to_innermost _ _ _ _ _).2 "outer" .zero hmissing).2 [some "outer"] _ _ h
    exact ⟨name, span, s, herror⟩

/-- A branch to a construct that is not there. -/
def branchNowhere : Node := ⟨⟨"br", some ⟨"nowhere", .zero⟩, [], .zero⟩, []⟩

/-- A conditional with `branchNowhere` in its second `then`. -/
def hiddenBranch : Expr :=
  .node (.plain "if" .zero)
    [.node ⟨"i32.const", none, [⟨.number "-1", .zero⟩], .zero⟩ [], .node (.plain "then" .zero) [],
      .node (.plain "then" .zero) [branchNowhere.toExpr]]

/-- **A branch to nowhere can go unseen**: in a second `then` it is neither
compiled nor refused. -/
theorem hiddenBranch_accepted :
    evaluate .empty [] hiddenBranch ⟨.empty, []⟩ =
        .ok [.op ⟨"i32.const", 0x41, .i32⟩ (.i32 (-1)),
          .op ⟨"if", 0x04, .structured⟩ (.block .empty), .close] ⟨.empty, []⟩ ∧
      hiddenBranch.Contains branchNowhere ∧
      ⟨.label "nowhere", .zero⟩ ∈ branchNowhere.arguments := by
  refine ⟨rfl, ?_, by simp [branchNowhere, Head.arguments]⟩
  exact .child (.tail _ (.tail _ (.head _))) (.child (.head _) .self)

end WasmText
