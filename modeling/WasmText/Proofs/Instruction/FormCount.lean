import WasmText.Proofs.Instruction.Compile
/-!
# Counting instruction forms

A tree has as many instruction forms as it has forms, but for the branches
of conditionals and the signatures of constructs and indirect calls
(`Expr.formCount`). A form has one mark in the linear form of its tree,
unless it is inside a second `then` or `else` of a conditional: such forms
are counted at the conditional (`Mark.passedOver`). The two counts come to
the same (`Expr.weightAll_linear`).
-/

namespace WasmText

/-! ## Counting forms -/

namespace Head

def isBranch (head : Head) : Bool := head.instr = "then" || head.instr = "else"

/-- Whether a form may have a signature: a construct or an indirect
call. -/
def isSigned (head : Head) : Bool :=
  (Opcode.ofName? head.instr).any fun op => op.shape = .structured || op.shape = .indirect

end Head

mutual

/-- How many instruction forms a tree has: all but branches, and the
signatures of constructs and indirect calls. -/
def Expr.formCount : Expr → Nat
  | .node head children =>
    (if head.isBranch then 0 else 1) +
      formCountWhere (fun e => !(head.isSigned && e.isSignature)) children
  | _ => 0

/-- How many instruction forms there are in those trees that `keep`
picks. -/
def Expr.formCountWhere (keep : Expr → Bool) : List Expr → Nat
  | [] => 0
  | e :: es => (if keep e then e.formCount else 0) + formCountWhere keep es

end

/-- How many instruction forms trees have. -/
def Expr.formCountAll (es : List Expr) : Nat := (es.map Expr.formCount).sum

namespace Node

/-- The branches of a conditional after the first of each name. -/
def repeatedBranches (n : Node) : List Node :=
  (n.childNodes.filter (·.instr = "then")).tail ++ (n.childNodes.filter (·.instr = "else")).tail

/-- How many instruction forms there are in repeated branches. -/
def repeatedForms (n : Node) : Nat :=
  (n.repeatedBranches.map fun b => Expr.formCountAll b.children).sum

end Node

namespace Mark

def isInstr : Mark → Bool
  | instr _ _ _ => true
  | _ => false

/-- How many instruction forms are passed over at a mark. -/
def passedOver : Mark → Nat
  | instr op n _ => if op = .conditional then n.repeatedForms else 0
  | _ => 0

end Mark

/-- How many instruction forms of a tree are passed over. -/
def Expr.passedOver (labels : Labels) (e : Expr) : Nat :=
  ((e.linear labels).map Mark.passedOver).sum

namespace Expr

/-- Counting the forms to keep is counting after the others are gone. -/
theorem formCountWhere_eq (keep : Expr → Bool) (es : List Expr) :
    formCountWhere keep es = formCountAll (es.filter keep) := by
  induction es with
  | nil => rfl
  | cons e es ih =>
      rw [formCountWhere, ih]
      by_cases h : keep e = true
      · rw [if_pos h, List.filter_cons_of_pos h]
        rfl
      · rw [if_neg h, List.filter_cons_of_neg h, Nat.zero_add]

theorem formCountAll_cons (e : Expr) (es : List Expr) :
    formCountAll (e :: es) = e.formCount + formCountAll es := rfl

variable {head : Head} {children : List Expr} {op : Opcode}

/-- A branch is no instruction of its own. -/
theorem ofName?_branch (h : head.isBranch = true) : Opcode.ofName? head.instr = none := by
  have hwords : ∀ word ∈ ["then", "else"], Opcode.ofName? word = none := by decide +kernel
  exact hwords head.instr (by simpa [Head.isBranch] using h)

theorem isBranch_eq_false (h : Opcode.ofName? head.instr = some op) : head.isBranch = false := by
  by_contra hbranch
  cases (ofName?_branch (by simpa using hbranch)).symm.trans h

/-- A branch counts for what is in it. -/
theorem formCount_branch (h : head.isBranch = true) :
    (Expr.node head children).formCount = formCountAll children := by
  have hsigned : head.isSigned = false := by rw [Head.isSigned, ofName?_branch h, Option.any_none]
  rw [formCount, if_pos h, formCountWhere_eq, hsigned, Nat.zero_add]
  simp

/-- A form with a signature counts for itself and its body. -/
theorem formCount_signed (h : Opcode.ofName? head.instr = some op)
    (hs : op.shape = .structured ∨ op.shape = .indirect) :
    (Expr.node head children).formCount = 1 + formCountAll (Node.body ⟨head, children⟩) := by
  have hsigned : head.isSigned = true := by simpa [Head.isSigned, h] using hs
  rw [formCount, isBranch_eq_false h, formCountWhere_eq, hsigned]
  simp [Node.body]

/-- A plain form counts for itself and its operands. -/
theorem formCount_plain (h : Opcode.ofName? head.instr = some op) (hs : op.shape.IsPlain) :
    (Expr.node head children).formCount = 1 + formCountAll children := by
  have hsigned : head.isSigned = false := by simp [Head.isSigned, h, hs.1, hs.2]
  rw [formCount, isBranch_eq_false h, formCountWhere_eq, hsigned]
  simp

end Expr

/-! ## Conditionals -/

/-- What a child of a conditional counts for as a branch of the given
name. -/
def Expr.branchCount (name : String) : Expr → Nat
  | .node head children => if head.instr = name then formCountAll children else 0
  | _ => 0

/-- A child of a conditional belongs to the signature, to the condition or
to the branches of one name. -/
theorem Expr.formCount_child (e : Expr) :
    (if !e.isSignature then e.formCount else 0) =
      (if isCondition e then e.formCount else 0) + e.branchCount "then" + e.branchCount "else" := by
  cases e with
  | ref name span => rfl
  | data bytes span => rfl
  | node head children =>
      by_cases hbranch : head.isBranch = true
      · have hwords : head.instr = "then" ∨ head.instr = "else" := by
          simpa [Head.isBranch] using hbranch
        rw [formCount_branch hbranch]
        rcases hwords with h | h
        · simp [isSignature, isNode, isCondition, branchCount, h]
        · simp [isSignature, isNode, isCondition, branchCount, h]
      · obtain ⟨hthen, helse⟩ : head.instr ≠ "then" ∧ head.instr ≠ "else" := by
          simpa [Head.isBranch] using hbranch
        have hcondition : isCondition (.node head children) =
            !(Expr.node head children).isSignature := by
          rw [isCondition, isNode, isNode, beq_eq_false_iff_ne.2 hthen, beq_eq_false_iff_ne.2 helse,
            Bool.not_false, Bool.and_true, Bool.and_true]
        rw [hcondition, branchCount, branchCount, if_neg hthen, if_neg helse]
        rfl

namespace Node

variable (n : Node)

/-- How many instruction forms there are in the branches of a name. -/
def branchForms (name : String) : Nat :=
  ((n.childNodes.filter (·.instr = name)).map fun b => Expr.formCountAll b.children).sum

/-- The forms in the branches of a name, child by child. -/
theorem branchForms_eq (name : String) :
    n.branchForms name = (n.children.map (Expr.branchCount name)).sum := by
  rw [branchForms, childNodes]
  induction n.children with
  | nil => rfl
  | cons e es ih =>
      rw [List.map_cons, List.sum_cons, ← ih]
      cases e with
      | ref name span => exact (Nat.zero_add _).symm
      | data bytes span => exact (Nat.zero_add _).symm
      | node head children =>
          by_cases h : head.instr = name
          · simp [Expr.node?, Expr.branchCount, h]
          · simp [Expr.node?, Expr.branchCount, h]

/-- The body of a conditional is its condition and all its branches. -/
theorem formCountAll_body : Expr.formCountAll n.body =
    Expr.formCountAll n.condition + n.branchForms "then" + n.branchForms "else" := by
  rw [branchForms_eq, branchForms_eq, body, condition, ← Expr.formCountWhere_eq,
    ← Expr.formCountWhere_eq]
  induction n.children with
  | nil => rfl
  | cons e es ih =>
      have hchild := e.formCount_child
      simp only [Expr.formCountWhere, List.map_cons, List.sum_cons] at ih ⊢
      omega

/-- The first child of a name is the one that is found. -/
theorem child?_eq_head? (name : String) :
    n.child? name = (n.childNodes.filter (·.instr = name)).head? := by
  rw [child?, ← List.head?_filter]
  rfl

/-- The branches of a name are the first of them and the others. -/
theorem branchForms_split (name : String) : n.branchForms name =
    Expr.formCountAll (n.branch name) +
      ((n.childNodes.filter (·.instr = name)).tail.map fun b =>
        Expr.formCountAll b.children).sum := by
  rw [branchForms, branch, child?_eq_head?]
  cases n.childNodes.filter (·.instr = name) with
  | nil => rfl
  | cons b bs => rfl

/-- **The forms of a conditional** are those of its condition and its first
branches, and those that are passed over. -/
theorem formCountAll_conditional : Expr.formCountAll n.body =
    Expr.formCountAll n.condition + Expr.formCountAll (n.branch "then") +
      Expr.formCountAll (n.branch "else") + n.repeatedForms := by
  have hthen := n.branchForms_split "then"
  have helse := n.branchForms_split "else"
  rw [formCountAll_body, repeatedForms, repeatedBranches, List.map_append, List.sum_append]
  omega

end Node

/-! ## Marks -/

/-- What a mark counts for: its own form, and those passed over at it. -/
def Mark.weight (m : Mark) : Nat := (if m.isInstr then 1 else 0) + m.passedOver

/-- What the marks of trees count for. -/
def Mark.weightAll (marks : List Mark) : Nat := (marks.map Mark.weight).sum

namespace Mark

theorem weightAll_cons (m : Mark) (marks : List Mark) :
    weightAll (m :: marks) = m.weight + weightAll marks := rfl

theorem weightAll_append (marks marks' : List Mark) :
    weightAll (marks ++ marks') = weightAll marks + weightAll marks' := by
  simp [weightAll]

theorem weight_instr {op : Opcode} (h : op ≠ .conditional) (n : Node) (labels : Labels) :
    weight (.instr op n labels) = 1 := by
  simp [weight, isInstr, passedOver, h]

theorem weight_conditional (n : Node) (labels : Labels) :
    weight (.instr .conditional n labels) = 1 + n.repeatedForms := by
  simp [weight, isInstr, passedOver]

end Mark

/-- Trees side by side weigh as much as their forms if each of them does.
-/
theorem Expr.weightAll_linearAll {labels : Labels} {es : List Expr}
    (h : ∀ e ∈ es, .stray ∉ e.linear labels → Mark.weightAll (e.linear labels) = e.formCount)
    (hstray : .stray ∉ linearAll labels es) :
    Mark.weightAll (linearAll labels es) = formCountAll es := by
  induction es with
  | nil => rfl
  | cons e es ih =>
      have hsplit : linearAll labels (e :: es) = e.linear labels ++ linearAll labels es := rfl
      rw [hsplit, List.mem_append, not_or] at hstray
      rw [hsplit, Mark.weightAll_append, h e List.mem_cons_self hstray.1,
        ih (fun c hc => h c (List.mem_cons_of_mem e hc)) hstray.2, formCountAll_cons]

/-- **Every instruction form has one mark or is passed over at one.** -/
theorem Expr.weightAll_linear (labels : Labels) (e : Expr) (hstray : .stray ∉ e.linear labels) :
    Mark.weightAll (e.linear labels) = e.formCount := by
  induction labels, e using Expr.form_induction with
  | ref labels name span => simp [linear_eq, layout, Piece.linear] at hstray
  | data labels bytes span => simp [linear_eq, layout, Piece.linear] at hstray
  | stray labels head children hop => simp [linear_stray hop] at hstray
  | block labels head children op hop hs hc ih =>
      rw [linear_block hop hs hc] at hstray ⊢
      rw [Mark.weightAll_append, Mark.weightAll_cons, Mark.weight_instr hc,
        weightAll_linearAll ih (by simpa using hstray), formCount_signed hop (.inl hs)]
      rfl
  | conditional labels head children hop ihc iht ihe =>
      have hs : Opcode.conditional.shape = .structured := rfl
      rw [linear_conditional hop] at hstray ⊢
      simp only [List.mem_append, List.mem_cons, not_or] at hstray
      obtain ⟨⟨⟨hcondition, -, hfirst⟩, hsecond⟩, -⟩ := hstray
      have helse : Mark.weightAll (if Node.hasChild ⟨head, children⟩ "else" then
          .otherwise :: linearAll (head.label? :: labels) (Node.branch ⟨head, children⟩ "else")
          else []) = formCountAll (Node.branch ⟨head, children⟩ "else") := by
        split at hsecond
        next hhas =>
          rw [if_pos hhas, Mark.weightAll_cons,
            weightAll_linearAll ihe fun hmem => hsecond (List.mem_cons_of_mem _ hmem)]
          exact Nat.zero_add _
        next hhas =>
          have hnone : Node.child? ⟨head, children⟩ "else" = none := by
            simpa [Node.hasChild] using hhas
          rw [if_neg hhas, Node.branch, hnone]
          rfl
      have hforms := Node.formCountAll_conditional ⟨head, children⟩
      have hclose : Mark.weightAll [.close] = 0 := rfl
      rw [Mark.weightAll_append, Mark.weightAll_append, Mark.weightAll_append, Mark.weightAll_cons,
        Mark.weight_conditional, weightAll_linearAll ihc hcondition, weightAll_linearAll iht hfirst,
        helse, hclose, formCount_signed hop (.inl hs)]
      omega
  | indirect labels head children op hop hs ih =>
      have hc : op ≠ .conditional := by
        rintro rfl
        cases hs
      rw [linear_indirect hop hs] at hstray ⊢
      rw [Mark.weightAll_append, Mark.weightAll_cons, Mark.weight_instr hc,
        weightAll_linearAll ih (by simpa using hstray), formCount_signed hop (.inr hs)]
      exact Nat.add_comm _ _
  | plain labels head children op hop hs ih =>
      have hc : op ≠ .conditional := by
        rintro rfl
        exact hs.1 rfl
      rw [linear_plain hop hs] at hstray ⊢
      rw [Mark.weightAll_append, Mark.weightAll_cons, Mark.weight_instr hc,
        weightAll_linearAll ih (by simpa using hstray), formCount_plain hop hs]
      exact Nat.add_comm _ _

end WasmText
