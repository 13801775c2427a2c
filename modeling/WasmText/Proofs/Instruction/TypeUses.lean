import WasmText.Proofs.Instruction.Numbering
/-!
# Type uses by name and by number

A `type` form refers to an entry of the type table by one argument, a name
or a number. Where the name stands for the number, the number can be
written in its place: on any form of a tree, and on any number of them
(`Expr.Retyped`). A form keeps its signature (`Signature.ofNode_retyped`),
and so a tree keeps what it compiles to (`compileAll_retyped`).
-/

namespace WasmText

/-- Two `type` forms, one with a name for its argument and one with a
number. -/
structure Head.Retyped (name : String) (index : Nat) (head head' : Head) : Prop where
  instr : head.instr = "type"
  instr' : head'.instr = "type"
  argument : ∃ span, head.arguments = [⟨.label name, span⟩]
  argument' : ∃ span, head'.arguments = [⟨.number (toString index), span⟩]

/-- A tree with any of the uses of a type by its name given way to uses by
number. -/
inductive Expr.Retyped (name : String) (index : Nat) : Expr → Expr → Prop where
  | same (e : Expr) : Retyped name index e e
  | use {head head' : Head} (h : head.Retyped name index head') (children : List Expr) :
    Retyped name index (.node head children) (.node head' children)
  | node {children children' : List Expr} (head : Head)
      (h : List.Forall₂ (Retyped name index) children children') :
    Retyped name index (.node head children) (.node head children')

/-- Forms that stand for such trees. -/
def Node.Retyped (name : String) (index : Nat) (n m : Node) : Prop :=
  n.toExpr.Retyped name index m.toExpr

variable {name : String} {index : Nat}

/-! ## Forms and their children -/

theorem retypedAll_refl (es : List Expr) : List.Forall₂ (Expr.Retyped name index) es es :=
  List.forall₂_same.2 fun e _ => .same e

namespace Expr

variable {e e' : Expr}

/-- A form keeps its word. -/
theorem Retyped.isNode (h : e.Retyped name index e') (word : String) :
    e'.isNode word = e.isNode word := by
  cases h with
  | same => rfl
  | use h children => rw [Expr.isNode, Expr.isNode, h.instr, h.instr']
  | node head h => rfl

theorem Retyped.isSignature (h : e.Retyped name index e') : e'.isSignature = e.isSignature := by
  simp only [Expr.isSignature, h.isNode]

/-- What was a form is one, with uses replaced. -/
theorem Retyped.node? (h : e.Retyped name index e') :
    Option.Rel (Node.Retyped name index) e.node? e'.node? := by
  cases e with
  | ref =>
      cases h
      exact .none
  | data =>
      cases h
      exact .none
  | node head children =>
      cases h with
      | same => exact .some (.same _)
      | use h children => exact .some (.use h children)
      | node head h => exact .some (.node head h)

/-- A form keeps its word, and its children are related. -/
theorem Retyped.of_node {head : Head} {children : List Expr}
    (h : (Expr.node head children).Retyped name index e') :
    ∃ head' children', e' = .node head' children' ∧ head'.instr = head.instr ∧
      List.Forall₂ (Retyped name index) children children' := by
  cases h with
  | same => exact ⟨head, children, rfl, rfl, retypedAll_refl children⟩
  | use h => exact ⟨_, children, rfl, h.instr'.trans h.instr.symm, retypedAll_refl children⟩
  | node head h => exact ⟨head, _, rfl, rfl, h⟩

/-- Only the head of a `type` form changes. -/
theorem Retyped.of_ne {head : Head} {children : List Expr}
    (h : (Expr.node head children).Retyped name index e') (hne : head.instr ≠ "type") :
    ∃ children', e' = .node head children' ∧
      List.Forall₂ (Retyped name index) children children' := by
  cases h with
  | same => exact ⟨children, rfl, retypedAll_refl children⟩
  | use h => exact absurd h.instr hne
  | node head h => exact ⟨_, rfl, h⟩

/-- An instruction keeps its head. -/
theorem Retyped.of_opcode {head : Head} {children : List Expr} {op : Opcode}
    (h : (Expr.node head children).Retyped name index e') (hop : Opcode.ofName? head.instr = some op) :
    ∃ children', e' = .node head children' ∧
      List.Forall₂ (Retyped name index) children children' := by
  refine h.of_ne fun htype => ?_
  have hnone : Opcode.ofName? "type" = none := by decide +kernel
  rw [htype, hnone] at hop
  cases hop

end Expr

namespace Node

variable {n m : Node}

theorem Retyped.instr (h : n.Retyped name index m) : m.instr = n.instr := by
  have hnode := Expr.Retyped.isNode h n.instr
  simpa [toExpr, Expr.isNode] using hnode

/-- A form of another word keeps its head. -/
theorem Retyped.of_ne (h : n.Retyped name index m) (hne : n.instr ≠ "type") :
    ∃ children', m = ⟨n.toHead, children'⟩ ∧
      List.Forall₂ (Expr.Retyped name index) n.children children' := by
  obtain ⟨head, children⟩ := m
  obtain ⟨children', hm, hall⟩ := Expr.Retyped.of_ne h hne
  obtain ⟨rfl, rfl⟩ := Expr.node.inj hm
  exact ⟨children, rfl, hall⟩

variable (hall : List.Forall₂ (Expr.Retyped name index) n.children m.children)
include hall

/-- Forms among the children stay where they are. -/
theorem childNodes_retyped : List.Forall₂ (Node.Retyped name index) n.childNodes m.childNodes :=
  List.rel_filterMap (fun _ _ h => h.node?) hall

theorem head?_retyped {c : Node} (h : n.childNodes.head? = some c) :
    ∃ c', m.childNodes.head? = some c' ∧ c.Retyped name index c' := by
  obtain ⟨cs, hcs⟩ := List.head?_eq_some_iff.1 h
  have hnodes := childNodes_retyped hall
  rw [hcs] at hnodes
  obtain ⟨c', cs', hc, -, hcs'⟩ := List.forall₂_cons_left_iff.1 hnodes
  exact ⟨c', by rw [hcs', List.head?_cons], hc⟩

/-- The first form of a given word is the same one, with uses replaced. -/
theorem child?_retyped (word : String) :
    Option.Rel (Node.Retyped name index) (n.child? word) (m.child? word) := by
  have hnodes := childNodes_retyped hall
  rw [child?, child?]
  generalize n.childNodes = nodes, m.childNodes = nodes' at hnodes
  induction hnodes with
  | nil => exact .none
  | @cons c c' cs cs' h _ ih =>
      rw [List.find?_cons, List.find?_cons, h.instr]
      cases c.instr == word with
      | true => exact .some h
      | false => exact ih

theorem child?_eq_none {word : String} (h : n.child? word = none) : m.child? word = none := by
  have hrel := child?_retyped hall word
  rw [h] at hrel
  generalize m.child? word = found at hrel
  cases hrel
  rfl

theorem child?_eq_some {word : String} {b : Node} (h : n.child? word = some b) :
    ∃ b', m.child? word = some b' ∧ b.Retyped name index b' := by
  have hrel := child?_retyped hall word
  rw [h] at hrel
  generalize m.child? word = found at hrel
  cases hrel with
  | some hb => exact ⟨_, rfl, hb⟩

/-- Whether there is one does not depend on the uses. -/
theorem hasChild_retyped (word : String) : m.hasChild word = n.hasChild word := by
  rw [hasChild, hasChild]
  cases hb : n.child? word with
  | none => rw [child?_eq_none hall hb]
  | some b =>
      obtain ⟨b', hb', -⟩ := child?_eq_some hall hb
      rw [hb']
      rfl

/-- A branch holds what it held, with uses replaced. -/
theorem branch_retyped {word : String} (hword : word ≠ "type") :
    List.Forall₂ (Expr.Retyped name index) (n.branch word) (m.branch word) := by
  rw [branch, branch]
  cases hb : n.child? word with
  | none =>
      rw [child?_eq_none hall hb]
      exact .nil
  | some b =>
      obtain ⟨b', hb', h⟩ := child?_eq_some hall hb
      have hne : b.instr ≠ "type" := by rwa [(exists_of_child? hb).2]
      obtain ⟨inside, rfl, hinside⟩ := h.of_ne hne
      rw [hb']
      exact hinside

/-- So does a body. -/
theorem body_retyped : List.Forall₂ (Expr.Retyped name index) n.body m.body :=
  List.rel_filter (fun _ _ h => by simp only [h.isSignature]) hall

theorem condition_retyped : List.Forall₂ (Expr.Retyped name index) n.condition m.condition :=
  List.rel_filter (fun _ _ h => by simp only [isCondition, h.isSignature, h.isNode]) hall

end Node

/-! ## Signatures -/

/-- A value type is a word alone. -/
theorem ValType.ofExpr_eq_ok {e : Expr} {type : ValType} (h : ofExpr e = .ok type) :
    ∃ head, e = .node head [] ∧ head.arguments = [] := by
  unfold ofExpr at h
  split at h
  next instr span => exact ⟨_, rfl, rfl⟩
  next => cases h

/-- A value type has nothing to replace. -/
theorem ValType.ofExpr_retyped {e e' : Expr} {type : ValType} (h : e.Retyped name index e')
    (htype : ofExpr e = .ok type) : ofExpr e' = .ok type := by
  obtain ⟨head, rfl, harguments⟩ := ofExpr_eq_ok htype
  cases h with
  | same => exact htype
  | use h =>
      obtain ⟨span, hargument⟩ := h.argument
      cases harguments.symm.trans hargument
  | node head h =>
      cases h
      exact htype

/-- Value types side by side have nothing to replace. -/
theorem ValType.listOf_retyped {n m : Node} {types : List ValType}
    (hall : List.Forall₂ (Expr.Retyped name index) n.children m.children)
    (htypes : listOf n = .ok types) : listOf m = .ok types := by
  refine mapM_eq_ok.2 ((forall₂_comp hall.flip (mapM_eq_ok.1 htypes)).imp ?_)
  rintro e' type ⟨e, he, htype⟩
  exact ofExpr_retyped he htype

namespace Signature

variable {names : Names} {table : TypeTable} {n m : Node}

/-- What a form contributes to a signature stays. -/
theorem part_retyped {x : Option FuncType} (h : n.Retyped name index m) (hx : part n = .ok x) :
    part m = .ok x := by
  unfold part at hx ⊢
  rw [h.instr]
  split
  next hparam =>
    rw [if_pos hparam] at hx
    obtain ⟨types, htypes, hx⟩ := bind_eq_ok.1 hx
    obtain ⟨children', rfl, hall⟩ := h.of_ne (by simp [hparam])
    exact bind_eq_ok.2 ⟨types, ValType.listOf_retyped hall htypes, hx⟩
  next hparam =>
    rw [if_neg hparam] at hx
    split
    next hresult =>
      rw [if_pos hresult] at hx
      obtain ⟨types, htypes, hx⟩ := bind_eq_ok.1 hx
      obtain ⟨children', rfl, hall⟩ := h.of_ne (by simp [hresult])
      exact bind_eq_ok.2 ⟨types, ValType.listOf_retyped hall htypes, hx⟩
    next hresult =>
      rw [if_neg hresult] at hx
      exact hx

/-- So does the signature that is spelled out. -/
theorem spelled_retyped {beside : Option FuncType}
    (hall : List.Forall₂ (Expr.Retyped name index) n.children m.children)
    (h : spelled n = .ok beside) : spelled m = .ok beside := by
  obtain ⟨parts, hparts, h⟩ := bind_eq_ok.1 h
  refine bind_eq_ok.2 ⟨parts, mapM_eq_ok.2 ?_, h⟩
  refine (forall₂_comp (Node.childNodes_retyped hall).flip (mapM_eq_ok.1 hparts)).imp ?_
  rintro c' x ⟨c, hc, hx⟩
  exact part_retyped hc hx

variable (hname : names.index? .type name = some index) (hlt : index < 2 ^ 32)
include hname hlt

/-- **A name and its number refer to the same entry.** -/
theorem used_retyped {use use' : Node} {i : Nat} (h : use.Retyped name index use')
    (hi : used names table use = .ok i) : used names table use' = .ok i := by
  obtain ⟨head, children⟩ := use
  obtain ⟨head', children'⟩ := use'
  cases h with
  | same => exact hi
  | node head h => exact hi
  | use h =>
      obtain ⟨span, hargument⟩ := h.argument
      obtain ⟨span', hargument'⟩ := h.argument'
      simp only [used, hargument] at hi
      simp only [used, hargument']
      obtain ⟨hindex, hcount⟩ := referred_eq_ok hi
      obtain rfl : index = i := Option.some.inj (hname.symm.trans hindex)
      exact referred_of_index? (Literal.natural?_toString hlt) hcount

/-- A use by number agrees with what is written beside it if the use by
name does. -/
theorem agreed_retyped {use use' : Node} {beside : Option FuncType} {i : Nat}
    (h : use.Retyped name index use') (hi : agreed names table use beside = .ok i) :
    agreed names table use' beside = .ok i := by
  obtain ⟨j, hj, hi⟩ := bind_eq_ok.1 hi
  refine bind_eq_ok.2 ⟨j, used_retyped hname hlt h hj, ?_⟩
  split at hi
  next hagrees => rwa [if_pos hagrees]
  next => exact absurd hi throw_ne_ok

variable (hall : List.Forall₂ (Expr.Retyped name index) n.children m.children)
include hall

/-- **A form keeps its signature.** -/
theorem ofNode_retyped {sig : FuncType × Option Nat} (h : ofNode names table n = .ok sig) :
    ofNode names table m = .ok sig := by
  obtain ⟨beside, hbeside, h⟩ := bind_eq_ok.1 h
  refine bind_eq_ok.2 ⟨beside, spelled_retyped hall hbeside, ?_⟩
  cases hb : n.child? "type" with
  | none =>
      rw [Node.child?_eq_none hall hb]
      rwa [hb] at h
  | some use =>
      obtain ⟨use', hb', huse⟩ := Node.child?_eq_some hall hb
      rw [hb] at h
      rw [hb']
      obtain ⟨i, hi, h⟩ := bind_eq_ok.1 h
      exact bind_eq_ok.2 ⟨i, agreed_retyped hname hlt huse hi, h⟩

/-- A form registers what it registered. -/
theorem intern_retyped {entry : Nat × TypeTable} (h : intern names table n = .ok entry) :
    intern names table m = .ok entry := by
  obtain ⟨sig, hsig, h⟩ := bind_eq_ok.1 h
  exact bind_eq_ok.2 ⟨sig, ofNode_retyped hname hlt hall hsig, h⟩

end Signature

/-! ## Trees -/

section compile

variable {names : Names} (hname : names.index? .type name = some index) (hlt : index < 2 ^ 32)
include hname hlt

/-- An indirect call keeps its type. -/
theorem callType_retyped {head : Head} {children children' : List Expr}
    (hall : List.Forall₂ (Expr.Retyped name index) children children') :
    (callType names ⟨head, children⟩).Refines (callType names ⟨head, children'⟩) := by
  have hhas : Node.hasChild ⟨head, children'⟩ "type" = Node.hasChild ⟨head, children⟩ "type" :=
    Node.hasChild_retyped hall "type"
  rcases hargs : head.arguments with _ | ⟨p, _ | ⟨extra, ps⟩⟩
  · simp only [callType, hargs]
    refine Typing.Refines.bind (.read fun table entry hentry => ?_) fun _ => .refl _
    exact Signature.intern_retyped hname hlt hall hentry
  · simp only [callType, hargs, hhas]
    cases Node.hasChild ⟨head, children⟩ "type" <;> exact .refl _
  · simp only [callType, hargs, hhas]
    cases Node.hasChild ⟨head, children⟩ "type" <;> exact .refl _

omit hname hlt in
/-- Trees side by side compile alike if each does. -/
theorem compileAll_refines [HexReader] {env : Env} {es es' : List Expr}
    (h : List.Forall₂ (fun e e' => (compileExpr env e).Refines (compileExpr env e')) es es') :
    (compileAll env es).Refines (compileAll env es') := by
  induction h with
  | nil => exact .refl _
  | cons he _ ih =>
      rw [compileAll_cons, compileAll_cons]
      exact he.bind fun first => ih.bind fun rest => .refl _

omit hname hlt in
/-- Trees with replaced uses compile alike if each of them does. -/
theorem compileAll_retyped_of [HexReader] {env : Env} {es es' : List Expr}
    (hone : ∀ e ∈ es, ∀ e', e.Retyped name index e' → (compileExpr env e).Refines (compileExpr env e'))
    (hall : List.Forall₂ (Expr.Retyped name index) es es') :
    (compileAll env es).Refines (compileAll env es') := by
  refine compileAll_refines (((List.forall₂_and_left es es').2 ⟨hone, hall⟩).imp ?_)
  rintro e e' ⟨hrefines, h⟩
  exact hrefines e' h

/-- **A tree keeps what it compiles to** when uses of a type by name give
way to uses by number, in the forms of any construct or call. -/
theorem compileExpr_retyped [HexReader] (locals : Locals) (labels : Labels) (e : Expr) :
    ∀ e', e.Retyped name index e' →
      (compileExpr ⟨names, locals, labels⟩ e).Refines (compileExpr ⟨names, locals, labels⟩ e') := by
  induction labels, e using Expr.form_induction with
  | ref labels word span =>
      intro e' h
      cases h
      exact .refl _
  | data labels bytes span =>
      intro e' h
      cases h
      exact .refl _
  | stray labels head children hop =>
      intro e' _ t t' instrs hrun
      rw [compileExpr, hop] at hrun
      exact absurd hrun Typing.throw_ne_ok
  | block labels head children op hop hs hc ih =>
      intro e' h
      obtain ⟨children', rfl, hall⟩ := h.of_opcode hop
      exact .block hop hs hc (fun _ _ => Signature.ofNode_retyped hname hlt hall)
        (compileAll_retyped_of ih (Node.body_retyped hall))
  | conditional labels head children hop ihc iht ihe =>
      intro e' h
      obtain ⟨children', rfl, hall⟩ := h.of_opcode hop
      exact .conditional hop (fun _ _ => Signature.ofNode_retyped hname hlt hall)
        (compileAll_retyped_of ihc (Node.condition_retyped hall)) (Node.hasChild_retyped hall _)
        (compileAll_retyped_of iht (Node.branch_retyped hall (by decide)))
        (Node.hasChild_retyped hall _)
        (compileAll_retyped_of ihe (Node.branch_retyped hall (by decide)))
  | indirect labels head children op hop hs ih =>
      intro e' h
      obtain ⟨children', rfl, hall⟩ := h.of_opcode hop
      exact .indirect hop hs (callType_retyped hname hlt hall)
        (compileAll_retyped_of ih (Node.body_retyped hall))
  | plain labels head children op hop hs ih =>
      intro e' h
      obtain ⟨children', rfl, hall⟩ := h.of_opcode hop
      exact .plain hop hs rfl (fun _ => id) (compileAll_retyped_of ih hall)

/-- **Trees keep what they compile to** when uses of a type by name give
way to uses by number. -/
theorem compileAll_retyped [HexReader] {locals : Locals} {labels : Labels} {es es' : List Expr}
    (hall : List.Forall₂ (Expr.Retyped name index) es es') :
    (compileAll ⟨names, locals, labels⟩ es).Refines (compileAll ⟨names, locals, labels⟩ es') :=
  compileAll_retyped_of (fun e _ => compileExpr_retyped hname hlt locals labels e) hall

end compile

end WasmText
