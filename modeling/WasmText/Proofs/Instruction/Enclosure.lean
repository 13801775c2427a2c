import WasmText.Proofs.Instruction.FormCount
/-!
# Where the forms of a tree are

A form stands anywhere in a tree, at any depth (`Expr.Contains`). In the
linear form there is a mark for it, which holds the labels of the
constructs around it, or compiling passes over it
(`Expr.marked_or_passedOver`). What is passed over is inside the signature
of a construct or an indirect call, or inside a second `then` or `else` of a
conditional (`Expr.PassesOver`).
-/

namespace WasmText

namespace Expr

/-- Whether a form stands in a tree. -/
inductive Contains : Expr → Node → Prop
  | self {head : Head} {children : List Expr} : Contains (.node head children) ⟨head, children⟩
  | child {head : Head} {children : List Expr} {c : Expr} {n : Node} :
      c ∈ children → Contains c n → Contains (.node head children) n

/-- Whether a form stands in a tree where compiling does not look. -/
inductive PassesOver : Expr → Node → Prop
  | signature {head : Head} {children : List Expr} {c : Expr} {n : Node} :
      head.isSigned = true → c ∈ children → c.isSignature = true → Contains c n →
      PassesOver (.node head children) n
  | repeated {head : Head} {children : List Expr} {b : Node} {c : Expr} {n : Node} :
      Opcode.ofName? head.instr = some .conditional →
      b ∈ Node.repeatedBranches ⟨head, children⟩ → c ∈ b.children → Contains c n →
      PassesOver (.node head children) n
  | child {head : Head} {children : List Expr} {c : Expr} {n : Node} :
      c ∈ children → PassesOver c n → PassesOver (.node head children) n

/-- Whether an instruction form has a mark in a tree, or is passed over. -/
def Accounts (labels : Labels) (e : Expr) (n : Node) : Prop :=
  (∃ op around, .instr op n around ∈ e.linear labels) ∨ e.PassesOver n

variable {labels labels' : Labels} {head : Head} {children : List Expr} {c : Expr} {n b : Node}
variable {op : Opcode} {name : String}

/-- What is accounted for in a part of a form is accounted for in the
form. -/
theorem accounts_of_part (hstray : .stray ∉ (Expr.node head children).linear labels)
    (hmarks : c.linear labels' ⊆ (Expr.node head children).linear labels)
    (hpart : .stray ∉ c.linear labels' → c.Accounts labels' n)
    (hover : c.PassesOver n → (Expr.node head children).PassesOver n) :
    (Expr.node head children).Accounts labels n :=
  (hpart fun hmem => hstray (hmarks hmem)).imp
    (fun ⟨op, around, hmark⟩ => ⟨op, around, hmarks hmark⟩) hover

theorem linear_subset_linearAll {es : List Expr} (hc : c ∈ es) :
    c.linear labels ⊆ linearAll labels es :=
  fun _ hm => List.mem_flatMap.2 ⟨c, hc, hm⟩

/-- A branch of a conditional is the first of its name, or a repeated
one. -/
theorem child?_or_repeated (hname : name ∈ ["then", "else"])
    (hb : b ∈ Node.childNodes ⟨head, children⟩) (hinstr : b.instr = name) :
    Node.child? ⟨head, children⟩ name = some b ∨
      b ∈ Node.repeatedBranches ⟨head, children⟩ := by
  have hmem : b ∈ (Node.childNodes ⟨head, children⟩).filter (·.instr = name) :=
    List.mem_filter.2 ⟨hb, by simpa using hinstr⟩
  rw [Node.child?_eq_head?]
  cases hbranches : (Node.childNodes ⟨head, children⟩).filter (·.instr = name) with
  | nil =>
      rw [hbranches] at hmem
      cases hmem
  | cons first others =>
      rw [hbranches] at hmem
      refine (List.mem_cons.1 hmem).imp (fun hfirst => congrArg some hfirst.symm) fun hother => ?_
      have htail : b ∈ ((Node.childNodes ⟨head, children⟩).filter (·.instr = name)).tail := by
        rwa [hbranches]
      rw [Node.repeatedBranches, List.mem_append]
      simp only [List.mem_cons, List.not_mem_nil, or_false] at hname
      rcases hname with rfl | rfl
      · exact .inl htail
      · exact .inr htail

/-- A child of a conditional gives its signature, stands before it, or is a
branch. -/
theorem child_cases (c : Expr) : c.isSignature = true ∨ isCondition c = true ∨
    ∃ head children, c = .node head children ∧ head.instr ∈ ["then", "else"] := by
  cases hsignature : c.isSignature with
  | true => exact .inl rfl
  | false =>
      refine .inr ?_
      cases hcondition : isCondition c with
      | true => exact .inl rfl
      | false =>
          refine .inr ?_
          cases c with
          | ref => simp [isCondition, isSignature, isNode] at hcondition
          | data => simp [isCondition, isSignature, isNode] at hcondition
          | node head children =>
              refine ⟨head, children, rfl, ?_⟩
              rw [isCondition, hsignature] at hcondition
              by_cases hthen : head.instr = "then"
              · simp [hthen]
              · simp_all [isNode]

/-- The branches of a conditional have marks, if they are the first. -/
theorem linearAll_branch_subset (hop : Opcode.ofName? head.instr = some .conditional)
    (hname : name ∈ ["then", "else"]) (hchild : Node.child? ⟨head, children⟩ name = some b) :
    linearAll (head.label? :: labels) b.children ⊆ (Expr.node head children).linear labels := by
  have hbranch : Node.branch ⟨head, children⟩ name = b.children := by
    rw [Node.branch, hchild]
    rfl
  intro m hm
  rw [← hbranch] at hm
  rw [linear_conditional hop]
  simp only [List.mem_cons, List.not_mem_nil, or_false] at hname
  rcases hname with rfl | rfl
  · simp [hm]
  · have helse : Node.hasChild ⟨head, children⟩ "else" = true := by simp [Node.hasChild, hchild]
    simp [helse, hm]

/-- A form with a signature accounts for what its body accounts for. -/
theorem accounts_of_body (hsigned : head.isSigned = true)
    (hstray : .stray ∉ (Expr.node head children).linear labels)
    (hmarks : linearAll labels' (Node.body ⟨head, children⟩) ⊆
      (Expr.node head children).linear labels)
    (ih : ∀ c ∈ Node.body ⟨head, children⟩, .stray ∉ c.linear labels' → c.Contains n →
      c.Accounts labels' n)
    (hchild : c ∈ children) (hin : c.Contains n) : (Expr.node head children).Accounts labels n := by
  cases hsignature : c.isSignature with
  | true => exact .inr (.signature hsigned hchild hsignature hin)
  | false =>
      have hbody : c ∈ Node.body ⟨head, children⟩ := by simp [Node.body, hchild, hsignature]
      exact accounts_of_part hstray (fun m hm => hmarks (linear_subset_linearAll hbody hm))
        (fun h => ih c hbody h hin) (.child hchild)

/-- A conditional accounts for what is in its branches: the first of a name
is compiled, and the others are passed over. -/
theorem accounts_of_branch {head' : Head} {children' : List Expr}
    (hop : Opcode.ofName? head.instr = some .conditional)
    (hstray : .stray ∉ (Expr.node head children).linear labels)
    (hname : head'.instr ∈ ["then", "else"])
    (ih : ∀ c ∈ Node.branch ⟨head, children⟩ head'.instr, .stray ∉ c.linear (head.label? :: labels) →
      c.Contains n → c.Accounts (head.label? :: labels) n)
    (hchild : .node head' children' ∈ children) (hc : c ∈ children') (hin : c.Contains n) :
    (Expr.node head children).Accounts labels n := by
  have hnode : (⟨head', children'⟩ : Node) ∈ Node.childNodes ⟨head, children⟩ :=
    List.mem_filterMap.2 ⟨_, hchild, rfl⟩
  obtain hfirst | hrepeated := child?_or_repeated hname hnode rfl
  · have hbranch : c ∈ Node.branch ⟨head, children⟩ head'.instr := by
      rw [Node.branch, hfirst]
      exact hc
    exact accounts_of_part hstray
      (fun m hm => linearAll_branch_subset hop hname hfirst (linear_subset_linearAll hc hm))
      (fun h => ih c hbranch h hin) fun h => .child hchild (.child hc h)
  · exact .inr (.repeated hop hrepeated hc hin)

/-- **Every instruction form of a tree has a mark or is passed over.** -/
theorem marked_or_passedOver (labels : Labels) (e : Expr) (hstray : .stray ∉ e.linear labels)
    (hcontains : e.Contains n) (hn : Opcode.ofName? n.instr = some op) : e.Accounts labels n := by
  induction labels, e using Expr.form_induction with
  | ref labels name span => cases hcontains
  | data labels bytes span => cases hcontains
  | stray labels head children hop => simp [linear_stray hop] at hstray
  | block labels head children op' hop hs hc ih =>
      cases hcontains with
      | self => exact .inl ⟨op', labels, by simp [linear_block hop hs hc]⟩
      | child hchild hin =>
          refine accounts_of_body (by simp [Head.isSigned, hop, hs]) hstray ?_ ih hchild hin
          simp [linear_block hop hs hc]
  | conditional labels head children hop ihc iht ihe =>
      cases hcontains with
      | self => exact .inl ⟨.conditional, labels, by simp [linear_conditional hop]⟩
      | @child _ _ c _ hchild hin =>
          obtain hsignature | hcondition | ⟨head', children', rfl, hname⟩ := child_cases c
          · have hsigned : head.isSigned = true := by simp [Head.isSigned, hop, Opcode.conditional]
            exact .inr (.signature hsigned hchild hsignature hin)
          · have hbefore : c ∈ Node.condition ⟨head, children⟩ :=
              List.mem_filter.2 ⟨hchild, hcondition⟩
            refine accounts_of_part hstray (fun m hm => ?_) (fun h => ihc c hbefore h hin)
              (.child hchild)
            rw [linear_conditional hop]
            simp [linear_subset_linearAll hbefore hm]
          · cases hin with
            | self =>
                have hnone : Opcode.ofName? head'.instr = none :=
                  ofName?_branch (by simpa [Head.isBranch] using hname)
                cases hnone.symm.trans hn
            | child hc hin =>
                refine accounts_of_branch hop hstray hname ?_ hchild hc hin
                simp only [List.mem_cons, List.not_mem_nil, or_false] at hname
                rcases hname with hthen | helse
                · exact hthen ▸ iht
                · exact helse ▸ ihe
  | indirect labels head children op' hop hs ih =>
      cases hcontains with
      | self => exact .inl ⟨op', labels, by simp [linear_indirect hop hs]⟩
      | child hchild hin =>
          refine accounts_of_body (by simp [Head.isSigned, hop, hs]) hstray ?_ ih hchild hin
          simp [linear_indirect hop hs]
  | plain labels head children op' hop hs ih =>
      cases hcontains with
      | self => exact .inl ⟨op', labels, by simp [linear_plain hop hs]⟩
      | @child _ _ c _ hchild hin =>
          refine accounts_of_part hstray (fun m hm => ?_) (fun h => ih c hchild h hin)
            (.child hchild)
          rw [linear_plain hop hs]
          simp [linear_subset_linearAll hchild hm]

end Expr

end WasmText
