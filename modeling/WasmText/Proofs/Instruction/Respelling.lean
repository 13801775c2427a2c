import WasmText.Proofs.Instruction.Spelling
/-!
# Respelled trees compile the same

The trees that a spelled body is read back as compile to the instructions
of the body and register the same types (`compileAll_respell`). A flat
spelling moves the operands of an instruction out before it, so signatures
are looked up in a table that has grown by the operands; they are found
there as before. An indirect call that spells its type out would register
it at another time, which is why it has to name it.
-/

namespace WasmText

/-! ## Signatures -/

namespace Node

variable {n m : Node}

/-- The first form of a name is the first child that is one. -/
theorem child?_eq (n : Node) (name : String) :
    n.child? name = (n.children.find? (·.isNode name)).bind Expr.node? := by
  rw [child?, childNodes]
  induction n.children with
  | nil => rfl
  | cons e es ih =>
      cases e with
      | ref => simpa [Expr.node?, Expr.isNode] using ih
      | data => simpa [Expr.node?, Expr.isNode] using ih
      | node head children =>
          by_cases h : head.instr = name
          · simp [Expr.node?, Expr.isNode, h]
          · simpa [Expr.node?, Expr.isNode, h] using ih

/-- The `type` form is among the forms of the signature. -/
theorem child?_type_congr (h : n.signature = m.signature) : n.child? "type" = m.child? "type" := by
  have hfind : ∀ n : Node, n.children.find? (·.isNode "type") =
      n.signature.find? (·.isNode "type") := by
    intro n
    rw [signature, List.find?_filter]
    congr 1
    funext e
    cases htype : e.isNode "type" with
    | false => simp
    | true => simp [Expr.isSignature, htype]
  rw [child?_eq, child?_eq, hfind, hfind, h]

end Node

namespace Signature

variable {names : Names} {table table' : TypeTable} {n m : Node}

/-- The parts that some trees contribute to a signature. -/
def parts (es : List Expr) : Except CompileError (List FuncType) := do
  return (← (es.filterMap Expr.node?).mapM part).filterMap id

/-- What a form contributes comes before what the others do. -/
theorem parts_cons_node (head : Head) (children es : List Expr) :
    parts (.node head children :: es) = (do
      let first ← part ⟨head, children⟩
      let rest ← parts es
      return first.toList ++ rest) := by
  simp only [parts, List.filterMap_cons, Expr.node?, List.mapM_cons]
  cases part ⟨head, children⟩ with
  | error e => rfl
  | ok first =>
      cases (es.filterMap Expr.node?).mapM part with
      | error e => rfl
      | ok rest => cases first <;> rfl

/-- Only the forms of a signature contribute to it. -/
theorem parts_filter (es : List Expr) : parts (es.filter (·.isSignature)) = parts es := by
  induction es with
  | nil => rfl
  | cons e es ih =>
      cases e with
      | ref => exact ih
      | data => exact ih
      | node head children =>
          by_cases h : (Expr.node head children).isSignature = true
          · rw [List.filter_cons_of_pos h, parts_cons_node, parts_cons_node, ih]
          · have hnone : part ⟨head, children⟩ = .ok none := by
              simp only [Expr.isSignature, Expr.isNode, Bool.or_eq_true, beq_iff_eq, not_or] at h
              rw [part, if_neg h.1.1, if_neg h.1.2]
              rfl
            rw [List.filter_cons_of_neg h, parts_cons_node, hnone, ih]
            cases parts es <;> rfl

/-- **The signature of a form** is told by its signature forms. -/
theorem ofNode_congr (h : n.signature = m.signature) :
    ofNode names table n = ofNode names table m := by
  have hspelled : ∀ n : Node, spelled n = (do
      let parts ← parts n.signature
      if parts.isEmpty then return none
      else return some ⟨parts.flatMap (·.params), parts.flatMap (·.results)⟩) := by
    intro n
    rw [Node.signature, parts_filter, parts, spelled, Node.childNodes]
    cases (n.children.filterMap Expr.node?).mapM part <;> rfl
  rw [ofNode, ofNode, hspelled, hspelled, h, Node.child?_type_congr h]

/-! What a signature refers to stays where it is when the table grows. -/

/-- An argument that stands for an entry of the table refers to it. -/
theorem referred_of_index? {p : Param} {i : Nat} (hindex : p.index? (names.index? .type) = some i)
    (hlt : i < table.count) : referred names table p = .ok i := by
  obtain ⟨arg, span⟩ := p
  have hcheck : (if i < table.count then pure i
      else throw (.malformed (.unknownIndex .type i) span) : Except CompileError Nat) = .ok i := by
    rw [if_pos hlt]
    rfl
  cases arg <;>
    simp [referred, bind_eq_ok, Param.index?, Argument.numeric?, resolved_eq_ok,
      Literal.readNatural_eq_ok] at hindex ⊢ <;>
    exact ⟨i, hindex, hcheck⟩

/-- What is referred to stays when the table grows. -/
theorem referred_of_grows {p : Param} {i : Nat} (hgrow : table.Grows table')
    (h : referred names table p = .ok i) : referred names table' p = .ok i := by
  obtain ⟨hindex, hlt⟩ := referred_eq_ok h
  exact referred_of_index? hindex (Nat.lt_of_lt_of_le hlt hgrow.isPrefix.length_le)

theorem at?_of_grows {i : Nat} (hgrow : table.Grows table') (h : i < table.count) :
    table'.at? i = table.at? i := by
  obtain ⟨more, hmore⟩ := hgrow.isPrefix
  rw [TypeTable.at?, TypeTable.at?, ← hmore, List.getElem?_append_left h]

/-- So does a type use and what is written beside it. -/
theorem agreed_of_grows {use : Node} {beside : Option FuncType} {i : Nat}
    (hgrow : table.Grows table') (h : agreed names table use beside = .ok i) :
    agreed names table' use beside = .ok i := by
  obtain ⟨-, hlt⟩ := agreed_eq_ok h
  obtain ⟨j, hused, h⟩ := bind_eq_ok.1 h
  have hused' : used names table' use = .ok j := by
    unfold used at hused ⊢
    split at hused
    · exact referred_of_grows hgrow hused
    · cases hused
  refine bind_eq_ok.2 ⟨j, hused', ?_⟩
  split at h
  · next hbeside =>
      obtain rfl := pure_eq_ok.1 h
      rw [at?_of_grows hgrow hlt, if_pos hbeside]
      rfl
  · exact absurd h throw_ne_ok

/-- **The signature of a form stays** when the table grows. -/
theorem ofNode_of_grows {type : FuncType} {use : Option Nat} (hgrow : table.Grows table')
    (h : ofNode names table n = .ok (type, use)) : ofNode names table' n = .ok (type, use) := by
  obtain ⟨beside, hbeside, h⟩ := bind_eq_ok.1 h
  refine bind_eq_ok.2 ⟨beside, hbeside, ?_⟩
  cases hu : n.child? "type" with
  | none =>
      rw [hu] at h
      exact h
  | some u =>
      rw [hu] at h
      obtain ⟨i, hi, h⟩ := bind_eq_ok.1 h
      refine bind_eq_ok.2 ⟨i, agreed_of_grows hgrow hi, ?_⟩
      rw [at?_of_grows hgrow (agreed_eq_ok hi).2]
      exact h

end Signature

section callType

variable {names : Names} {t t' : TypeTable} {n : Node}

/-- The operands of an indirect call do not tell its type. -/
theorem callType_congr {children : List Expr} (h : Node.signature ⟨n.toHead, children⟩ = n.signature) :
    callType names ⟨n.toHead, children⟩ = callType names n := by
  have hintern : ∀ table, Signature.intern names table ⟨n.toHead, children⟩ =
      Signature.intern names table n := by
    intro table
    rw [Signature.intern, Signature.intern, Signature.ofNode_congr h]
  have hhas : Node.hasChild ⟨n.toHead, children⟩ "type" = n.hasChild "type" := by
    rw [Node.hasChild, Node.hasChild, Node.child?_type_congr h]
  unfold callType
  simp only [hhas, hintern]

/-- **An indirect call that names its type** registers none, and finds it
in every later table. -/
theorem callType_of_grows {i : Nat} (hnames : n.NamesType) (h : callType names n t = .ok i t') :
    t' = t ∧ ∀ t₁, t.Grows t₁ → callType names n t₁ = .ok i t₁ := by
  obtain ⟨hargs, hintern⟩ | ⟨p, hargs, hhas, hp, rfl⟩ := callType_iff.1 h
  · -- without an argument, the type is named by a form
    have htype : n.hasChild "type" = true := hnames.resolve_left (fun hne => hne hargs)
    obtain ⟨⟨type, use⟩, hsig, hpair⟩ := bind_eq_ok.1 hintern
    obtain ⟨u, k, -, -, -, rfl⟩ | ⟨hu, -, -⟩ := Signature.ofNode_eq_ok hsig
    · obtain ⟨rfl, rfl⟩ := Prod.mk.inj (pure_eq_ok.1 hpair)
      refine ⟨rfl, fun t₁ hgrow => callType_iff.2 (.inl ⟨hargs, ?_⟩)⟩
      exact bind_eq_ok.2 ⟨_, Signature.ofNode_of_grows hgrow hsig, rfl⟩
    · rw [Node.hasChild, hu] at htype
      cases htype
  · refine ⟨rfl, fun t₁ hgrow => callType_iff.2 (.inr ⟨p, hargs, hhas, ?_, rfl⟩)⟩
    exact Signature.referred_of_grows hgrow hp

end callType

/-! ## Forms put together again -/

namespace Node

variable {n : Node} {es inside first second : List Expr}

theorem filter_signature (n : Node) : n.signature.filter (·.isSignature) = n.signature :=
  List.filter_eq_self.2 fun _ he => (List.mem_filter.1 he).2

/-- Behind a signature, instructions are no part of it. -/
theorem signature_append (h : ∀ e ∈ es, e.isSignature = false) :
    signature ⟨n.toHead, n.signature ++ es⟩ = n.signature := by
  have hnone : es.filter (·.isSignature) = [] := List.filter_eq_nil_iff.2 fun e he => by simp [h e he]
  rw [signature, List.filter_append, filter_signature, hnone, List.append_nil]

/-- They are the body. -/
theorem body_append (h : ∀ e ∈ es, e.isSignature = false) :
    body ⟨n.toHead, n.signature ++ es⟩ = es := by
  have hnone : n.signature.filter (!·.isSignature) = [] :=
    List.filter_eq_nil_iff.2 fun e he => by simp [(List.mem_filter.1 he).2]
  have hall : es.filter (!·.isSignature) = es := List.filter_eq_self.2 fun e he => by simp [h e he]
  rw [body, List.filter_append, hnone, hall, List.nil_append]

/-- The forms of a signature have its three words. -/
theorem isNode_of_mem_signature {e : Expr} (h : e ∈ n.signature) {word : String}
    (hword : word ∉ ["param", "result", "type"]) : e.isNode word = false := by
  have hsignature := (List.mem_filter.1 h).2
  cases e with
  | ref => rfl
  | data => rfl
  | node head children =>
      simp only [Expr.isSignature, Expr.isNode, Bool.or_eq_true, beq_iff_eq] at hsignature
      refine beq_eq_false_iff_ne.2 fun hinstr => hword ?_
      rcases hsignature with (h | h) | h
      all_goals simp [← hinstr, h]

/-- Children of other words are passed over in looking for one. -/
theorem child?_append {head : Head} {es others : List Expr} {name : String}
    (h : ∀ e ∈ es, e.isNode name = false) :
    child? ⟨head, es ++ others⟩ name = child? ⟨head, others⟩ name := by
  have hnone : es.find? (·.isNode name) = none := List.find?_eq_none.2 fun e he => by simp [h e he]
  simp only [child?_eq, List.find?_append, hnone, Option.none_or]

/-! A conditional put together from its signature, its condition and its
branches has just these. -/

section conditional

variable (n first second) (h : ∀ e ∈ inside, e.IsInstr)

include h

/-- A conditional put together has the signature that it was given. -/
theorem signature_conditional :
    signature ⟨n.toHead, n.signature ++ (inside ++ n.branches first second)⟩ = n.signature := by
  refine signature_append fun e he => ?_
  rcases List.mem_append.1 he with he | he
  · exact (h e he).isSignature_eq_false
  · unfold branches at he
    split at he
    · simp only [List.mem_cons, List.not_mem_nil, or_false] at he
      rcases he with rfl | rfl
      · rfl
      · rfl
    · rw [List.mem_singleton.1 he]
      rfl

/-- Its condition is what stands inside. -/
theorem condition_conditional :
    condition ⟨n.toHead, n.signature ++ (inside ++ n.branches first second)⟩ = inside := by
  have hsignature : n.signature.filter isCondition = [] :=
    List.filter_eq_nil_iff.2 fun e he => by simp [isCondition, (List.mem_filter.1 he).2]
  have hinside : inside.filter isCondition = inside :=
    List.filter_eq_self.2 fun e he => (h e he).isCondition_eq_true
  have hbranches : (n.branches first second).filter isCondition = [] := by
    unfold branches
    split
    · rfl
    · rfl
  rw [condition, List.filter_append, List.filter_append, hsignature, hinside, hbranches,
    List.nil_append, List.append_nil]

/-- Only its branches can be found by a word that is neither of an
instruction nor of a signature. -/
theorem child?_conditional {word : String} (hword : Opcode.ofName? word = none)
    (hsignature : word ∉ ["param", "result", "type"]) :
    child? ⟨n.toHead, n.signature ++ (inside ++ n.branches first second)⟩ word =
      child? ⟨n.toHead, n.branches first second⟩ word := by
  rw [child?_append fun e he => isNode_of_mem_signature he hsignature,
    child?_append fun e he => (h e he).isNode_eq_false hword]

/-- Its first branch is the first one given. -/
theorem child?_then_conditional :
    child? ⟨n.toHead, n.signature ++ (inside ++ n.branches first second)⟩ "then" =
      some ⟨.plain "then" .zero, first⟩ := by
  rw [child?_conditional n first second h (by decide +kernel) (by decide)]
  rfl

/-- Its second branch is there if the form had one. -/
theorem child?_else_conditional :
    child? ⟨n.toHead, n.signature ++ (inside ++ n.branches first second)⟩ "else" =
      if n.hasChild "else" then some ⟨.plain "else" .zero, second⟩ else none := by
  rw [child?_conditional n first second h (by decide +kernel) (by decide), branches]
  split
  · rfl
  · rfl

end conditional

end Node

/-! ## Compiling -/

namespace Typing

variable {α β : Type}

/-- Whether a computation gives what another gives, wherever that one
succeeds. -/
def Refines (x y : Typing α) : Prop := ∀ t t' a, x t = .ok a t' → y t = .ok a t'

theorem Refines.refl (x : Typing α) : x.Refines x := fun _ _ _ h => h

/-- Steps that give what others give, one after another. -/
theorem Refines.bind {x y : Typing α} {f g : α → Typing β} (h : x.Refines y)
    (hfg : ∀ a, (f a).Refines (g a)) : (x >>= f).Refines (y >>= g) := by
  intro t t' b hrun
  obtain ⟨a, t₁, hx, hf⟩ := bind_eq_ok.1 hrun
  exact bind_eq_ok.2 ⟨a, t₁, h t t₁ a hx, hfg a t₁ t' b hf⟩

end Typing

section compile

variable {env : Env} {t t' t₁ : TypeTable} {e : Expr} {es others : List Expr}
variable {instrs more : List Instr} {n m : Node}

/-- Trees compile one after another. -/
theorem compileAll_append [HexReader] (h : compileAll env es t = .ok instrs t₁)
    (hmore : compileAll env others t₁ = .ok more t') :
    compileAll env (es ++ others) t = .ok (instrs ++ more) t' := by
  induction es generalizing t instrs with
  | nil =>
      obtain ⟨rfl, rfl⟩ := compileAll_nil_eq_ok.1 h
      exact hmore
  | cons e es ih =>
      obtain ⟨first, t₂, rest, hfirst, hrest, rfl⟩ := compileAll_cons_eq_ok.1 h
      exact compileAll_cons_eq_ok.2 ⟨first, t₂, _, hfirst, ih hrest, List.append_assoc ..⟩

theorem compileAll_nil_eq [HexReader] (env : Env) (t : TypeTable) :
    compileAll env [] t = .ok [] t :=
  compileAll_nil_eq_ok.2 ⟨rfl, rfl⟩

theorem compileAll_singleton [HexReader] (h : compileExpr env e t = .ok instrs t') :
    compileAll env [e] t = .ok instrs t' :=
  compileAll_cons_eq_ok.2
    ⟨instrs, t', [], h, compileAll_nil_eq env t', (List.append_nil instrs).symm⟩

/-- Trees that take the place of others, one by one, compile in their
place. -/
theorem refines_flatMap [HexReader] {respell : Expr → List Expr}
    (hone : ∀ e ∈ es, (compileExpr env e).Refines (compileAll env (respell e))) :
    (compileAll env es).Refines (compileAll env (es.flatMap respell)) := by
  induction es with
  | nil => exact .refl _
  | cons e es ih =>
      intro t t' instrs h
      obtain ⟨first, t₁, rest, hfirst, hrest, rfl⟩ := compileAll_cons_eq_ok.1 h
      exact compileAll_append (hone e List.mem_cons_self _ _ _ hfirst)
        (ih (fun c hc => hone c (List.mem_cons_of_mem e hc)) _ _ _ hrest)

/-- The branches of a conditional compile as others do if each branch does.
-/
theorem refines_branches [HexReader] {type : FuncType} {use : Option Nat}
    (hhead : m.toHead = n.toHead) (helse : m.hasChild "else" = n.hasChild "else")
    (hfirst : ∀ env, (compileAll env (n.branch "then")).Refines (compileAll env (m.branch "then")))
    (hsecond : n.hasChild "else" = true →
      ∀ env, (compileAll env (n.branch "else")).Refines (compileAll env (m.branch "else"))) :
    (compileBranches env n type use).Refines (compileBranches env m type use) := by
  unfold compileBranches compileElse
  rw [hhead, helse]
  refine (Typing.Refines.refl _).bind fun block => (hfirst _).bind fun first =>
    Typing.Refines.bind ?_ fun rest => .refl _
  split
  · next h => exact (hsecond h _).bind fun second => .refl _
  · exact .refl _

end compile

/-- A conditional put together from parts that compile, with its condition
inside, or with none. -/
theorem compileExpr_conditional_append [HexReader] {env : Env} {t t₁ t' : TypeTable} {n : Node}
    {type : FuncType}
    {use : Option Nat} (inside : List Expr) {first second : List Expr} {condition rest : List Instr}
    (hop : Opcode.ofName? n.instr = some .conditional) (hinstr : ∀ e ∈ inside, e.IsInstr)
    (hsig : Signature.ofNode env.names t n = .ok (type, use))
    (hcondition : compileAll env inside t = .ok condition t₁)
    (hfirst : ∀ env, (compileAll env (n.branch "then")).Refines (compileAll env first))
    (hsecond : ∀ env, (compileAll env (n.branch "else")).Refines (compileAll env second))
    (hrest : compileBranches env n type use t₁ = .ok rest t') :
    compileExpr env (.node n.toHead (n.signature ++ (inside ++ n.branches first second))) t =
      .ok (condition ++ rest) t' := by
  have hthen := Node.child?_then_conditional n first second hinstr
  have helse := Node.child?_else_conditional n first second hinstr
  refine (compileExpr_conditional_eq_ok hop).2 ⟨type, use, condition, t₁, rest, ?_, ?_, ?_, ?_, rfl⟩
  · rwa [Signature.ofNode_congr (Node.signature_conditional n first second hinstr)]
  · rwa [Node.condition_conditional n first second hinstr]
  · rw [Node.hasChild, hthen]
    rfl
  · refine refines_branches (n := n) (m := ⟨n.toHead, n.signature ++ (inside ++ n.branches first second)⟩)
      rfl ?_ (fun env => ?_) (fun h env => ?_) _ _ _ hrest
    · rw [Node.hasChild, helse]
      cases n.hasChild "else" <;> rfl
    · have hbranch : Node.branch ⟨n.toHead, n.signature ++ (inside ++ n.branches first second)⟩ "then" =
          first := by
        rw [Node.branch, hthen]
        rfl
      rw [hbranch]
      exact hfirst env
    · have hbranch : Node.branch ⟨n.toHead, n.signature ++ (inside ++ n.branches first second)⟩ "else" =
          second := by
        rw [Node.branch, helse, if_pos h]
        rfl
      rw [hbranch]
      exact hsecond env

/-! A form whose parts were respelled compiles to what it compiled to with
the parts as they were. -/

section respell

variable [HexReader] {n : Node} {op : Opcode} {style : Style} {env : Env}
  {inside first second : List Expr}
variable (hinstr : ∀ e ∈ inside, e.IsInstr)
variable (hinside : ∀ env, (compileAll env n.inside).Refines (compileAll env inside))

include hinstr hinside

/-- A block compiles with its body respelled. -/
theorem refines_block (hop : Opcode.ofName? n.instr = some op)
    (hs : op.shape = .structured) (hc : op ≠ .conditional) :
    (compileExpr env n.toExpr).Refines (compileAll env (n.respell style inside first second)) := by
  have hplain := fun e he => (hinstr e he).isSignature_eq_false
  have hbody : n.inside = n.body := Node.inside_of_structured hop hs hc
  intro t t' instrs hrun
  rw [Node.respell_block (Node.instr_of_structured hop hs hc)]
  refine compileAll_singleton ?_
  rw [Node.toExpr, compileExpr_block hop hs hc] at hrun
  rw [compileExpr_block hop hs hc, Node.body_append hplain]
  simp only [Signature.ofNode_congr (Node.signature_append hplain)]
  refine Typing.Refines.bind (.refl _) (fun sig => .bind (.refl _) fun block => .bind ?_ fun body =>
    .refl _) t t' instrs hrun
  exact hbody ▸ hinside _

/-- **A conditional compiles** with its parts respelled, and with its
condition before it or inside. -/
theorem refines_conditional (hop : Opcode.ofName? n.instr = some .conditional)
    (hfirst : ∀ env, (compileAll env (n.branch "then")).Refines (compileAll env first))
    (hsecond : ∀ env, (compileAll env (n.branch "else")).Refines (compileAll env second)) :
    (compileExpr env n.toExpr).Refines (compileAll env (n.respell style inside first second)) := by
  intro t t' instrs hrun
  obtain ⟨type, use, condition, t₁, rest, hsig, hcondition, -, hrest, rfl⟩ :=
    (compileExpr_conditional_eq_ok hop).1 hrun
  rw [← Node.inside_of_conditional hop] at hcondition
  have hbefore := hinside env _ _ _ hcondition
  rw [Node.respell_if (Node.instr_of_conditional hop)]
  split
  · -- the condition has registered its types by the time the construct is reached
    have hsig' := Signature.ofNode_of_grows (compileAll_linear hcondition).1 hsig
    exact compileAll_append hbefore (compileAll_singleton
      (compileExpr_conditional_append [] hop (List.forall_mem_nil _) hsig' (compileAll_nil_eq env t₁)
        hfirst hsecond hrest))
  · exact compileAll_singleton
      (compileExpr_conditional_append _ hop hinstr hsig hbefore hfirst hsecond hrest)

/-- **An indirect call compiles** with its operands before it or inside.
The type that it names is in the table by then, either way. -/
theorem refines_indirect (hop : Opcode.ofName? n.instr = some op)
    (hs : op.shape = .indirect) (htype : n.NamesType) :
    (compileExpr env n.toExpr).Refines (compileAll env (n.respell style inside first second)) := by
  have hplain := fun e he => (hinstr e he).isSignature_eq_false
  intro t t' instrs hrun
  obtain ⟨type, t₁, operands, htypes, hoperands, rfl⟩ :=
    (compileExpr_indirect_eq_ok hop hs).1 hrun
  -- the type is there before the operands are, and still there after them
  obtain ⟨rfl, hlater⟩ := callType_of_grows htype htypes
  have hgrow := (compileAll_linear hoperands).1
  rw [← Node.inside_of_indirect hop hs] at hoperands
  have hbefore := hinside env _ _ _ hoperands
  rw [Node.respell_other (by simp [Node.instr_of_indirect hop hs])]
  split
  · have hsame : Node.signature ⟨n.toHead, n.signature⟩ = n.signature := n.filter_signature
    have hnone : Node.body ⟨n.toHead, n.signature ++ []⟩ = [] := Node.body_append (List.forall_mem_nil _)
    rw [List.append_nil] at hnone
    refine compileAll_append hbefore (compileAll_singleton ?_)
    rw [compileExpr_indirect_eq_ok hop hs, hnone, callType_congr hsame]
    exact ⟨type, t', [], hlater t' hgrow, compileAll_nil_eq env t', rfl⟩
  · refine compileAll_singleton ?_
    rw [compileExpr_indirect_eq_ok hop hs, Node.body_append hplain,
      callType_congr (Node.signature_append hplain)]
    exact ⟨type, _, operands, htypes, hbefore, rfl⟩

omit hinstr in
/-- A plain instruction compiles with its operands before it or inside. -/
theorem refines_plain (hop : Opcode.ofName? n.instr = some op) (hs : op.shape.IsPlain)
    (hsignature : n.signature = []) :
    (compileExpr env n.toExpr).Refines (compileAll env (n.respell style inside first second)) := by
  have hname := Node.instr_of_plain hop hs
  simp only [List.mem_cons, List.not_mem_nil, or_false, not_or] at hname
  have hall : n.inside = n.children := by
    rw [Node.inside, if_neg hname.2.2.1, Node.body]
    exact List.filter_eq_self.2 fun e he => by simpa using List.filter_eq_nil_iff.1 hsignature e he
  intro t t' instrs hrun
  obtain ⟨operands, operand, hoperands, hoperand, rfl⟩ := (compileExpr_plain_eq_ok hop hs).1 hrun
  rw [← hall] at hoperands
  have hbefore := hinside env _ _ _ hoperands
  rw [Node.respell_other (by simp [hname]), hsignature, List.nil_append]
  split
  · exact compileAll_append hbefore (compileAll_singleton ((compileExpr_plain_eq_ok hop hs).2
      ⟨[], operand, compileAll_nil_eq env t', hoperand, rfl⟩))
  · exact compileAll_singleton ((compileExpr_plain_eq_ok hop hs).2
      ⟨operands, operand, hbefore, hoperand, rfl⟩)

end respell

/-- **A spelled instruction compiles to what it compiles to as a tree.** -/
theorem Expr.Spellable.refines_respell [HexReader] {e : Expr} (h : e.Spellable) (style : Style)
    (env : Env) :
    (compileExpr env e).Refines (compileAll env (e.respell style)) := by
  have hinstr : ∀ {es : List Expr}, (∀ e ∈ es, e.Spellable) →
      ∀ c ∈ es.flatMap (respell style), c.IsInstr := by
    intro es hes c hc
    obtain ⟨e, he, hc⟩ := List.mem_flatMap.1 hc
    exact (hes e he).isInstr_respell style c hc
  have hlist : ∀ {es : List Expr},
      (∀ e ∈ es, ∀ env, (compileExpr env e).Refines (compileAll env (e.respell style))) →
      ∀ env, (compileAll env es).Refines (compileAll env (es.flatMap (respell style))) :=
    fun ih env => refines_flatMap fun e he => ih e he env
  induction h generalizing env with
  | block hop hs hc _ hinside ih =>
      rw [respell_node]
      exact refines_block (hinstr hinside) (hlist ih) hop hs hc
  | conditional hop _ _ hinside _ _ ih iht ihe =>
      rw [respell_node]
      exact refines_conditional (hinstr hinside) (hlist ih) hop (hlist iht) (hlist ihe)
  | indirect hop hs htype _ hinside ih =>
      rw [respell_node]
      exact refines_indirect (hinstr hinside) (hlist ih) hop hs htype
  | plain hop hs hsignature _ _ ih =>
      rw [respell_node]
      exact refines_plain (hlist ih) hop hs hsignature

/-! ## What compiles can be spelled -/

/-- Trees in which every indirect call names its type. -/
inductive Expr.CallsNamed : Expr → Prop where
  | ref {name : String} {span : Span} : CallsNamed (.ref name span)
  | data {bytes : List UInt8} {span : Span} : CallsNamed (.data bytes span)
  | node {head : Head} {children : List Expr}
    (hcall : head.instr = "call_indirect" → Node.NamesType ⟨head, children⟩)
    (hchildren : ∀ e ∈ children, CallsNamed e) : CallsNamed (.node head children)

/-- Every call in a form names its type if the form does and those inside
do. -/
theorem Expr.callsNamed_node {head : Head} {children : List Expr} :
    (Expr.node head children).CallsNamed ↔
      (head.instr = "call_indirect" → Node.NamesType ⟨head, children⟩) ∧
        ∀ e ∈ children, e.CallsNamed := by
  constructor
  · rintro (_ | _ | ⟨hcall, hchildren⟩)
    exact ⟨hcall, hchildren⟩
  · rintro ⟨hcall, hchildren⟩
    exact .node hcall hchildren

section compile

variable {env : Env} {t t' : TypeTable} {es : List Expr} {instrs : List Instr} {n : Node}

/-- Where trees compile side by side, each of them does. -/
theorem exists_of_mem_compileAll [HexReader] (h : compileAll env es t = .ok instrs t') {e : Expr}
    (he : e ∈ es) :
    ∃ t₁ t₂ first, compileExpr env e t₁ = .ok first t₂ := by
  induction es generalizing t instrs with
  | nil => cases he
  | cons c es ih =>
      obtain ⟨first, t₁, rest, hfirst, hrest, -⟩ := compileAll_cons_eq_ok.1 h
      rcases List.mem_cons.1 he with rfl | he
      · exact ⟨t, t₁, first, hfirst⟩
      · exact ih hrest he

/-- A property of trees that passes to children passes to what is inside a
branch. -/
theorem Node.of_mem_branch {P : Expr → Prop} (hstep : ∀ n : Node, P n.toExpr → ∀ e ∈ n.children, P e)
    (h : P n.toExpr) {name : String} : ∀ e ∈ n.branch name, P e := by
  intro e he
  rw [branch] at he
  cases hb : n.child? name with
  | none => simp [hb] at he
  | some b =>
      have hin : e ∈ b.children := by simpa [hb] using he
      exact hstep b (hstep n h _ (exists_of_child? hb).1) e hin

end compile

namespace Expr

/-- Trees that can be written and in which every indirect call names its
type. -/
def Writable (e : Expr) : Prop := e.Printable Argument.Writable ∧ e.CallsNamed

/-- Children of what can be written can be written. -/
theorem Writable.child {n : Node} (h : n.toExpr.Writable) : ∀ e ∈ n.children, e.Writable := by
  obtain ⟨head, children⟩ := n
  obtain ⟨hprint, hcalls⟩ := h
  intro e he
  cases hprint with
  | node _ _ _ hchildren =>
      cases hcalls with
      | node _ hcalls => exact ⟨hchildren e he, hcalls e he⟩

theorem Writable.opens {n : Node} (h : n.toExpr.Writable) : n.Opens := by
  obtain ⟨hprint, -⟩ := h
  cases hprint with
  | node hhead _ _ hchildren =>
      exact ⟨hhead, fun e he => hchildren e (List.mem_of_mem_filter he)⟩

theorem Writable.namesType {n : Node} (h : n.toExpr.Writable) (hname : n.instr = "call_indirect") :
    n.NamesType := by
  obtain ⟨head, children⟩ := n
  cases h.2 with
  | node hcall _ => exact hcall hname

/-- **What compiles can be spelled.** -/
theorem Writable.spellable [HexReader] {e : Expr} (h : e.Writable) {env : Env} {t t' : TypeTable}
    {instrs : List Instr} (hrun : compileExpr env e t = .ok instrs t') : e.Spellable := by
  have hall : ∀ {es : List Expr} {env : Env} {t t' : TypeTable} {instrs : List Instr},
      (∀ e ∈ es, e.Writable) → (∀ e ∈ es, e.Writable → ∀ {env t t' instrs},
        compileExpr env e t = .ok instrs t' → e.Spellable) →
      compileAll env es t = .ok instrs t' → ∀ e ∈ es, e.Spellable := by
    intro es env t t' instrs hes ih hrun e he
    obtain ⟨_, _, _, hone⟩ := exists_of_mem_compileAll hrun he
    exact ih e he (hes e he) hone
  -- the labels of the constructs around play no part
  induction ([] : Labels), e using form_induction generalizing env t t' instrs with
  | ref labels name span => exact absurd hrun compileExpr_ref_ne_ok
  | data labels bytes span => exact absurd hrun compileExpr_data_ne_ok
  | stray labels head children hop => exact absurd hrun (compileExpr_stray_ne_ok hop)
  | block labels head children op hop hs hc ih =>
      have hbody := Node.inside_of_structured (n := ⟨head, children⟩) hop hs hc
      have hchild := Writable.child (n := ⟨head, children⟩) h
      obtain ⟨_, _, _, _, _, -, -, hbodies, -⟩ := (compileExpr_block_eq_ok hop hs hc).1 hrun
      refine Spellable.block (n := ⟨head, children⟩) hop hs hc (Writable.opens h) ?_
      rw [hbody]
      exact hall (fun e he => hchild e (List.mem_of_mem_filter he)) ih hbodies
  | conditional labels head children hop ihc iht ihe =>
      have hcond := Node.inside_of_conditional (n := ⟨head, children⟩) hop
      have hchild := Writable.child (n := ⟨head, children⟩) h
      have hinner : ∀ name, ∀ e ∈ Node.branch ⟨head, children⟩ name, e.Writable :=
        fun name => Node.of_mem_branch (n := ⟨head, children⟩) (fun n => Writable.child) h
      obtain ⟨_, _, _, _, _, -, hconditions, hthen, hbranches, -⟩ :=
        (compileExpr_conditional_eq_ok hop).1 hrun
      obtain ⟨_, _, _, _, _, -, hfirsts, hrest, -⟩ := compileBranches_eq_ok.1 hbranches
      refine Spellable.conditional (n := ⟨head, children⟩) hop (Writable.opens h) hthen ?_ ?_ ?_
      · rw [hcond]
        exact hall (fun e he => hchild e (List.mem_of_mem_filter he)) ihc hconditions
      · exact hall (hinner "then") iht hfirsts
      · rw [compileElse_eq_ok] at hrest
        split at hrest
        · obtain ⟨_, hseconds, -⟩ := hrest
          exact hall (hinner "else") ihe hseconds
        · next helse =>
            have hnone : Node.child? ⟨head, children⟩ "else" = none := by
              simpa [Node.hasChild] using helse
            simp [Node.branch, hnone]
  | indirect labels head children op hop hs ih =>
      have hname := Node.instr_of_indirect (n := ⟨head, children⟩) hop hs
      have hbody := Node.inside_of_indirect (n := ⟨head, children⟩) hop hs
      have hchild := Writable.child (n := ⟨head, children⟩) h
      obtain ⟨_, _, _, -, hoperands, -⟩ := (compileExpr_indirect_eq_ok hop hs).1 hrun
      refine Spellable.indirect (n := ⟨head, children⟩) hop hs (Writable.namesType h hname)
        (Writable.opens h) ?_
      rw [hbody]
      exact hall (fun e he => hchild e (List.mem_of_mem_filter he)) ih hoperands
  | plain labels head children op hop hs ih =>
      have hchild := Writable.child (n := ⟨head, children⟩) h
      obtain ⟨_, _, hoperands, -⟩ := (compileExpr_plain_eq_ok hop hs).1 hrun
      have hchildren := hall hchild ih hoperands
      have hsignature : Node.signature ⟨head, children⟩ = [] :=
        List.filter_eq_nil_iff.2 fun e he => by simp [(hchildren e he).isInstr.isSignature_eq_false]
      exact Spellable.plain (n := ⟨head, children⟩) hop hs hsignature (Writable.opens h)
        fun e he => hchildren e (Node.mem_children_of_mem_inside he)

end Expr

/-- **Respelled trees compile the same.** -/
theorem compileAll_respell [HexReader] {env : Env} {t t' : TypeTable} {es : List Expr}
    {instrs : List Instr}
    (hes : ∀ e ∈ es, e.Spellable) (h : compileAll env es t = .ok instrs t') (style : Style) :
    compileAll env (es.flatMap (Expr.respell style)) t = .ok instrs t' :=
  refines_flatMap (fun e he => (hes e he).refines_respell style env) t t' instrs h

end WasmText
