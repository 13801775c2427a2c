import WasmText.Compile
import WasmText.Literal.Hexadecimal
import WasmText.Proofs.Instruction.Signed
/-!
# Signatures on indirect calls

An indirect call has its type from its signature forms or from an argument.
From its forms, what they spell out is the entry at the index that is
encoded, whatever its operands register after it
(`written?_of_intern`). From an argument, the `param` and `result` forms
are passed over: the call compiles in the same way with any others in their
place, or with none (`compileExpr_of_argument`).
-/

namespace WasmText

/-- Whether a tree spells out parameters or results. -/
def Expr.isSpelling (e : Expr) : Bool := e.isNode "param" || e.isNode "result"

/-! ## Types given by forms -/

/-- What names mean once the type section is known. -/
def Names.meaning (names : Names) (types : List FuncType) : TypeNames :=
  fun name => (names.index? .type name).bind (types[·]?)

theorem Names.mean_meaning (names : Names) (types : List FuncType) :
    names.Mean types (names.meaning types) := by
  intro name i hi
  simp [meaning, hi]

/-- What a form of some signature spells out is that signature. -/
theorem Node.HasType.written? {types : List FuncType} {named : TypeNames} {n : Node}
    {type : FuncType} (h : n.HasType types named type) (hspells : n.spells = true) :
    n.written? = some type := by
  cases hhas : n.hasChild "type" with
  | true => exact h.agrees hhas hspells
  | false =>
      have hnone : n.child? "type" = none := by
        rw [Node.hasChild, Option.isSome_eq_false_iff, Option.isNone_iff_eq_none] at hhas
        exact hhas
      have hsignature := h.signature
      rwa [Node.signature?, hnone] at hsignature

/-- **What is spelled out is the entry** that a form is registered at, and
stays it as the table grows. -/
theorem written?_of_intern {names : Names} {table table' : TypeTable} {n : Node} {i : Nat}
    {final : List FuncType} (hfinal : table'.entries <+: final) (hspells : n.spells = true)
    (h : Signature.intern names table n = .ok (i, table')) :
    ∃ type, n.written? = some type ∧ final[i]? = some type := by
  obtain ⟨type, hform, hentry⟩ := Signature.hasType_of_intern (names.mean_meaning final) hfinal h
  exact ⟨type, hform.written? hspells, hentry⟩

/-! ## Types given by an argument -/

section Argument

variable {head : Head} {children others : List Expr}
  (hothers : others.filter (!·.isSpelling) = children.filter (!·.isSpelling))

include hothers

theorem body_eq_of_filter : Node.body ⟨head, others⟩ = Node.body ⟨head, children⟩ := by
  have hsplit : ∀ es : List Expr, es.filter (!·.isSignature) =
      (es.filter (!·.isSpelling)).filter (!·.isSignature) := by
    intro es
    rw [List.filter_filter]
    refine List.filter_congr fun e _ => ?_
    cases hparam : e.isNode "param" <;> cases hresult : e.isNode "result" <;>
      simp [Expr.isSignature, Expr.isSpelling, hparam, hresult]
  rw [Node.body, Node.body, hsplit, hothers, ← hsplit]

theorem hasChild_eq_of_filter :
    Node.hasChild ⟨head, others⟩ "type" = Node.hasChild ⟨head, children⟩ "type" := by
  have hany : ∀ es : List Expr, Node.hasChild ⟨head, es⟩ "type" =
      (es.filter (!·.isSpelling)).any (·.isNode "type") := by
    intro es
    rw [Node.hasChild_eq, Node.childNodes, List.any_filterMap, List.any_filter]
    congr 1
    funext e
    cases e with
    | node inner inside =>
        simp only [Expr.node?, Expr.isSpelling, Expr.isNode]
        by_cases htype : inner.instr = "type"
        · simp [htype]
        · simp [htype]
    | _ => simp [Expr.node?, Expr.isNode]
  rw [hany, hothers, ← hany]

/-- **A call with an argument passes over what it spells out.** -/
theorem compileExpr_of_argument [HexReader] {env : Env} {op : Opcode}
    (hop : Opcode.ofName? head.instr = some op) (hs : op.shape = .indirect) {p : Param}
    {ps : List Param} (hargs : head.arguments = p :: ps) :
    compileExpr env (.node head others) = compileExpr env (.node head children) := by
  have hhas : Node.hasChild ⟨head, others⟩ "type" = Node.hasChild ⟨head, children⟩ "type" :=
    hasChild_eq_of_filter hothers
  have hcall : callType env.names ⟨head, others⟩ = callType env.names ⟨head, children⟩ := by
    simp only [callType, hargs, hhas]
    -- neither way to go on from an argument asks for the forms
    rcases ps with _ | ⟨extra, ps⟩ <;> cases Node.hasChild ⟨head, children⟩ "type" <;> rfl
  rw [compileExpr_indirect hop hs, compileExpr_indirect hop hs, hcall, body_eq_of_filter hothers]

end Argument

/-! ## Calls -/

/-- **Where a signature on an indirect call counts.** In the code of an
indirect call the last instruction has the index of a type. If the call has
its type from its forms, the entry there is exactly what its `param` and
`result` forms spell out, if there are any. If it has its type from an
argument, the entry is the one that the argument refers to, and those forms
are never looked at. -/
theorem call_signature_stands [HexReader] {env : Env} {head : Head} {children : List Expr}
    {t t' : TypeTable} {instrs : List Instr} (hcall : head.instr = "call_indirect")
    (h : compileExpr env (.node head children) t = .ok instrs t') :
    ∃ operands i, instrs = operands ++ [.op ⟨"call_indirect", 0x11, .indirect⟩ (.indirect i)] ∧
      Instr.encodeAll instrs = Instr.encodeAll operands ++ 0x11 :: Leb128.unsigned i ++ [0x00] ∧
      (head.arguments = [] → Node.spells ⟨head, children⟩ = true →
        ∃ type, Node.written? ⟨head, children⟩ = some type ∧ t'.at? i = some type) ∧
      (head.arguments ≠ [] →
        (∃ p, head.arguments = [p] ∧ Signature.referred env.names t p = .ok i) ∧
          t'.at? i = t.at? i ∧
          ∀ others, others.filter (!·.isSpelling) = children.filter (!·.isSpelling) →
            compileExpr env (.node head others) t = .ok instrs t') := by
  have hop : Opcode.ofName? head.instr = some ⟨"call_indirect", 0x11, .indirect⟩ := by
    rw [hcall]
    decide
  obtain ⟨i, t₁, operands, htype, hoperands, rfl⟩ := (compileExpr_indirect_eq_ok hop rfl).1 h
  -- the operands may register types, after the one of the call
  have hgrow := (compileAll_linear hoperands).1.isPrefix
  refine ⟨operands, i, rfl, by simp [Instr.encode, Immediate.encode], ?_, ?_⟩
  · intro hargs hspells
    obtain ⟨-, hintern⟩ | ⟨p, hp, -⟩ := callType_iff.1 htype
    · exact written?_of_intern hgrow hspells hintern
    · cases hp.symm.trans hargs
  · intro hargs
    obtain ⟨hnone, -⟩ | ⟨p, hp, -, hreferred, rfl⟩ := callType_iff.1 htype
    · exact absurd hnone hargs
    · refine ⟨⟨p, hp, hreferred⟩, ?_, fun others hothers => ?_⟩
      · exact getElem?_of_isPrefix hgrow (Signature.referred_eq_ok hreferred).2
      · rw [compileExpr_of_argument hothers hop rfl hp]
        exact h

/-- A call that spells out its type, with a block among its operands that
registers another. -/
def spelledCall : Expr :=
  let form (instr : String) (children : List Expr) : Expr :=
    .node ⟨instr, none, [], .zero⟩ children
  form "call_indirect" [form "param" [form "i32" []], form "result" [form "f64" []],
    form "block" [form "param" [form "i64" []]]]

def spelledCallCode : List Instr :=
  [.op ⟨"block", 0x02, .structured⟩ (.block (.index 1)), .close,
    .op ⟨"call_indirect", 0x11, .indirect⟩ (.indirect 0)]

theorem call_signature_stands_spelled :
    compileExpr ⟨.empty, [], []⟩ spelledCall .empty =
        .ok spelledCallCode (.ofEntries [⟨[.i32], [.f64]⟩, ⟨[.i64], []⟩]) ∧
      ∃ operands i, spelledCallCode =
          operands ++ [.op ⟨"call_indirect", 0x11, .indirect⟩ (.indirect i)] ∧
        ∃ type, spelledCall.node?.bind Node.written? = some type ∧
          TypeTable.at? (.ofEntries [⟨[.i32], [.f64]⟩, ⟨[.i64], []⟩]) i = some type := by
  have h : compileExpr ⟨.empty, [], []⟩ spelledCall .empty =
    .ok spelledCallCode (.ofEntries [⟨[.i32], [.f64]⟩, ⟨[.i64], []⟩]) := rfl
  obtain ⟨operands, i, hcode, -, hforms, -⟩ := call_signature_stands rfl h
  exact ⟨h, operands, i, hcode, hforms rfl (by decide)⟩

/-- A call with its type from an argument, and another signature on it. -/
def contradictingCall : String :=
  "(type $t (func)) (func (call_indirect $t (param i64) (i64.const 0) (i32.const 0)))"

/-- **A signature is ignored**: the call is of type 0, which has no
parameters, and spells out one. -/
theorem contradictingCall_compiles :
    compile contradictingCall = .ok [0x00, 0x61, 0x73, 0x6D, 0x01, 0x00, 0x00, 0x00,
        1, 4, 1, 0x60, 0, 0, 3, 2, 1, 0, 10, 11, 1, 9, 0, 0x42, 0, 0x41, 0, 0x11, 0, 0, 0x0B] ∧
      ((parse contradictingCall).toOption.bind fun n =>
        ((n.toExpr.descend? [1, 0]).bind Expr.node?).bind Node.written?) = some ⟨[.i64], []⟩ := by
  decide +kernel

end WasmText
