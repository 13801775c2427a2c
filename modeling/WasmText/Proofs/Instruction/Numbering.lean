import WasmText.Proofs.Instruction.Respelling
/-!
# Numbers in place of names

A name of a function, a global, a local or a construct that stands as the
operand of an instruction means an index, and the index can be written in
its place. Any number of names may give way to their indices, at any depth
(`Expr.Numbered`), and the tree compiles to the same instructions
(`compileAll_numbered`).
-/

namespace WasmText

/-! ## Decimal numbers -/

theorem digit?_digitChar {d : Nat} (h : d < 10) : digit? 10 d.digitChar = some d := by
  have hall : ∀ d < 10, digit? 10 d.digitChar = some d := by decide
  exact hall d h

namespace Literal

/-- The decimal digits of a number denote it. -/
theorem digits?_toDigits (n : Nat) : digits? 10 (Nat.toDigits 10 n) = some n := by
  have hfold :
      (Nat.toDigits 10 n).foldlM (fun n c => (digit? 10 c).map (10 * n + ·)) 0 = some n := by
    induction n using Nat.strongRecOn with
    | _ n ih =>
        by_cases hn : n < 10
        · simp [Nat.toDigits_of_lt_base hn, digit?_digitChar hn]
        · have hdigit : n % 10 < 10 := Nat.mod_lt n (by omega)
          have hsplit : 10 * (n / 10) + n % 10 = n := Nat.div_add_mod n 10
          rw [Nat.toDigits_of_base_le (by omega) (by omega), List.foldlM_append,
            ih (n / 10) (by omega)]
          simp [digit?_digitChar hdigit, hsplit]
  unfold digits?
  split
  next hnil => exact absurd hnil Nat.toDigits_ne_nil
  next => exact hfold

/-- **An index is read back from its decimal digits.** -/
theorem natural?_toString {n : Nat} (h : n < 2 ^ 32) : natural? (toString n).toList = some n := by
  have hdigit : ∀ c ∈ Nat.toDigits 10 n, c.isDigit = true := fun c hc =>
    Nat.isDigit_of_mem_toDigits (by omega) (by omega) hc
  have hdigits := digits?_toDigits n
  rw [Nat.toString_eq_ofList_toDigits, String.toList_ofList]
  -- no digit is a sign or the mark for hexadecimal digits
  have hsign : splitSign (Nat.toDigits 10 n) = (false, Nat.toDigits 10 n) := by
    unfold splitSign
    split
    · simp_all
    · simp_all
    · rfl
  have hmark : afterHexMark? (Nat.toDigits 10 n) = none := by
    unfold afterHexMark?
    split
    · simp_all
    · simp_all
    · rfl
  rw [natural?, hsign]
  simp only [magnitude?, hmark, hdigits]
  exact Option.filter_eq_some_iff.2 ⟨rfl, by simpa using h⟩

end Literal

/-! ## Operands -/

/-- What a name means as an operand of an instruction of the given
shape. -/
def Env.lookup? (env : Env) : Shape → String → Option Nat
  | .label | .labels => env.labels.depth?
  | .function => env.index? .function
  | .local => env.index? .local
  | .global => env.index? .global
  | _ => fun _ => none

/-- An argument as it is, or the decimal index that its name means. -/
def Param.Numbered (lookup : String → Option Nat) (p p' : Param) : Prop :=
  p' = p ∨ ∃ name i, p.arg = .label name ∧ lookup name = some i ∧ i < 2 ^ 32 ∧
    p'.arg = .number (toString i)

/-- A name and its number give the same index. -/
theorem Param.Numbered.index? {lookup : String → Option Nat} {p p' : Param}
    (h : p.Numbered lookup p') {i : Nat} (hi : p.index? lookup = some i) :
    p'.index? lookup = some i := by
  obtain rfl | ⟨name, j, hname, hj, hlt, hnumber⟩ := h
  · exact hi
  · simp only [Param.index?, hname] at hi
    obtain rfl : j = i := Option.some.inj (hj.symm.trans hi)
    simp only [Param.index?, hnumber, Argument.numeric?, Option.bind_some]
    exact Literal.natural?_toString hlt

section immediate

variable {env : Env} {head head' : Head} {i : Immediate}

/-- Where no name is looked up, no argument changes. -/
theorem arguments_of_numbered
    (h : List.Forall₂ (Param.Numbered fun _ => none) head.arguments head'.arguments) :
    head'.arguments = head.arguments := by
  have heq : List.Forall₂ (fun p p' => p = p') head.arguments head'.arguments :=
    h.imp fun p p' hp => (hp.resolve_right fun ⟨_, _, _, hnone, _⟩ => by cases hnone).symm
  exact (List.forall₂_eq_eq_eq ▸ heq : head.arguments = head'.arguments).symm

/-- The only argument may be a name or its number. -/
theorem soleArgument_numbered {lookup : String → Option Nat} {p : Param}
    (h : List.Forall₂ (Param.Numbered lookup) head.arguments head'.arguments)
    (hp : soleArgument head = .ok p) :
    ∃ p', soleArgument head' = .ok p' ∧ p.Numbered lookup p' := by
  rw [soleArgument_eq_ok.1 hp] at h
  obtain ⟨p', rest, hpp', hrest, harguments⟩ := List.forall₂_cons_left_iff.1 h
  rw [List.forall₂_nil_left_iff.1 hrest] at harguments
  exact ⟨p', soleArgument_eq_ok.2 harguments, hpp'⟩

/-- An index that is an instruction's only operand. -/
theorem index_numbered {space : Space}
    (h : List.Forall₂ (Param.Numbered (env.index? space)) head.arguments head'.arguments)
    (hi : (do return .index (← env.index space (← soleArgument head)) :
      Except CompileError Immediate) = .ok i) :
    (do return .index (← env.index space (← soleArgument head')) :
      Except CompileError Immediate) = .ok i := by
  obtain ⟨p, hp, hi⟩ := bind_eq_ok.1 hi
  obtain ⟨n, hn, hi⟩ := bind_eq_ok.1 hi
  obtain ⟨p', hp', hpp'⟩ := soleArgument_numbered h hp
  refine bind_eq_ok.2 ⟨p', hp', bind_eq_ok.2 ⟨n, ?_, hi⟩⟩
  exact Env.index_eq_ok.2 (hpp'.index? (Env.index_eq_ok.1 hn))

/-- Branches may name their labels or count them. -/
theorem branchDepth_numbered
    (h : List.Forall₂ (Param.Numbered env.labels.depth?) head.arguments head'.arguments)
    {depths : List Nat} (hdepths : head.arguments.mapM env.branchDepth = .ok depths) :
    head'.arguments.mapM env.branchDepth = .ok depths := by
  refine mapM_eq_ok.2 ?_
  refine (forall₂_comp h.flip (mapM_eq_ok.1 hdepths)).imp fun p' depth ⟨p, hp, hdepth⟩ => ?_
  exact Env.branchDepth_eq_ok.2 (Param.Numbered.index? hp (Env.branchDepth_eq_ok.1 hdepth))

theorem refuseArguments_congr {u : Unit} (h : head'.arguments = head.arguments)
    (hu : refuseArguments head = .ok u) : refuseArguments head' = .ok u :=
  refuseArguments_eq_ok.2 (h.trans (refuseArguments_eq_ok.1 hu))

theorem constantArgument_congr {α : Type} {read : String → Span → Except CompileError α} {a : α}
    (h : head'.arguments = head.arguments) (ha : constantArgument read head = .ok a) :
    constantArgument read head' = .ok a := by
  obtain ⟨p, hp, ha⟩ := bind_eq_ok.1 ha
  exact bind_eq_ok.2 ⟨p, soleArgument_eq_ok.2 (h.trans (soleArgument_eq_ok.1 hp)), ha⟩

/-- **The immediate of an instruction** is the same with indices in place
of names. -/
theorem immediate_numbered [HexReader] {shape : Shape}
    (h : List.Forall₂ (Param.Numbered (env.lookup? shape)) head.arguments head'.arguments)
    (hi : immediate env shape head = .ok i) : immediate env shape head' = .ok i := by
  cases shape with
  | label =>
      obtain ⟨p, hp, hi⟩ := bind_eq_ok.1 hi
      obtain ⟨n, hn, hi⟩ := bind_eq_ok.1 hi
      obtain ⟨p', hp', hpp'⟩ := soleArgument_numbered h hp
      refine bind_eq_ok.2 ⟨p', hp', bind_eq_ok.2 ⟨n, ?_, hi⟩⟩
      exact Env.branchDepth_eq_ok.2 (hpp'.index? (Env.branchDepth_eq_ok.1 hn))
  | labels =>
      obtain ⟨depths, hdepths, hi⟩ := bind_eq_ok.1 hi
      refine bind_eq_ok.2 ⟨depths, branchDepth_numbered h hdepths, ?_⟩
      cases hlast : depths.getLast? with
      | none =>
          rw [hlast] at hi
          exact absurd hi throw_ne_ok
      | some default =>
          rw [hlast] at hi
          exact hi
  | function => exact index_numbered h hi
  | «local» => exact index_numbered h hi
  | global => exact index_numbered h hi
  | none | structured | indirect | memory =>
      obtain ⟨u, hu, hi⟩ := bind_eq_ok.1 hi
      exact bind_eq_ok.2 ⟨u, refuseArguments_congr (arguments_of_numbered h) hu, hi⟩
  | access natural =>
      obtain ⟨access, haccess, hi⟩ := bind_eq_ok.1 hi
      rw [← arguments_of_numbered h] at haccess
      exact bind_eq_ok.2 ⟨access, haccess, hi⟩
  | i32 | i64 | f32 | f64 =>
      obtain ⟨value, hvalue, hi⟩ := bind_eq_ok.1 hi
      exact bind_eq_ok.2 ⟨value, constantArgument_congr (arguments_of_numbered h) hvalue, hi⟩

end immediate

/-! ## Trees -/

mutual

/-- A tree with any of its names given way to the indices that they mean.
Signatures stay as they are. The trees inside a construct are one label
deeper, but the condition of a conditional is outside. -/
inductive Expr.Numbered : Env → Expr → Expr → Prop where
  | same (env : Env) (e : Expr) : Numbered env e e
  | block {env : Env} {head : Head} {children children' : List Expr} {op : Opcode}
      (hop : Opcode.ofName? head.instr = some op) (hs : op.shape = .structured)
      (hc : op ≠ .conditional)
      (hsignature : Node.signature ⟨head, children'⟩ = Node.signature ⟨head, children⟩)
      (hbody : NumberedAll (env.enter head.label?) (Node.body ⟨head, children⟩)
        (Node.body ⟨head, children'⟩)) :
    Numbered env (.node head children) (.node head children')
  | conditional {env : Env} {head : Head} {children children' : List Expr}
      (hop : Opcode.ofName? head.instr = some .conditional)
      (hsignature : Node.signature ⟨head, children'⟩ = Node.signature ⟨head, children⟩)
      (hcondition : NumberedAll env (Node.condition ⟨head, children⟩)
        (Node.condition ⟨head, children'⟩))
      (hthen : Node.hasChild ⟨head, children'⟩ "then" = Node.hasChild ⟨head, children⟩ "then")
      (hfirst : NumberedAll (env.enter head.label?) (Node.branch ⟨head, children⟩ "then")
        (Node.branch ⟨head, children'⟩ "then"))
      (helse : Node.hasChild ⟨head, children'⟩ "else" = Node.hasChild ⟨head, children⟩ "else")
      (hsecond : NumberedAll (env.enter head.label?) (Node.branch ⟨head, children⟩ "else")
        (Node.branch ⟨head, children'⟩ "else")) :
    Numbered env (.node head children) (.node head children')
  | indirect {env : Env} {head : Head} {children children' : List Expr} {op : Opcode}
      (hop : Opcode.ofName? head.instr = some op) (hs : op.shape = .indirect)
      (hsignature : Node.signature ⟨head, children'⟩ = Node.signature ⟨head, children⟩)
      (hbody : NumberedAll env (Node.body ⟨head, children⟩) (Node.body ⟨head, children'⟩)) :
    Numbered env (.node head children) (.node head children')
  | plain {env : Env} {head head' : Head} {children children' : List Expr} {op : Opcode}
      (hop : Opcode.ofName? head.instr = some op) (hs : op.shape.IsPlain)
      (hinstr : head'.instr = head.instr)
      (harguments : List.Forall₂ (Param.Numbered (env.lookup? op.shape)) head.arguments
        head'.arguments)
      (hchildren : NumberedAll env children children') :
    Numbered env (.node head children) (.node head' children')

/-- The same for trees in a row. -/
inductive Expr.NumberedAll : Env → List Expr → List Expr → Prop where
  | nil (env : Env) : NumberedAll env [] []
  | cons {env : Env} {e e' : Expr} {es es' : List Expr} (h : Expr.Numbered env e e')
      (hrest : NumberedAll env es es') : NumberedAll env (e :: es) (e' :: es')

end

theorem Expr.NumberedAll.refl (env : Env) (es : List Expr) : Expr.NumberedAll env es es := by
  induction es with
  | nil => exact .nil env
  | cons e es ih => exact .cons (.same env e) ih

/-! ## Forms compile as their parts do -/

namespace Typing.Refines

variable {env : Env} {head head' : Head} {children children' : List Expr} {op : Opcode}

theorem read {α : Type} {f g : TypeTable → Except CompileError α}
    (h : ∀ table a, f table = .ok a → g table = .ok a) : (Typing.read f).Refines (Typing.read g) := by
  intro t t' a ha
  obtain ⟨ha, ht⟩ := read_eq_ok.1 ha
  exact read_eq_ok.2 ⟨h t a ha, ht⟩

/-- A block compiles alike if its signature and its body do. -/
theorem block [HexReader] (hop : Opcode.ofName? head.instr = some op) (hs : op.shape = .structured)
    (hc : op ≠ .conditional)
    (hsignature : ∀ table sig, Signature.ofNode env.names table ⟨head, children⟩ = .ok sig →
      Signature.ofNode env.names table ⟨head, children'⟩ = .ok sig)
    (hbody : (compileAll (env.enter head.label?) (Node.body ⟨head, children⟩)).Refines
      (compileAll (env.enter head.label?) (Node.body ⟨head, children'⟩))) :
    (compileExpr env (.node head children)).Refines (compileExpr env (.node head children')) := by
  rw [compileExpr_block hop hs hc, compileExpr_block hop hs hc]
  exact (read hsignature).bind fun sig => (refl _).bind fun block => hbody.bind fun body => refl _

/-- A conditional compiles alike if its signature, its condition and its
first branches do. -/
theorem conditional [HexReader] (hop : Opcode.ofName? head.instr = some .conditional)
    (hsignature : ∀ table sig, Signature.ofNode env.names table ⟨head, children⟩ = .ok sig →
      Signature.ofNode env.names table ⟨head, children'⟩ = .ok sig)
    (hcondition : (compileAll env (Node.condition ⟨head, children⟩)).Refines
      (compileAll env (Node.condition ⟨head, children'⟩)))
    (hthen : Node.hasChild ⟨head, children'⟩ "then" = Node.hasChild ⟨head, children⟩ "then")
    (hfirst : (compileAll (env.enter head.label?) (Node.branch ⟨head, children⟩ "then")).Refines
      (compileAll (env.enter head.label?) (Node.branch ⟨head, children'⟩ "then")))
    (helse : Node.hasChild ⟨head, children'⟩ "else" = Node.hasChild ⟨head, children⟩ "else")
    (hsecond : (compileAll (env.enter head.label?) (Node.branch ⟨head, children⟩ "else")).Refines
      (compileAll (env.enter head.label?) (Node.branch ⟨head, children'⟩ "else"))) :
    (compileExpr env (.node head children)).Refines (compileExpr env (.node head children')) := by
  rw [compileExpr_conditional hop, compileExpr_conditional hop]
  simp only [hthen, helse]
  refine (read hsignature).bind fun sig => hcondition.bind fun condition => ?_
  split
  · refine (refl _).bind fun block => hfirst.bind fun first => ?_
    split
    · exact hsecond.bind fun second => refl _
    · exact refl _
  · exact refl _

/-- The type of a call depends on its signature only. -/
theorem of_signature {names : Names}
    (h : Node.signature ⟨head, children'⟩ = Node.signature ⟨head, children⟩) :
    (callType names ⟨head, children⟩).Refines (callType names ⟨head, children'⟩) := by
  rw [callType_congr (n := ⟨head, children⟩) h]
  exact refl _

/-- An indirect call compiles alike if its type and its operands do. -/
theorem indirect [HexReader] (hop : Opcode.ofName? head.instr = some op) (hs : op.shape = .indirect)
    (hcall : (callType env.names ⟨head, children⟩).Refines (callType env.names ⟨head, children'⟩))
    (hbody : (compileAll env (Node.body ⟨head, children⟩)).Refines
      (compileAll env (Node.body ⟨head, children'⟩))) :
    (compileExpr env (.node head children)).Refines (compileExpr env (.node head children')) := by
  rw [compileExpr_indirect hop hs, compileExpr_indirect hop hs]
  exact hcall.bind fun type => hbody.bind fun operands => refl _

/-- A plain instruction compiles alike if its immediate and its operands
do. -/
theorem plain [HexReader] (hop : Opcode.ofName? head.instr = some op) (hs : op.shape.IsPlain)
    (hinstr : head'.instr = head.instr)
    (himmediate : ∀ i, immediate env op.shape head = .ok i → immediate env op.shape head' = .ok i)
    (hchildren : (compileAll env children).Refines (compileAll env children')) :
    (compileExpr env (.node head children)).Refines (compileExpr env (.node head' children')) := by
  have hop' : Opcode.ofName? head'.instr = some op := hinstr ▸ hop
  rw [compileExpr_plain hop hs, compileExpr_plain hop' hs]
  refine hchildren.bind fun operands => bind ?_ fun operand => refl _
  intro t t' i hi
  obtain ⟨hi, ht⟩ := check_eq_ok.1 hi
  exact check_eq_ok.2 ⟨himmediate i hi, ht⟩

end Typing.Refines

mutual

/-- A tree with numbers for names compiles to what the tree does. -/
theorem compileExpr_numbered [HexReader] {env : Env} {e e' : Expr} : Expr.Numbered env e e' →
    (compileExpr env e).Refines (compileExpr env e')
  | .same _ _ => .refl _
  | .block hop hs hc hsignature hbody =>
      .block hop hs hc (fun _ _ => (Signature.ofNode_congr hsignature).trans)
        (compileAll_numbered hbody)
  | .conditional hop hsignature hcondition hthen hfirst helse hsecond =>
      .conditional hop (fun _ _ => (Signature.ofNode_congr hsignature).trans)
        (compileAll_numbered hcondition) hthen (compileAll_numbered hfirst) helse
        (compileAll_numbered hsecond)
  | .indirect hop hs hsignature hbody =>
      .indirect hop hs (.of_signature hsignature) (compileAll_numbered hbody)
  | .plain hop hs hinstr harguments hchildren =>
      .plain hop hs hinstr (fun _ => immediate_numbered harguments) (compileAll_numbered hchildren)

/-- **Numbers for names** change nothing in what a body compiles to. -/
theorem compileAll_numbered [HexReader] {env : Env} {es es' : List Expr} :
    Expr.NumberedAll env es es' → (compileAll env es).Refines (compileAll env es')
  | .nil _ => .refl _
  | .cons he hrest => by
      rw [compileAll_cons, compileAll_cons]
      exact (compileExpr_numbered he).bind fun first =>
        (compileAll_numbered hrest).bind fun rest => .refl _

end

end WasmText
