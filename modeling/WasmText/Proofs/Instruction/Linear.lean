import WasmText.Instruction.Body
import WasmText.Proofs.Instruction.Reader
import WasmText.Proofs.Module.Types
/-!
# The linear form of instruction trees

What a tree of forms means as a sequence, said without compiling it. A
form is laid out in pieces: its operands before it, its body between it
and its end mark, the branches of a conditional divided by a mark
(`Expr.layout`). Laying out the pieces again and again gives the linear
form, a list of marks (`Expr.linear`). A mark keeps the form it stands for
and the labels of the constructs around it, innermost first.

A mark is an instruction once its operands are known
(`Mark.instr?`): names are looked up in the spaces of the module, the
function and the labels, numbers are read, and a signature is where the
type table has it. The table asked is the one at the end, since an entry
never moves.
-/

namespace WasmText

/-- A plain instruction has neither a body nor a signature. -/
def Shape.IsPlain (shape : Shape) : Prop := shape ≠ .structured ∧ shape ≠ .indirect

/-- One place of the linear form. -/
inductive Mark where
  | instr (op : Opcode) (form : Node) (labels : Labels)
  /-- Divides the branches of a conditional. -/
  | otherwise
  /-- Ends a construct. -/
  | close
  /-- A tree that is no instruction. -/
  | stray

/-- A part of a form: a mark, or a tree with the labels around it. -/
inductive Piece where
  | mark (mark : Mark)
  | tree (labels : Labels) (e : Expr)

namespace Node

/-- The children that do not give a signature. -/
def body (n : Node) : List Expr := n.children.filter (!·.isSignature)

/-- The children of a conditional that come before it. -/
def condition (n : Node) : List Expr := n.children.filter isCondition

/-- The trees inside the first child of the given name. -/
def branch (n : Node) (name : String) : List Expr := ((n.child? name).map (·.children)).getD []

end Node

/-- The pieces of a form. The condition of a conditional is outside its
label, its branches are inside. -/
def Expr.layout (labels : Labels) : Expr → List Piece
  | .node head children =>
    match Opcode.ofName? head.instr with
    | none => [.mark .stray]
    | some op =>
      let n : Node := ⟨head, children⟩
      let here : Piece := .mark (.instr op n labels)
      let inner := head.label? :: labels
      match op.shape with
      | .structured =>
        if op = .conditional then
          n.condition.map (.tree labels) ++ here :: (n.branch "then").map (.tree inner) ++
            (if n.hasChild "else" then .mark .otherwise :: (n.branch "else").map (.tree inner)
              else []) ++ [.mark .close]
        else here :: n.body.map (.tree inner) ++ [.mark .close]
      | .indirect => n.body.map (.tree labels) ++ [here]
      | _ => children.map (.tree labels) ++ [here]
  | _ => [.mark .stray]

/-! ## Sizes -/

namespace Node

/-- The first child of a name is a child, and has the name. -/
theorem exists_of_child? {n b : Node} {name : String} (h : n.child? name = some b) :
    .node b.toHead b.children ∈ n.children ∧ b.instr = name := by
  have hmem := List.mem_of_find?_eq_some h
  obtain ⟨e, he, hb⟩ := List.mem_filterMap.1 hmem
  cases e with
  | ref => simp [Expr.node?] at hb
  | data => simp [Expr.node?] at hb
  | node head children =>
      obtain rfl : (⟨head, children⟩ : Node) = b := by simpa [Expr.node?] using hb
      exact ⟨he, by simpa using List.find?_some h⟩

/-- What stands in a branch is smaller than the form. -/
theorem sizeOf_lt_of_mem_branch {n : Node} {name : String} {e : Expr} (h : e ∈ n.branch name) :
    sizeOf e < sizeOf n.children := by
  rw [branch] at h
  cases hb : n.child? name with
  | none => simp [hb] at h
  | some b =>
      have hin : e ∈ b.children := by simpa [hb] using h
      have h1 := List.sizeOf_lt_of_mem hin
      have h2 := List.sizeOf_lt_of_mem (exists_of_child? hb).1
      simp only [Expr.node.sizeOf_spec] at h2
      omega

end Node

/-- Every tree among the pieces of a form is smaller than the form. -/
theorem Expr.sizeOf_lt_of_mem_layout {labels labels' : Labels} {e c : Expr}
    (h : .tree labels' c ∈ e.layout labels) : sizeOf c < sizeOf e := by
  cases e with
  | ref => simp [layout] at h
  | data => simp [layout] at h
  | node head children =>
      have hsub : ∀ c ∈ children, sizeOf c < sizeOf (Expr.node head children) := by
        intro c hc
        have := List.sizeOf_lt_of_mem hc
        simp only [Expr.node.sizeOf_spec]
        omega
      have hbranch : ∀ name, ∀ c ∈ Node.branch ⟨head, children⟩ name,
          sizeOf c < sizeOf (Expr.node head children) := by
        intro name c hc
        have : sizeOf c < sizeOf children := Node.sizeOf_lt_of_mem_branch hc
        simp only [Expr.node.sizeOf_spec]
        omega
      rw [layout] at h
      split at h
      · simp at h
      · dsimp only at h
        split at h
        · split at h
          · simp only [List.mem_append, List.mem_cons, List.mem_map, Piece.tree.injEq,
              reduceCtorEq, List.not_mem_nil, or_false, false_or] at h
            rcases h with (⟨_, hc, -, rfl⟩ | ⟨_, hc, -, rfl⟩) | hc
            · exact hsub _ (List.mem_of_mem_filter hc)
            · exact hbranch _ _ hc
            · split at hc
              · simp only [List.mem_cons, List.mem_map, Piece.tree.injEq, reduceCtorEq,
                  false_or] at hc
                obtain ⟨_, hc, -, rfl⟩ := hc
                exact hbranch _ _ hc
              · simp at hc
          · simp only [List.cons_append, List.mem_append, List.mem_cons, List.mem_map,
              Piece.tree.injEq, reduceCtorEq, List.not_mem_nil, or_false, false_or] at h
            obtain ⟨_, hc, -, rfl⟩ := h
            exact hsub _ (List.mem_of_mem_filter hc)
        · simp only [List.mem_append, List.mem_cons, List.mem_map, Piece.tree.injEq,
            reduceCtorEq, List.not_mem_nil, or_false] at h
          obtain ⟨_, hc, -, rfl⟩ := h
          exact hsub _ (List.mem_of_mem_filter hc)
        · simp only [List.mem_append, List.mem_cons, List.mem_map, Piece.tree.injEq,
            reduceCtorEq, List.not_mem_nil, or_false] at h
          obtain ⟨_, hc, -, rfl⟩ := h
          exact hsub _ hc

/-! ## The linear form -/

/-- The marks of a tree inside constructs with the given labels. -/
def Expr.linear (labels : Labels) (e : Expr) : List Mark :=
  (e.layout labels).attach.flatMap fun
    | ⟨.mark m, _⟩ => [m]
    | ⟨.tree labels' c, _⟩ => c.linear labels'
termination_by sizeOf e
decreasing_by exact Expr.sizeOf_lt_of_mem_layout ‹_›

/-- The marks of a piece. -/
def Piece.linear : Piece → List Mark
  | mark m => [m]
  | tree labels e => e.linear labels

/-- The marks of trees side by side. -/
def Expr.linearAll (labels : Labels) (es : List Expr) : List Mark := es.flatMap (·.linear labels)

namespace Expr

/-- The linear form is that of the pieces, one after another. -/
theorem linear_eq (labels : Labels) (e : Expr) :
    e.linear labels = (e.layout labels).flatMap Piece.linear := by
  rw [linear]
  conv_rhs => rw [← List.attach_map_subtype_val (e.layout labels), List.flatMap_map]
  congr 1
  funext p
  obtain ⟨p | ⟨labels', c⟩, _⟩ := p <;> rfl

theorem flatMap_linear_map_tree (labels : Labels) (es : List Expr) :
    (es.map (Piece.tree labels)).flatMap Piece.linear = linearAll labels es := by
  rw [List.flatMap_map]
  rfl

/-! ## Kinds of form

A form is a construct with a body, a conditional, an indirect call, or a
plain instruction; anything else is no instruction. -/

variable {labels : Labels} {head : Head} {children : List Expr} {op : Opcode}

/-- A form that is no instruction leaves a mark that resolves to none. -/
theorem linear_stray (h : Opcode.ofName? head.instr = none) :
    (Expr.node head children).linear labels = [.stray] := by
  rw [linear_eq, layout, h]
  rfl

/-- A block stands before its body, and its end mark after it. -/
theorem linear_block (h : Opcode.ofName? head.instr = some op) (hs : op.shape = .structured)
    (hc : op ≠ .conditional) :
    (Expr.node head children).linear labels =
      .instr op ⟨head, children⟩ labels ::
        linearAll (head.label? :: labels) (Node.body ⟨head, children⟩) ++ [.close] := by
  rw [linear_eq, layout, h]
  simp only [hs, if_neg hc, List.cons_append, List.flatMap_cons, List.flatMap_append,
    flatMap_linear_map_tree, List.flatMap_nil, List.append_nil, Piece.linear, List.nil_append]

/-- **A conditional** stands between its condition and its first branch.
The condition is outside its label, the branches are inside. -/
theorem linear_conditional (h : Opcode.ofName? head.instr = some .conditional) :
    (Expr.node head children).linear labels =
      linearAll labels (Node.condition ⟨head, children⟩) ++
        .instr .conditional ⟨head, children⟩ labels ::
        linearAll (head.label? :: labels) (Node.branch ⟨head, children⟩ "then") ++
        (if Node.hasChild ⟨head, children⟩ "else" then
          .otherwise :: linearAll (head.label? :: labels) (Node.branch ⟨head, children⟩ "else")
          else []) ++ [.close] := by
  rw [linear_eq, layout, h]
  by_cases helse : Node.hasChild ⟨head, children⟩ "else" = true
  · simp [helse, Opcode.conditional, flatMap_linear_map_tree, Piece.linear]
  · simp [helse, Opcode.conditional, flatMap_linear_map_tree, Piece.linear]

/-- An indirect call stands after its operands. -/
theorem linear_indirect (h : Opcode.ofName? head.instr = some op) (hs : op.shape = .indirect) :
    (Expr.node head children).linear labels =
      linearAll labels (Node.body ⟨head, children⟩) ++ [.instr op ⟨head, children⟩ labels] := by
  rw [linear_eq, layout, h]
  simp [hs, flatMap_linear_map_tree, Piece.linear]

/-- So does a plain instruction, of which all children are operands. -/
theorem linear_plain (h : Opcode.ofName? head.instr = some op) (hs : op.shape.IsPlain) :
    (Expr.node head children).linear labels =
      linearAll labels children ++ [.instr op ⟨head, children⟩ labels] := by
  obtain ⟨hstructured, hindirect⟩ := hs
  rw [linear_eq, layout, h]
  dsimp only
  split
  · exact absurd ‹_› hstructured
  · exact absurd ‹_› hindirect
  · simp [flatMap_linear_map_tree, Piece.linear]

/-- **Induction over forms.** A property of trees inside constructs passes
from the parts of a form to the form, kind by kind. -/
theorem form_induction {P : Labels → Expr → Prop}
    (ref : ∀ labels name span, P labels (.ref name span))
    (data : ∀ labels bytes span, P labels (.data bytes span))
    (stray : ∀ labels head children, Opcode.ofName? head.instr = none →
      P labels (.node head children))
    (block : ∀ labels head children op, Opcode.ofName? head.instr = some op →
      op.shape = .structured → op ≠ .conditional →
      (∀ e ∈ Node.body ⟨head, children⟩, P (head.label? :: labels) e) →
      P labels (.node head children))
    (conditional : ∀ labels head children, Opcode.ofName? head.instr = some .conditional →
      (∀ e ∈ Node.condition ⟨head, children⟩, P labels e) →
      (∀ e ∈ Node.branch ⟨head, children⟩ "then", P (head.label? :: labels) e) →
      (∀ e ∈ Node.branch ⟨head, children⟩ "else", P (head.label? :: labels) e) →
      P labels (.node head children))
    (indirect : ∀ labels head children op, Opcode.ofName? head.instr = some op →
      op.shape = .indirect → (∀ e ∈ Node.body ⟨head, children⟩, P labels e) →
      P labels (.node head children))
    (plain : ∀ labels head children op, Opcode.ofName? head.instr = some op →
      op.shape.IsPlain → (∀ e ∈ children, P labels e) → P labels (.node head children))
    (labels : Labels) (e : Expr) : P labels e := by
  induction hsize : sizeOf e using Nat.strong_induction_on generalizing labels e with
  | _ size ih =>
      subst hsize
      cases e with
      | ref name span => exact ref labels name span
      | data bytes span => exact data labels bytes span
      | node head children =>
          have hchild : ∀ labels, ∀ e ∈ children, P labels e := by
            intro labels e he
            refine ih _ ?_ labels e rfl
            have := List.sizeOf_lt_of_mem he
            simp only [Expr.node.sizeOf_spec]
            omega
          have hbranch : ∀ labels name, ∀ e ∈ Node.branch ⟨head, children⟩ name, P labels e := by
            intro labels name e he
            refine ih _ ?_ labels e rfl
            have : sizeOf e < sizeOf children := Node.sizeOf_lt_of_mem_branch he
            simp only [Expr.node.sizeOf_spec]
            omega
          cases hop : Opcode.ofName? head.instr with
          | none => exact stray labels head children hop
          | some op =>
              by_cases hs : op.shape = .structured
              · by_cases hc : op = .conditional
                · subst hc
                  exact conditional labels head children hop
                    (fun e he => hchild _ e (List.mem_of_mem_filter he))
                    (hbranch _ "then") (hbranch _ "else")
                · exact block labels head children op hop hs hc
                    fun e he => hchild _ e (List.mem_of_mem_filter he)
              · by_cases hi : op.shape = .indirect
                · exact indirect labels head children op hop hi
                    fun e he => hchild _ e (List.mem_of_mem_filter he)
                · exact plain labels head children op hop ⟨hs, hi⟩ (hchild labels)

end Expr

/-! ## Operands -/

namespace Param

/-- The index that an argument gives, by a name that is looked up or by a
number. -/
def index? (lookup : String → Option Nat) (p : Param) : Option Nat :=
  match p.arg with
  | .label name => lookup name
  | arg => arg.numeric?.bind fun text => Literal.natural? text.toList

/-- The number that an argument gives to a keyword. -/
def valueOf? (key : Keyword) (p : Param) : Option Nat :=
  match p.arg with
  | .keyword k (some text) => if k = key then Literal.natural? text.toList else none
  | _ => none

/-- What a reader of literals makes of a numeric argument. -/
def constant? {α : Type} (read : List Char → Option α) (p : Param) : Option α :=
  p.arg.numeric?.bind fun text => read text.toList

end Param

namespace Node

/-- The value types inside the children of the given name. -/
def typesOf? (n : Node) (name : String) : Option (List ValType) :=
  ((n.childNodes.filter (·.instr = name)).flatMap (·.children)).mapM
    fun e => (ValType.ofExpr e).toOption

/-- The signature that a form spells out. -/
def written? (n : Node) : Option FuncType := do
  return ⟨← n.typesOf? "param", ← n.typesOf? "result"⟩

/-- The entry of the type table that a form refers to by a `type` child. -/
def used? (names : Names) (use : Node) : Option Nat :=
  match use.arguments with
  | [p] => p.index? (names.index? .type)
  | _ => none

/-- The entry of the type table for the signature of a form. -/
def typeIndex? (names : Names) (table : TypeTable) (n : Node) : Option Nat :=
  match n.child? "type" with
  | some use => use.used? names
  | none => n.written?.bind table.entries.idxOf?

/-- The block type of a construct. Only a signature with a parameter or
with two results needs the type table. -/
def blockType? (names : Names) (table : TypeTable) (n : Node) : Option BlockType :=
  match n.child? "type" with
  | some use => (use.used? names).map .index
  | none => n.written?.bind fun type =>
    match type.params, type.results with
    | [], [] => some .empty
    | [], [result] => some (.value result)
    | _, _ => (table.entries.idxOf? type).map .index

end Node

/-- The last number given to a keyword. -/
def lastValue? (key : Keyword) (args : List Param) : Option Nat :=
  (args.filterMap (·.valueOf? key)).getLast?

/-- The immediate operand of a form inside constructs with the given
labels. -/
def Mark.operand? [HexReader] (names : Names) (locals : Locals) (table : TypeTable)
    (labels : Labels) (n : Node) (shape : Shape) : Option Immediate :=
  match shape, n.arguments with
  | .none, [] => some .none
  | .structured, _ => (n.blockType? names table).map .block
  | .label, [p] => (p.index? labels.depth?).map .index
  | .labels, args => do
    let depths ← args.mapM (·.index? labels.depth?)
    return .labels depths.dropLast (← depths.getLast?)
  | .function, [p] => (p.index? (names.index? .function)).map .index
  | .indirect, [] => (n.typeIndex? names table).map .indirect
  | .indirect, [p] => (p.index? (names.index? .type)).map .indirect
  | .local, [p] => (p.index? locals.index?).map .index
  | .global, [p] => (p.index? (names.index? .global)).map .index
  | .access natural, args =>
    some (.access (((lastValue? .align args).map Nat.log2).getD natural)
      ((lastValue? .offset args).getD 0))
  | .memory, [] => some .memory
  | .i32, [p] => (p.constant? (Literal.word? 32)).map .i32
  | .i64, [p] => (p.constant? (Literal.word? 64)).map .i64
  | .f32, [p] => (p.constant? fun text => (Literal.float .single text).toOption).map
      fun bits => .f32 (.ofNat 32 bits)
  | .f64, [p] => (p.constant? fun text => (Literal.float .double text).toOption).map
      fun bits => .f64 (.ofNat 64 bits)
  | _, _ => none

/-- The instruction at a mark. -/
def Mark.instr? [HexReader] (names : Names) (locals : Locals) (table : TypeTable) :
    Mark → Option Instr
  | instr op n labels => (operand? names locals table labels n op.shape).map (.op op)
  | otherwise => some .otherwise
  | close => some .close
  | stray => none

end WasmText
