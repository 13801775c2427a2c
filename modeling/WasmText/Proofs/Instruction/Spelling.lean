import WasmText.Proofs.Instruction.Compile
import WasmText.Proofs.Tree.Printing
/-!
# Folded and flat spelling

An instruction is written folded, in parentheses around its operands, or
flat, after them. A body is spelled with a choice for every form of it, and
forms of either spelling may stand inside the other (`Expr.spell`). The
value types of signatures are forms too, and flat they stand without
parentheses (`Expr.spellTypes`). Read back, the spelling gives trees in
which the operands of an instruction are inside its form or before it
(`Expr.respell`). Trees can be spelled when their heads and signatures can
be written and every indirect call names its type (`Expr.Spellable`).
-/

namespace WasmText

/-! ## Spelling -/

/-- Which forms are spelled flat. A value type that is spelled flat stands
without parentheses. -/
abbrev Style := Head → Bool

namespace Style

/-- Every instruction is folded. -/
def folded : Style := fun head => (ValType.ofName? head.instr).isSome

/-- Every instruction is flat. -/
def flat : Style := fun _ => true

end Style

namespace Node

/-- The children that give a signature. -/
def signature (n : Node) : List Expr := n.children.filter (·.isSignature)

/-- The children that are instructions: the condition of a conditional,
the body of another construct, the operands of any other instruction. -/
def inside (n : Node) : List Expr := if n.instr = "if" then n.condition else n.body

/-- What stands inside a form is among its children. -/
theorem mem_children_of_mem_inside {n : Node} {e : Expr} (h : e ∈ n.inside) : e ∈ n.children := by
  unfold inside at h
  split at h
  · exact List.mem_of_mem_filter h
  · exact List.mem_of_mem_filter h

theorem sizeOf_lt_toExpr {n : Node} {e : Expr} (h : sizeOf e < sizeOf n.children) :
    sizeOf e < sizeOf n.toExpr := by
  simp only [toExpr, Expr.node.sizeOf_spec]
  omega

end Node

/-- Goes through an instruction tree from its leaves. A form is put
together from what its instructions give, and what those of its `then` and
of its `else` branch give. -/
def Expr.assemble {α : Type} (leaf : Expr → List α)
    (form : Node → List α → List α → List α → List α) : Expr → List α
  | .node head children =>
    let n : Node := ⟨head, children⟩
    form n (n.inside.attach.flatMap fun ⟨e, _⟩ => e.assemble leaf form)
      ((n.branch "then").attach.flatMap fun ⟨e, _⟩ => e.assemble leaf form)
      ((n.branch "else").attach.flatMap fun ⟨e, _⟩ => e.assemble leaf form)
  | e => leaf e
termination_by e => sizeOf e
decreasing_by
  · exact n.sizeOf_lt_toExpr (List.sizeOf_lt_of_mem (Node.mem_children_of_mem_inside ‹_›))
  · exact n.sizeOf_lt_toExpr (Node.sizeOf_lt_of_mem_branch ‹_›)
  · exact n.sizeOf_lt_toExpr (Node.sizeOf_lt_of_mem_branch ‹_›)

/-- A tree is assembled from what is assembled from its parts. -/
theorem Expr.assemble_node {α : Type} (leaf : Expr → List α)
    (form : Node → List α → List α → List α → List α) (n : Node) :
    n.toExpr.assemble leaf form = form n (n.inside.flatMap (·.assemble leaf form))
      ((n.branch "then").flatMap (·.assemble leaf form))
      ((n.branch "else").flatMap (·.assemble leaf form)) := by
  rw [Node.toExpr, assemble]
  simp

/-- Texts in parentheses. -/
def enclosed (texts : List String) : List String := "(" :: (texts ++ [")"])

namespace Expr

def isValueType : Expr → Bool
  | .node head [] => (ValType.ofName? head.instr).isSome
  | _ => false

/-- The texts of a value type in a style. -/
def spellType (style : Style) (glued : Bool) : Expr → List String
  | .node head children =>
    if style head then head.texts glued else (Expr.node head children).texts glued
  | e => e.texts glued

/-- The texts of a form that holds value types, such as a `param` or a
`result`, with these in a style. A form that holds anything else is
printed. -/
def spellTypes (style : Style) (glued : Bool) : Expr → List String
  | .node head children =>
    if children.all isValueType then
      enclosed (head.texts glued ++ children.flatMap (spellType style glued))
    else (Expr.node head children).texts glued
  | e => e.texts glued

end Expr

namespace Node

/-- The texts of a form in a style, with those of its parts. -/
def spell (style : Style) (glued : Bool) (n : Node) (inside first second : List String) :
    List String :=
  let start := n.toHead.texts glued ++ n.signature.flatMap (Expr.spellTypes style glued)
  if n.instr = "block" ∨ n.instr = "loop" then
    if style n.toHead then start ++ inside ++ ["end"] else enclosed (start ++ inside)
  else if n.instr = "if" then
    if style n.toHead then
      inside ++ (start ++ first ++ (if n.hasChild "else" then "else" :: second else []) ++ ["end"])
    else
      enclosed (start ++ (inside ++ (enclosed ("then" :: first) ++
        if n.hasChild "else" then enclosed ("else" :: second) else [])))
  else if style n.toHead then inside ++ start
  else enclosed (start ++ inside)

/-- The branches of a conditional, one for each that it has. -/
def branches (n : Node) (first second : List Expr) : List Expr :=
  .node (.plain "then" .zero) first ::
    if n.hasChild "else" then [.node (.plain "else" .zero) second] else []

/-- The trees that a form, spelled in a style, is read back as. -/
def respell (style : Style) (n : Node) (inside first second : List Expr) : List Expr :=
  if n.instr = "block" ∨ n.instr = "loop" then [.node n.toHead (n.signature ++ inside)]
  else if n.instr = "if" then
    if style n.toHead then inside ++ [.node n.toHead (n.signature ++ n.branches first second)]
    else [.node n.toHead (n.signature ++ (inside ++ n.branches first second))]
  else if style n.toHead then inside ++ [.node n.toHead n.signature]
  else [.node n.toHead (n.signature ++ inside)]

end Node

/-- The texts of an instruction tree in a style. Of a conditional, the
first `then` and the first `else` are written. -/
def Expr.spell (style : Style) (glued : Bool) (e : Expr) : List String :=
  e.assemble (Expr.texts glued) (Node.spell style glued)

/-- The trees that an instruction tree, spelled in a style, is read back
as. -/
def Expr.respell (style : Style) (e : Expr) : List Expr :=
  e.assemble (fun e => [e]) (Node.respell style)

/-- A form is spelled around the spelling of its parts. -/
theorem Expr.spell_node (style : Style) (glued : Bool) (n : Node) :
    n.toExpr.spell style glued = n.spell style glued (n.inside.flatMap (Expr.spell style glued))
      ((n.branch "then").flatMap (Expr.spell style glued))
      ((n.branch "else").flatMap (Expr.spell style glued)) :=
  assemble_node _ _ n

/-- The trees it is read back as are put around those of its parts. -/
theorem Expr.respell_node (style : Style) (n : Node) :
    n.toExpr.respell style = n.respell style (n.inside.flatMap (Expr.respell style))
      ((n.branch "then").flatMap (Expr.respell style))
      ((n.branch "else").flatMap (Expr.respell style)) :=
  assemble_node _ _ n

/-! ## Which forms are which -/

namespace Opcode

/-- An instruction is found under its own name. -/
theorem name_of_ofName? {name : String} {op : Opcode} (h : ofName? name = some op) :
    op.name = name := by
  simpa using List.find?_some h

/-- A word that names no instruction is not the word of one. -/
theorem not_mem_of_ofName? {words : List String} (hwords : ∀ word ∈ words, ofName? word = none)
    {word : String} {op : Opcode} (h : ofName? word = some op) : word ∉ words := by
  intro hmem
  rw [hwords word hmem] at h
  cases h

/-- Apart from the conditional, the structured instructions are `block` and
`loop`. -/
theorem name_of_structured : ∀ op ∈ all, op.shape = .structured → op ≠ .conditional →
    op.name = "block" ∨ op.name = "loop" := by decide +kernel

/-- There is one indirect call. -/
theorem name_of_indirect : ∀ op ∈ all, op.shape = .indirect → op.name = "call_indirect" := by
  decide +kernel

/-- The four words of the grammar name no plain instruction. -/
theorem shape_of_name : ∀ op ∈ all, op.name ∈ ["block", "loop", "if", "call_indirect"] →
    op.shape = .structured ∨ op.shape = .indirect := by decide +kernel

end Opcode

namespace Node

variable {n : Node} {op : Opcode}

theorem instr_of_structured (hop : Opcode.ofName? n.instr = some op) (hs : op.shape = .structured)
    (hc : op ≠ .conditional) : n.instr = "block" ∨ n.instr = "loop" := by
  rw [← Opcode.name_of_ofName? hop]
  exact Opcode.name_of_structured op (Opcode.mem_all_of_ofName? hop) hs hc

theorem instr_of_conditional (hop : Opcode.ofName? n.instr = some .conditional) : n.instr = "if" :=
  (Opcode.name_of_ofName? hop).symm

theorem instr_of_indirect (hop : Opcode.ofName? n.instr = some op) (hs : op.shape = .indirect) :
    n.instr = "call_indirect" := by
  rw [← Opcode.name_of_ofName? hop]
  exact Opcode.name_of_indirect op (Opcode.mem_all_of_ofName? hop) hs

/-- So a plain instruction has none of these words. -/
theorem instr_of_plain (hop : Opcode.ofName? n.instr = some op) (hs : op.shape.IsPlain) :
    n.instr ∉ ["block", "loop", "if", "call_indirect"] := by
  rw [← Opcode.name_of_ofName? hop]
  intro hname
  rcases Opcode.shape_of_name op (Opcode.mem_all_of_ofName? hop) hname with h | h
  · exact hs.1 h
  · exact hs.2 h

/-- Inside a block or loop stands all but its signature. -/
theorem inside_of_structured (hop : Opcode.ofName? n.instr = some op) (hs : op.shape = .structured)
    (hc : op ≠ .conditional) : n.inside = n.body := by
  rw [inside, if_neg]
  rcases instr_of_structured hop hs hc with h | h
  · simp [h]
  · simp [h]

/-- Inside a conditional stands its condition. -/
theorem inside_of_conditional (hop : Opcode.ofName? n.instr = some .conditional) :
    n.inside = n.condition :=
  if_pos (instr_of_conditional hop)

theorem inside_of_indirect (hop : Opcode.ofName? n.instr = some op) (hs : op.shape = .indirect) :
    n.inside = n.body := by
  rw [inside, if_neg]
  simp [instr_of_indirect hop hs]

/-- Whether an indirect call names its type, by its argument or by a
`type` form. -/
def NamesType (n : Node) : Prop := n.arguments ≠ [] ∨ n.hasChild "type" = true

/-- Whether what comes before the instructions of a form can be
written. -/
structure Opens (n : Node) : Prop where
  head : n.toHead.Printable Argument.Writable
  signature : ∀ e ∈ n.signature, e.Printable Argument.Writable

end Node

namespace Expr

/-- Instruction trees that can be spelled in any style. -/
inductive Spellable : Expr → Prop where
  | block {n : Node} {op : Opcode} (hop : Opcode.ofName? n.instr = some op)
    (hs : op.shape = .structured) (hc : op ≠ .conditional) (hopens : n.Opens)
    (hinside : ∀ e ∈ n.inside, Spellable e) : Spellable n.toExpr
  | conditional {n : Node} (hop : Opcode.ofName? n.instr = some .conditional) (hopens : n.Opens)
    (hthen : n.hasChild "then" = true) (hinside : ∀ e ∈ n.inside, Spellable e)
    (hfirst : ∀ e ∈ n.branch "then", Spellable e) (hsecond : ∀ e ∈ n.branch "else", Spellable e) :
    Spellable n.toExpr
  | indirect {n : Node} {op : Opcode} (hop : Opcode.ofName? n.instr = some op)
    (hs : op.shape = .indirect) (htype : n.NamesType) (hopens : n.Opens)
    (hinside : ∀ e ∈ n.inside, Spellable e) : Spellable n.toExpr
  | plain {n : Node} {op : Opcode} (hop : Opcode.ofName? n.instr = some op)
    (hs : op.shape.IsPlain) (hsignature : n.signature = []) (hopens : n.Opens)
    (hinside : ∀ e ∈ n.inside, Spellable e) : Spellable n.toExpr

/-- Forms named for an instruction. -/
def IsInstr (e : Expr) : Prop := ∃ n op, e = Node.toExpr n ∧ Opcode.ofName? n.instr = some op

namespace IsInstr

variable {e : Expr}

/-- An instruction is no form of a word that names none. -/
theorem isNode_eq_false (h : e.IsInstr) {word : String} (hword : Opcode.ofName? word = none) :
    e.isNode word = false := by
  obtain ⟨n, op, rfl, hop⟩ := h
  refine beq_eq_false_iff_ne.2 fun hinstr => ?_
  rw [hinstr, hword] at hop
  cases hop

/-- Instructions are not taken for parts of a signature. -/
theorem isSignature_eq_false (h : e.IsInstr) : e.isSignature = false := by
  rw [isSignature, h.isNode_eq_false (by decide +kernel), h.isNode_eq_false (by decide +kernel),
    h.isNode_eq_false (by decide +kernel)]
  rfl

/-- They do count among the condition of a conditional. -/
theorem isCondition_eq_true (h : e.IsInstr) : isCondition e = true := by
  rw [isCondition, h.isSignature_eq_false, h.isNode_eq_false (by decide +kernel),
    h.isNode_eq_false (by decide +kernel)]
  rfl

end IsInstr

/-- Only instructions can be spelled. -/
theorem Spellable.isInstr {e : Expr} (h : e.Spellable) : e.IsInstr := by
  cases h with
  | block hop => exact ⟨_, _, rfl, hop⟩
  | conditional hop => exact ⟨_, _, rfl, hop⟩
  | indirect hop => exact ⟨_, _, rfl, hop⟩
  | plain hop => exact ⟨_, _, rfl, hop⟩

end Expr

namespace Node

variable {n : Node} {style : Style}

section texts

variable {glued : Bool} {inside first second : List String}

/-- A block is spelled with `end` when it is flat, in parentheses when it
is folded. -/
theorem spell_block (h : n.instr = "block" ∨ n.instr = "loop") :
    n.spell style glued inside first second =
      let start := n.toHead.texts glued ++ n.signature.flatMap (Expr.spellTypes style glued)
      if style n.toHead then start ++ inside ++ ["end"] else enclosed (start ++ inside) := by
  rw [spell, if_pos h]

/-- The condition of a flat conditional comes before it. A folded one has
everything inside. -/
theorem spell_if (h : n.instr = "if") :
    n.spell style glued inside first second =
      let start := n.toHead.texts glued ++ n.signature.flatMap (Expr.spellTypes style glued)
      if style n.toHead then
        inside ++ (start ++ first ++ (if n.hasChild "else" then "else" :: second else []) ++ ["end"])
      else
        enclosed (start ++ (inside ++ (enclosed ("then" :: first) ++
          if n.hasChild "else" then enclosed ("else" :: second) else []))) := by
  rw [spell, if_neg (by simp [h]), if_pos h]

/-- So do the operands of any other instruction. -/
theorem spell_other (h : n.instr ∉ ["block", "loop", "if"]) :
    n.spell style glued inside first second =
      let start := n.toHead.texts glued ++ n.signature.flatMap (Expr.spellTypes style glued)
      if style n.toHead then inside ++ start else enclosed (start ++ inside) := by
  simp only [List.mem_cons, List.not_mem_nil, or_false, not_or] at h
  rw [spell, if_neg (by simp [h]), if_neg h.2.2]

end texts

variable {inside first second : List Expr}

/-- A block is read back as a block, folded or flat. -/
theorem respell_block (h : n.instr = "block" ∨ n.instr = "loop") :
    n.respell style inside first second = [.node n.toHead (n.signature ++ inside)] := by
  rw [respell, if_pos h]

/-- A flat conditional is read back behind its condition. -/
theorem respell_if (h : n.instr = "if") :
    n.respell style inside first second =
      if style n.toHead then inside ++ [.node n.toHead (n.signature ++ n.branches first second)]
      else [.node n.toHead (n.signature ++ (inside ++ n.branches first second))] := by
  rw [respell, if_neg (by simp [h]), if_pos h]

/-- Any other flat instruction is read back behind its operands. -/
theorem respell_other (h : n.instr ∉ ["block", "loop", "if"]) :
    n.respell style inside first second =
      if style n.toHead then inside ++ [.node n.toHead n.signature]
      else [.node n.toHead (n.signature ++ inside)] := by
  simp only [List.mem_cons, List.not_mem_nil, or_false, not_or] at h
  rw [respell, if_neg (by simp [h]), if_neg h.2.2]

/-- The trees of a form are the form of the same name, and instructions
before it. -/
theorem mem_respell {e : Expr} (h : e ∈ n.respell style inside first second) :
    e ∈ inside ∨ ∃ children, e = .node n.toHead children := by
  unfold respell at h
  split at h
  · exact .inr ⟨_, List.mem_singleton.1 h⟩
  · split at h
    · split at h
      · exact (List.mem_append.1 h).imp_right fun h => ⟨_, List.mem_singleton.1 h⟩
      · exact .inr ⟨_, List.mem_singleton.1 h⟩
    · split at h
      · exact (List.mem_append.1 h).imp_right fun h => ⟨_, List.mem_singleton.1 h⟩
      · exact .inr ⟨_, List.mem_singleton.1 h⟩

end Node

/-- **Spelled instructions are read back as instructions.** -/
theorem Expr.Spellable.isInstr_respell {e : Expr} (h : e.Spellable) (style : Style) :
    ∀ c ∈ e.respell style, c.IsInstr := by
  have hform : ∀ {n : Node} {op : Opcode}, Opcode.ofName? n.instr = some op →
      (∀ e ∈ n.inside, ∀ c ∈ e.respell style, c.IsInstr) → ∀ c ∈ n.toExpr.respell style, c.IsInstr := by
    intro n op hop hinside c hc
    rw [respell_node] at hc
    rcases Node.mem_respell hc with hc | ⟨children, rfl⟩
    · obtain ⟨e, he, hc⟩ := List.mem_flatMap.1 hc
      exact hinside e he c hc
    · exact ⟨⟨n.toHead, children⟩, op, rfl, hop⟩
  induction h with
  | block hop _ _ _ _ ih => exact hform hop ih
  | conditional hop _ _ _ _ _ ih => exact hform hop ih
  | indirect hop _ _ _ _ ih => exact hform hop ih
  | plain hop _ _ _ _ ih => exact hform hop ih

end WasmText
