import WasmText.Proofs.Module.Declaration
import WasmText.Proofs.Module.Outward
import WasmText.Proofs.Instruction.Respelling
/-!
# A function in its module

A body is put aside when its function is declared, and compiled when
everything is. Declaring never looks at it, and what is declared later only
puts more bodies aside. So a module reaches the bytes of a given function
by compiling its body in one environment and against one type table, and
any other body that compiles to the same instructions there leaves the
bytes of the module as they are (`Site.compile_withBody`).
-/

namespace WasmText

/-! ## Function fields -/

/-- Whether a child of a function is a declaration rather than an
instruction. -/
def Expr.isDeclaration (e : Expr) : Bool :=
  ["type", "export", "import", "param", "result", "local"].any e.isNode

namespace Node

/-- The children of a function that are declarations. -/
def declarations (n : Node) : List Expr := n.children.filter (·.isDeclaration)

/-- The children of a function that are instructions. -/
def instructions (n : Node) : List Expr := n.children.filter (!·.isDeclaration)

section append

variable {declarations body : List Expr} (hdeclarations : ∀ e ∈ declarations, e.isDeclaration = true)
  (hbody : ∀ e ∈ body, e.isDeclaration = false) (head : Head)

include hdeclarations hbody

theorem declarations_append : Node.declarations ⟨head, declarations ++ body⟩ = declarations := by
  have hnone : body.filter (·.isDeclaration) = [] :=
    List.filter_eq_nil_iff.2 fun e he => by simp [hbody e he]
  rw [Node.declarations, List.filter_append, hnone, List.append_nil, List.filter_eq_self.2 hdeclarations]

theorem instructions_append : Node.instructions ⟨head, declarations ++ body⟩ = body := by
  have hnone : declarations.filter (!·.isDeclaration) = [] :=
    List.filter_eq_nil_iff.2 fun e he => by simp [hdeclarations e he]
  have hall : body.filter (!·.isDeclaration) = body :=
    List.filter_eq_self.2 fun e he => by simp [hbody e he]
  rw [Node.instructions, List.filter_append, hnone, List.nil_append, hall]

end append

end Node

namespace FunctionField

variable {e : Expr} {f : FunctionField} {n : Node}

/-- What an instruction contributes. -/
def ofInstruction (e : Expr) : FunctionField := { empty with body := [e] }

theorem ofChild_instruction (h : e.isDeclaration = false) : ofChild e = .ok (ofInstruction e) := by
  cases e with
  | ref => rfl
  | data => rfl
  | node head children =>
      simp only [Expr.isDeclaration, Expr.isNode, List.any_cons, List.any_nil, Bool.or_false,
        Bool.or_eq_false_iff, beq_eq_false_iff_ne] at h
      unfold ofChild
      dsimp only [Expr.node?]
      split <;> simp_all [ofInstruction]
      rfl

theorem body_of_declaration (h : e.isDeclaration = true) (hf : ofChild e = .ok f) : f.body = [] := by
  cases e with
  | ref => cases h
  | data => cases h
  | node head children =>
      unfold ofChild at hf
      dsimp only [Expr.node?] at hf
      split at hf
      · obtain rfl := pure_eq_ok.1 hf
        rfl
      iterate 5
        obtain ⟨_, -, hf⟩ := bind_eq_ok.1 hf
        obtain rfl := pure_eq_ok.1 hf
        rfl
      · simp_all [Expr.isDeclaration, Expr.isNode]

/-- What two contributions are together. -/
def beside (f g : FunctionField) : FunctionField :=
  ⟨f.params ++ g.params, f.results ++ g.results, f.spelled || g.spelled, f.locals ++ g.locals,
    f.exports ++ g.exports, g.origin.or f.origin, f.body ++ g.body⟩

theorem join_cons (f : FunctionField) (parts : List FunctionField) :
    join (f :: parts) = f.beside (join parts) := by
  simp [join, beside, List.findSome?_append]

theorem ofNode_cons (head : Head) (e : Expr) (es : List Expr) :
    ofNode ⟨head, e :: es⟩ = (do
      let f ← ofChild e
      let rest ← ofNode ⟨head, es⟩
      return f.beside rest) := by
  rw [ofNode, ofNode, List.mapM_cons]
  cases ofChild e with
  | error error => rfl
  | ok f =>
      cases es.mapM ofChild with
      | error error => rfl
      | ok parts => exact congrArg Except.ok (join_cons f parts)

/-- **The parts of a function** are those of its declarations, and its
instructions, however the two are mixed. -/
theorem ofNode_eq (n : Node) :
    ofNode n = (ofNode ⟨n.toHead, n.declarations⟩).map fun f => { f with body := n.instructions } := by
  obtain ⟨head, children⟩ := n
  induction children with
  | nil => rfl
  | cons e es ih =>
      rw [ofNode_cons, ih]
      cases he : e.isDeclaration with
      | false =>
          -- an instruction has nothing to say but itself
          have hdeclarations : Node.declarations ⟨head, e :: es⟩ = Node.declarations ⟨head, es⟩ :=
            List.filter_cons_of_neg (by simp [he])
          have hinstructions : Node.instructions ⟨head, e :: es⟩ =
              e :: Node.instructions ⟨head, es⟩ := List.filter_cons_of_pos (by simp [he])
          rw [ofChild_instruction he, hdeclarations, hinstructions]
          cases ofNode ⟨head, Node.declarations ⟨head, es⟩⟩ with
          | error error => rfl
          | ok rest => exact congrArg Except.ok (by simp [beside, ofInstruction, empty])
      | true =>
          have hdeclarations : Node.declarations ⟨head, e :: es⟩ =
              e :: Node.declarations ⟨head, es⟩ := List.filter_cons_of_pos he
          have hinstructions : Node.instructions ⟨head, e :: es⟩ = Node.instructions ⟨head, es⟩ :=
            List.filter_cons_of_neg (by simp [he])
          rw [hdeclarations, hinstructions, ofNode_cons]
          cases hf : ofChild e with
          | error error => rfl
          | ok f =>
              have hbody := body_of_declaration he hf
              cases ofNode ⟨head, Node.declarations ⟨head, es⟩⟩ with
              | error error => rfl
              | ok rest => exact congrArg Except.ok (by simp [beside, hbody])

/-- The type of a function is told by its declarations. -/
theorem resolveType_eq (f : FunctionField) (names : Names) (table : TypeTable) (n : Node) :
    f.resolveType names table n = f.resolveType names table ⟨n.toHead, n.declarations⟩ := by
  have hchild : n.child? "type" = Node.child? ⟨n.toHead, n.declarations⟩ "type" := by
    rw [Node.child?_eq, Node.child?_eq, Node.declarations, List.find?_filter]
    congr 2
    funext e
    cases htype : e.isNode "type" with
    | false => simp
    | true => simp [Expr.isDeclaration, htype]
  unfold resolveType
  rw [hchild]

end FunctionField

/-! ## Bodies put aside -/

namespace Progress

variable {p q : Progress}

/-- Declaring a function depends on its declarations and instructions, and
not on how the two are mixed. -/
theorem declareFunction_congr {n m : Node} (hhead : m.toHead = n.toHead)
    (hdeclarations : m.declarations = n.declarations)
    (hinstructions : m.instructions = n.instructions) (p : Progress) :
    p.declareFunction m = p.declareFunction n := by
  have hparts : FunctionField.ofNode m = FunctionField.ofNode n := by
    rw [FunctionField.ofNode_eq m, FunctionField.ofNode_eq n, hhead, hdeclarations, hinstructions]
  have hresolve : ∀ f : FunctionField, f.resolveType p.draft.names p.draft.types m =
      f.resolveType p.draft.names p.draft.types n := by
    intro f
    rw [FunctionField.resolveType_eq f _ _ m, FunctionField.resolveType_eq f _ _ n, hhead,
      hdeclarations]
  rw [declareFunction, declareFunction, hparts]
  simp only [hresolve, hhead]

/-- A function that is not imported puts its body aside, and would do so
with any other body. -/
theorem declareFunction_body {n : Node} (h : p.declareFunction n = .ok q) :
    (n.instructions = [] ∧ ∃ f, FunctionField.ofNode n = .ok f ∧ f.origin.isSome = true) ∨
      ∃ d index params locals, ∀ m : Node, m.toHead = n.toHead →
        m.declarations = n.declarations →
        p.declareFunction m = .ok ⟨d, p.bodies ++ [⟨index, params, locals, m.instructions⟩]⟩ := by
  obtain ⟨f, hf, h⟩ := bind_eq_ok.1 h
  have hread := hf
  rw [FunctionField.ofNode_eq] at hread
  cases hparts : FunctionField.ofNode ⟨n.toHead, n.declarations⟩ with
  | error e => rw [hparts] at hread; cases hread
  | ok parts =>
      rw [hparts] at hread
      obtain rfl := Except.ok.inj hread
      obtain ⟨⟨type, params, types⟩, htype, h⟩ := bind_eq_ok.1 h
      rw [FunctionField.resolveType_eq] at htype
      dsimp only at h
      cases horigin : parts.origin with
      | some origin =>
          rw [horigin] at h
          dsimp only at h
          split at h
          · -- an imported function has no body
            next hnone _ => exact .inl ⟨hnone, _, hf, by simp [horigin]⟩
          · exact absurd h throw_ne_ok
          · exact absurd h throw_ne_ok
      | none =>
          let made := { p.draft with types }.addFunction n.label? type
          refine .inr ⟨made.2.exportAll .function made.1 parts.exports, made.1, params, parts.locals,
            fun m hhead hdeclarations => ?_⟩
          refine bind_eq_ok.2 ⟨{ parts with body := m.instructions }, ?_,
            bind_eq_ok.2 ⟨(type, params, types), ?_, ?_⟩⟩
          · rw [FunctionField.ofNode_eq, hhead, hdeclarations, hparts]
            rfl
          · rw [FunctionField.resolveType_eq, hhead, hdeclarations]
            exact htype
          · dsimp only
            rw [horigin, hhead]
            rfl

/-- **The declarations of a module** put the body of a function that is
not imported aside, behind those of the fields before it, at an index and
with parameters and locals that the body does not tell. -/
theorem foldlM_declare_function [HexReader] {head : Head} {before after children : List Expr}
    {start : Draft} (hfunc : head.instr = "func")
    (h : (before ++ .node head children :: after).foldlM declare ⟨start, []⟩ = .ok q) :
    (Node.instructions ⟨head, children⟩ = [] ∧
        ∃ f, FunctionField.ofNode ⟨head, children⟩ = .ok f ∧ f.origin.isSome = true) ∨
      ∃ p d index params locals later, before.foldlM declare ⟨start, []⟩ = .ok p ∧
        ∀ children', Node.declarations ⟨head, children'⟩ = Node.declarations ⟨head, children⟩ →
          (before ++ .node head children' :: after).foldlM declare ⟨start, []⟩ =
            .ok ⟨d, p.bodies ++ ⟨index, params, locals, Node.instructions ⟨head, children'⟩⟩ :: later⟩ := by
  have hdeclare : ∀ (p : Progress) (children : List Expr),
      p.declare (.node head children) = p.declareFunction ⟨head, children⟩ := by
    intro p children
    simp [declare, Expr.node?, hfunc]
  rw [List.foldlM_append] at h
  obtain ⟨p, hbefore, h⟩ := bind_eq_ok.1 h
  rw [List.foldlM_cons, hdeclare] at h
  obtain ⟨made, hfield, hafter⟩ := bind_eq_ok.1 h
  obtain hnone | ⟨d, index, params, locals, hsame⟩ := declareFunction_body hfield
  · exact .inl hnone
  · -- the fields after the function declare the same behind any body
    have hbehind : ∀ body, (⟨d, p.bodies ++ [⟨index, params, locals, body⟩]⟩ : Progress) =
        (⟨d, []⟩ : Progress).behind .empty (p.bodies ++ [⟨index, params, locals, body⟩]) := by
      intro body
      rw [behind, Draft.behind_empty, List.append_nil]
    rw [hsame _ rfl rfl] at hfield
    obtain rfl := Except.ok.inj hfield
    rw [hbehind, foldlM_declare_behind] at hafter
    cases hrest : after.foldlM declare ⟨d, []⟩ with
    | error e => rw [hrest] at hafter; cases hafter
    | ok rest =>
        refine .inr ⟨p, rest.draft, index, params, locals, rest.bodies, hbefore,
          fun children' hdeclarations => ?_⟩
        rw [List.foldlM_append]
        refine bind_eq_ok.2 ⟨p, hbefore, ?_⟩
        rw [List.foldlM_cons, hdeclare]
        refine bind_eq_ok.2 ⟨_, hsame _ rfl hdeclarations, ?_⟩
        rw [hbehind, foldlM_declare_behind, hrest]
        simp [Except.map, behind, Draft.behind_empty]

end Progress

/-! ## A function in its module -/

/-- A module form with one of its functions singled out. -/
structure Site where
  module : Head
  before : List Expr
  function : Head
  declarations : List Expr
  body : List Expr
  after : List Expr
  isFunction : function.instr = "func"
  declares : ∀ e ∈ declarations, e.isDeclaration = true
  instructs : ∀ e ∈ body, e.isDeclaration = false

namespace Site

/-- The form of the function. -/
def field (site : Site) : Expr := .node site.function (site.declarations ++ site.body)

/-- The form of the module. -/
def node (site : Site) : Node := ⟨site.module, site.before ++ site.field :: site.after⟩

/-- The module with another body in the same place. -/
def withBody (site : Site) (body : List Expr) (h : ∀ e ∈ body, e.isDeclaration = false) : Site :=
  { site with body, instructs := h }

variable {site : Site} {bytes : List UInt8}

theorem withBody_eq (site : Site) {body : List Expr} (h : ∀ e ∈ body, e.isDeclaration = false)
    (hbody : body = site.body) : site.withBody body h = site := by
  subst hbody
  rfl

/-- The function is not among the types of its module. -/
theorem types_eq (site : Site) : site.node.childNodes.filter (·.instr = "type") =
    ((site.before ++ site.after).filterMap Expr.node?).filter (·.instr = "type") := by
  simp [node, Node.childNodes, field, Expr.node?, site.isFunction]

/-- Compiling a body depends on what it compiles to, and on nothing else
of it. -/
theorem compileBody_congr [HexReader] {d d' : Draft} {index : Nat} {params locals : List Slot}
    {body : List Expr} (h : d.compileBody ⟨index, params, locals, body⟩ = .ok d') :
    ∃ env t t' instrs, compileAll env body t = .ok instrs t' ∧
      ∀ other, compileAll env other t = .ok instrs t' →
        d.compileBody ⟨index, params, locals, other⟩ = .ok d' := by
  obtain ⟨⟨instrs, d₁⟩, htyping, h⟩ := bind_eq_ok.1 h
  obtain ⟨types, hcompile, rfl⟩ := Draft.typing_eq_ok.1 htyping
  refine ⟨_, _, types, instrs, hcompile, fun other hother => ?_⟩
  exact bind_eq_ok.2 ⟨_, Draft.typing_eq_ok.2 ⟨types, hother, rfl⟩, h⟩

/-- The declarations of a module put the body of the function aside, at a
place and with parameters and locals that it does not tell. -/
theorem foldlM_declare [HexReader] {start : Draft} {q : Progress}
    (h : site.node.children.foldlM Progress.declare ⟨start, []⟩ = .ok q) :
    site.body = [] ∨ ∃ d earlier index params locals later,
      ∀ body (hbody : ∀ e ∈ body, e.isDeclaration = false),
        (site.withBody body hbody).node.children.foldlM Progress.declare ⟨start, []⟩ =
          .ok ⟨d, earlier ++ ⟨index, params, locals, body⟩ :: later⟩ := by
  obtain ⟨hnone, -⟩ | ⟨p, d, index, params, locals, later, -, hsame⟩ :=
    Progress.foldlM_declare_function site.isFunction h
  · rw [Node.instructions_append site.declares site.instructs] at hnone
    exact .inl hnone
  · refine .inr ⟨d, p.bodies, index, params, locals, later, fun body hbody => ?_⟩
    have hbehind := hsame (site.declarations ++ body)
    rw [Node.declarations_append site.declares hbody,
      Node.declarations_append site.declares site.instructs,
      Node.instructions_append site.declares hbody] at hbehind
    exact hbehind rfl

/-- **A module compiles to the same bytes** with any body that compiles to
the same instructions where its own is compiled. -/
theorem compile_withBody [HexReader] (h : site.node.compile = .ok bytes) :
    site.body = [] ∨ ∃ env t t' instrs, compileAll env site.body t = .ok instrs t' ∧
      ∀ body (hbody : ∀ e ∈ body, e.isDeclaration = false), compileAll env body t = .ok instrs t' →
        (site.withBody body hbody).node.compile = .ok bytes := by
  obtain ⟨finished, hdraft, hbuild⟩ := bind_eq_ok.1 h
  obtain ⟨hmodule, progress, hprogress, hbodies⟩ := Draft.ofNode_eq_ok.1 hdraft
  obtain ⟨start, htypes, hprogress⟩ := bind_eq_ok.1 hprogress
  obtain hnone | ⟨d, earlier, index, params, locals, later, hdeclare⟩ := foldlM_declare hprogress
  · exact .inl hnone
  · obtain rfl := Except.ok.inj (hprogress.symm.trans (hdeclare site.body site.instructs))
    rw [List.foldlM_append] at hbodies
    obtain ⟨d₁, hearlier, hbodies⟩ := bind_eq_ok.1 hbodies
    rw [List.foldlM_cons] at hbodies
    obtain ⟨d₂, hbody, hlater⟩ := bind_eq_ok.1 hbodies
    obtain ⟨env, t, t', instrs, hcompile, hsame⟩ := compileBody_congr hbody
    refine .inr ⟨env, t, t', instrs, hcompile, fun other hother hrun => ?_⟩
    -- the types, the declarations and the other bodies come out as they did
    have hstart : ((site.withBody other hother).node.childNodes.filter (·.instr = "type")).foldlM
        Draft.declareType .empty = .ok start := by
      rw [types_eq] at htypes ⊢
      exact htypes
    have hcompiled : (earlier ++ ⟨index, params, locals, other⟩ :: later).foldlM Draft.compileBody d =
        .ok finished := by
      rw [List.foldlM_append]
      refine bind_eq_ok.2 ⟨d₁, hearlier, ?_⟩
      rw [List.foldlM_cons]
      exact bind_eq_ok.2 ⟨d₂, hsame other hrun, hlater⟩
    have hdraft : Draft.ofNode (site.withBody other hother).node = .ok finished :=
      Draft.ofNode_eq_ok.2 ⟨hmodule, _, bind_eq_ok.2 ⟨start, hstart, hdeclare other hother⟩, hcompiled⟩
    exact bind_eq_ok.2 ⟨finished, hdraft, hbuild⟩

end Site

end WasmText
