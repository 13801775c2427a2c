import WasmText.Instruction.Body
import WasmText.Module.FunctionField
/-!
# Declarations

Each field of a module adds to the draft. A defined function adds its
entry, and its body is put aside until every name is known.
-/

namespace WasmText

namespace Draft

/-- Runs a step that may register types. -/
def typing {α : Type} (d : Draft) (step : Typing α) : Except CompileError (α × Draft) :=
  match step d.types with
  | .ok a types => .ok (a, { d with types })
  | .error e _ => .error e

/-- The bytes of an expression outside any function. -/
def constant [HexReader] (d : Draft) (es : List Expr) : Except CompileError
    (List UInt8 × Draft) := do
  let (instrs, d) ← d.typing (compileAll ⟨d.names, [], []⟩ es)
  return (Instr.encodeAll instrs, d)

/-- Adds the exports that a field declares inside itself. -/
def exportAll (d : Draft) (kind : ExportKind) (index : Nat) (exports : List (String × Span)) :
    Draft :=
  exports.foldl (fun d (name, span) => d.addExport ⟨name, kind, .index index span⟩) d

/-! ## Types and imports -/

def declareType (d : Draft) (n : Node) : Except CompileError Draft := do
  match n.child? "func" with
  | none => throw (.malformed .typeWithoutSignature n.span)
  | some func =>
    let (type, _) ← Signature.ofNode d.names d.types func
    return (d.addType n.label? type).2

def declareImport (d : Draft) (n : Node) : Except CompileError Draft := do
  let (module, field) ← n.originNames
  match n.childNodes.head? with
  | none => throw (.malformed (.missingDescriptor "import") n.span)
  | some desc =>
    match desc.instr with
    | "func" =>
      let (type, types) ← Signature.intern d.names d.types desc
      let (_, d) ← { d with types }.importFunction desc.label? module field type desc.span
      return d
    | "memory" =>
      let limits ← Limits.ofHead .memory desc.toHead
      let (_, d) ← d.importMemory desc.label? module field limits desc.span
      return d
    | "global" =>
      match desc.children.head? with
      | none => throw (.malformed .missingGlobalType desc.span)
      | some e =>
        let type ← GlobalType.ofExpr e
        let (_, d) ← d.importGlobal desc.label? module field type desc.span
        return d
    | other => throw (.malformed (.unsupportedImport other) desc.span)

/-! ## Memories, tables, globals -/

/-- The exports written inside a field. -/
def inlineExports (n : Node) : Except CompileError (List (String × Span)) :=
  (n.childNodes.filter (·.instr = "export")).mapM fun e => do
    return (← e.publicName, e.span)

def declareMemory (d : Draft) (n : Node) : Except CompileError Draft := do
  let limits ← Limits.ofHead .memory n.toHead
  let (index, d) ← d.addMemory n.label? limits n.span
  return d.exportAll .memory index (← inlineExports n)

def declareTable (d : Draft) (n : Node) : Except CompileError Draft := do
  let limits ← Limits.ofHead .table n.toHead
  let (index, d) := d.addTable n.label? limits
  return d.exportAll .table index (← inlineExports n)

def declareGlobal [HexReader] (d : Draft) (n : Node) : Except CompileError Draft := do
  match n.children.filter (!·.isNode "export") with
  | [] => throw (.malformed .missingGlobalType n.span)
  | e :: es =>
    let type ← GlobalType.ofExpr e
    let (init, d) ← d.constant es
    let (index, d) := d.addGlobal n.label? ⟨type, init⟩
    return d.exportAll .global index (← inlineExports n)

/-! ## Exports, segments, start -/

def declareExport (d : Draft) (n : Node) : Except CompileError Draft := do
  let name ← n.publicName
  match n.childNodes.head? with
  | none => throw (.malformed (.missingDescriptor "export") n.span)
  | some desc =>
    match ExportKind.ofWord? desc.instr with
    | none => throw (.malformed (.unsupportedExport desc.instr) desc.span)
    | some kind => return d.addExport ⟨name, kind, ← Target.ofHead desc.toHead⟩

/-- The offset of a segment, which an `offset` form may wrap, and the
children after it. -/
def segmentOffset [HexReader] (d : Draft) (n : Node) :
    Except CompileError (List UInt8 × List Expr × Draft) := do
  match n.children with
  | .node head children :: rest =>
    let wrapped := head.instr == Keyword.offset.word
    let (bytes, d) ← d.constant (if wrapped then children else [.node head children])
    return (bytes, rest, d)
  | _ => throw (.malformed (.missingOffset n.instr) n.span)

/-- The functions that one child of an element segment refers to. -/
def elementTargets : Expr → Except CompileError (List Target)
  | .ref name span => .ok [.name name span]
  | .data _ span => .error (.malformed .notAFunction span)
  | .node head _ => do
    if head.instr = "func" then
      let first := (head.name.map fun label => Target.name label.name label.span).toList
      return first ++ (← head.params.mapM Target.ofParam)
    else throw (.malformed .notAFunction head.span)

def declareElement [HexReader] (d : Draft) (n : Node) : Except CompileError Draft := do
  let (offset, rest, d) ← d.segmentOffset n
  let inner ← rest.mapM elementTargets
  let trailing ← n.params.mapM Target.ofParam
  return d.addElement ⟨offset, inner.flatten ++ trailing, n.span⟩

/-- The bytes of one child of a data segment. -/
def childBytes : Expr → Except CompileError (List UInt8)
  | .data bytes _ => .ok bytes
  | e => .error (.malformed .notAString e.span)

/-- The bytes of one parameter of a data segment. -/
def paramBytes (p : Param) : Except CompileError (List UInt8) :=
  match p.arg with
  | .str bytes => .ok bytes
  | arg => .error (.malformed (.unexpectedArgument arg) p.span)

/-- Strings among the children come before those among the parameters. -/
def declareData [HexReader] (d : Draft) (n : Node) : Except CompileError Draft := do
  let (offset, rest, d) ← d.segmentOffset n
  let inner ← rest.mapM childBytes
  let trailing ← n.params.mapM paramBytes
  return d.addData ⟨offset, inner.flatten ++ trailing.flatten⟩

def declareStart (d : Draft) (n : Node) : Except CompileError Draft := do
  return d.setStart (← Target.ofHead n.toHead)

end Draft

/-- A function whose body waits until everything is declared. -/
structure DeferredBody where
  index : Nat
  params : List Slot
  locals : List Slot
  body : List Expr

/-- The draft so far and the bodies put aside. -/
structure Progress where
  draft : Draft
  bodies : List DeferredBody

namespace Progress

def declareFunction (p : Progress) (n : Node) : Except CompileError Progress := do
  let f ← FunctionField.ofNode n
  let (type, params, types) ← f.resolveType p.draft.names p.draft.types n
  let d := { p.draft with types }
  match f.origin with
  | some (module, field, span) =>
    match f.body, f.locals with
    | [], [] =>
      let (index, d) ← d.importFunction n.label? module field type span
      return { p with draft := d.exportAll .function index f.exports }
    | e :: _, _ => throw (.malformed .bodyOfImport e.span)
    | [], _ :: _ => throw (.malformed .bodyOfImport n.span)
  | none =>
    let (index, d) := d.addFunction n.label? type
    let body : DeferredBody := ⟨index, params, f.locals, f.body⟩
    return ⟨d.exportAll .function index f.exports, p.bodies ++ [body]⟩

/-- A field that has no body to put aside. -/
def onDraft (p : Progress) (step : Draft → Node → Except CompileError Draft) (n : Node) :
    Except CompileError Progress := do
  return { p with draft := ← step p.draft n }

/-- Declares one field of a module. Types are declared already. -/
def declare [HexReader] (p : Progress) (e : Expr) : Except CompileError Progress :=
  match e.node? with
  | none => .error (.malformed (.unexpectedField none) e.span)
  | some n =>
    match n.instr with
    | "type" => .ok p
    | "import" => p.onDraft Draft.declareImport n
    | "func" => p.declareFunction n
    | "memory" => p.onDraft Draft.declareMemory n
    | "table" => p.onDraft Draft.declareTable n
    | "global" => p.onDraft Draft.declareGlobal n
    | "export" => p.onDraft Draft.declareExport n
    | "elem" => p.onDraft Draft.declareElement n
    | "data" => p.onDraft Draft.declareData n
    | "start" => p.onDraft Draft.declareStart n
    | other => .error (.malformed (.unexpectedField (some other)) n.span)

end Progress

end WasmText
