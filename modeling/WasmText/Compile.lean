import WasmText.Tree.Parser
import WasmText.Module.Declaration
/-!
# Compiling a module

The fields of a module are gone through three times. First the types are
registered, so that a type may be used before its field. Then everything
else is declared, which fixes indices and names. Last the bodies are
compiled in order, now that every name is known, and the draft is
finished.
-/

namespace WasmText

namespace Draft

/-- Compiles a body that was put aside and sets it. -/
def compileBody [HexReader] (d : Draft) (b : DeferredBody) : Except CompileError Draft := do
  let env : Env := ⟨d.names, (b.params ++ b.locals).map (·.name), []⟩
  let (instrs, d) ← d.typing (compileAll env b.body)
  return d.setCode b.index ⟨b.locals.map (·.type), Instr.encodeAll instrs⟩

/-- The draft of a module form, with every body compiled. -/
def ofNode [HexReader] (n : Node) : Except CompileError Draft := do
  if n.instr = "module" then
    let draft ← (n.childNodes.filter (·.instr = "type")).foldlM declareType .empty
    let progress ← n.children.foldlM Progress.declare ⟨draft, []⟩
    progress.bodies.foldlM compileBody progress.draft
  else throw (.malformed .notAModule n.span)

end Draft

/-- The bytes of a module form. -/
def Node.compile [HexReader] (n : Node) : Except CompileError (List UInt8) := do
  (← Draft.ofNode n).build

/-- The bytes of the module that a source denotes. -/
def compile [HexReader] (source : String) : Except CompileError (List UInt8) :=
  match parse source with
  | .ok n => n.compile
  | .error e => .error (.parse e)

end WasmText
