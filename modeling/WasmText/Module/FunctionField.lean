import WasmText.Module.Field
/-!
# Function fields

A function field mixes its signature, its locals, its exports and its
instructions freely. Each child contributes to one of these, and the
contributions of a kind are taken in order.
-/

namespace WasmText

/-- The parts of a function field. -/
structure FunctionField where
  params : List Slot
  results : List ValType
  /-- Whether any `param` or `result` form is written. -/
  spelled : Bool
  locals : List Slot
  exports : List (String × Span)
  /-- The names of an inline import and its place. -/
  origin : Option (String × String × Span)
  body : List Expr

namespace FunctionField

def empty : FunctionField := ⟨[], [], false, [], [], none, []⟩

/-- What one child contributes. What is no declaration belongs to the
body. -/
def ofChild (e : Expr) : Except CompileError FunctionField := do
  match e.node? with
  | none => return { empty with body := [e] }
  | some n =>
    match n.instr with
    | "type" => return empty
    | "export" => return { empty with exports := [(← n.publicName, n.span)] }
    | "import" =>
      let (module, field) ← n.originNames
      return { empty with origin := some (module, field, n.span) }
    | "param" => return { empty with params := ← Slot.listOf n, spelled := true }
    | "result" => return { empty with results := ← ValType.listOf n, spelled := true }
    | "local" => return { empty with locals := ← Slot.listOf n }
    | _ => return { empty with body := [e] }

/-- The contributions of several children together. The last import
counts. -/
def join (parts : List FunctionField) : FunctionField where
  params := parts.flatMap (·.params)
  results := parts.flatMap (·.results)
  spelled := parts.any (·.spelled)
  locals := parts.flatMap (·.locals)
  exports := parts.flatMap (·.exports)
  origin := parts.reverse.findSome? (·.origin)
  body := parts.flatMap (·.body)

def ofNode (n : Node) : Except CompileError FunctionField := do
  return join (← n.children.mapM ofChild)

/-- The signature that the field spells out, if it does. -/
def signature? (f : FunctionField) : Option FuncType :=
  if f.spelled then some ⟨f.params.map (·.type), f.results⟩ else none

/-- The type index of the function, its parameters, and the type table with
its signature. A `type` form without spelled-out parameters gives them
without names. -/
def resolveType (f : FunctionField) (names : Names) (table : TypeTable) (n : Node) :
    Except CompileError (Nat × List Slot × TypeTable) := do
  match n.child? "type" with
  | some use =>
    let index ← Signature.agreed names table use f.signature?
    if f.spelled then return (index, f.params, table)
    else
      let type := (table.at? index).getD .empty
      return (index, type.params.map (⟨none, ·⟩), table)
  | none =>
    let (index, table) := table.intern (f.signature?.getD .empty)
    return (index, f.params, table)

end FunctionField

end WasmText
