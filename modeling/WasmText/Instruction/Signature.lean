import WasmText.Literal
import WasmText.Module.Types
/-!
# Written signatures

Functions, blocks and indirect calls give their signature by `param` and
`result` forms, by a `type` form that refers to the type table, or by both,
which must then agree.
-/

namespace WasmText

namespace ValType

/-- A value type, written as a form with nothing but a name. -/
def ofExpr (e : Expr) : Except CompileError ValType :=
  match e with
  | .node ⟨instr, none, [], span⟩ [] =>
    match ofName? instr with
    | some type => .ok type
    | none => .error (.malformed (.unknownValueType instr) span)
  | _ => .error (.malformed .notAValueType e.span)

/-- The value types that a form lists. -/
def listOf (n : Node) : Except CompileError (List ValType) :=
  n.children.mapM ofExpr

end ValType

namespace Signature

/-- What one form contributes to a signature, if it is a `param` or
`result` form. -/
def part (n : Node) : Except CompileError (Option FuncType) := do
  if n.instr = "param" then return some ⟨← ValType.listOf n, []⟩
  else if n.instr = "result" then return some ⟨[], ← ValType.listOf n⟩
  else return none

/-- The signature that the `param` and `result` forms of a form spell out,
if there are any. -/
def spelled (n : Node) : Except CompileError (Option FuncType) := do
  let parts := (← n.childNodes.mapM part).filterMap id
  if parts.isEmpty then return none
  else return some ⟨parts.flatMap (·.params), parts.flatMap (·.results)⟩

/-- The entry of the type table that an argument refers to, by name or by
number. -/
def referred (names : Names) (table : TypeTable) (p : Param) : Except CompileError Nat := do
  let index ←
    match p.arg with
    | .label name => resolved .type name p.span (names.index? .type name)
    | .number text => Literal.readNatural text p.span
    | .hex text => Literal.readNatural text p.span
    | arg => .error (.malformed (.unexpectedArgument arg) p.span)
  if index < table.count then return index
  else throw (.malformed (.unknownIndex .type index) p.span)

/-- The entry that a `type` form refers to by its one argument. -/
def used (names : Names) (table : TypeTable) (use : Node) : Except CompileError Nat :=
  match use.arguments with
  | [p] => referred names table p
  | _ => .error (.malformed .notOneTypeReference use.span)

/-- The entry that a `type` form refers to. A signature that is spelled out
beside it must repeat that entry. -/
def agreed (names : Names) (table : TypeTable) (use : Node) (beside : Option FuncType) :
    Except CompileError Nat := do
  let index ← used names table use
  if beside.isNone ∨ beside = table.at? index then return index
  else throw (.malformed .inlineTypeDiffers use.span)

/-- The signature of a form, and its index when a `type` form gives one. -/
def ofNode (names : Names) (table : TypeTable) (n : Node) :
    Except CompileError (FuncType × Option Nat) := do
  let beside ← spelled n
  match n.child? "type" with
  | some use =>
    let index ← agreed names table use beside
    return ((table.at? index).getD .empty, some index)
  | none => return (beside.getD .empty, none)

/-- The index of a form's signature, registering one that is only spelled
out. -/
def intern (names : Names) (table : TypeTable) (n : Node) :
    Except CompileError (Nat × TypeTable) := do
  match ← ofNode names table n with
  | (_, some index) => return (index, table)
  | (type, none) => return table.intern type

end Signature

end WasmText
