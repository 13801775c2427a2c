import WasmText.Instruction.Signature
import WasmText.Module.Draft
/-!
# Parts of module fields

What the fields of a module are made of: names given as strings, references
to other fields, limits, types of globals, and the slots that parameters
and locals declare.
-/

namespace WasmText

/-! ## Names and references -/

namespace Head

/-- The string at a position of a form's parameters, which must be text. -/
def stringAt (head : Head) (position : Nat) (what : String) : Except CompileError String :=
  match head.params[position]? with
  | some ⟨.str bytes, span⟩ =>
    match Utf8.decode? bytes with
    | some text => .ok text
    | none => .error (.malformed (.notUtf8 what) span)
  | _ => .error (.malformed (.missingString head.instr what) head.span)

/-- The module and field names of an import. -/
def originNames (head : Head) : Except CompileError (String × String) := do
  return (← head.stringAt 0 "module name", ← head.stringAt 1 "field name")

/-- The name of an export. -/
def publicName (head : Head) : Except CompileError String :=
  head.stringAt 0 "name"

end Head

namespace Target

/-- A reference by name or by number. -/
def ofParam (p : Param) : Except CompileError Target :=
  match p.arg with
  | .label label => .ok (.name label p.span)
  | .number text => return .index (← Literal.readNatural text p.span) p.span
  | .hex text => return .index (← Literal.readNatural text p.span) p.span
  | arg => .error (.malformed (.unexpectedArgument arg) p.span)

/-- What an export or the start function refers to: a label, or else one
parameter. -/
def ofHead (head : Head) : Except CompileError Target :=
  match head.name, head.params with
  | some label, _ => .ok (.name label.name label.span)
  | none, [p] => ofParam p
  | none, _ => .error (.malformed (.missingReference head.instr) head.span)

end Target

/-! ## Slots -/

/-- A parameter or a local. -/
structure Slot where
  name : Option String
  type : ValType
deriving DecidableEq

/-- The slots that a `param` or `local` form declares. A name goes with
exactly one type. -/
def Slot.listOf (n : Node) : Except CompileError (List Slot) := do
  let types ← ValType.listOf n
  match n.name, types with
  | none, types => return types.map (⟨none, ·⟩)
  | some label, [type] => return [⟨some label.name, type⟩]
  | some label, _ => throw (.malformed (.slotTypes n.instr label.name) n.span)

/-! ## Types of globals, and limits -/

/-- A value type, alone or inside a `mut` form. -/
def GlobalType.ofExpr (e : Expr) : Except CompileError GlobalType := do
  if e.isNode "mut" then
    match e with
    | .node _ [inner] => return ⟨← ValType.ofExpr inner, true⟩
    | _ => throw (.malformed .mutableWithoutType e.span)
  else return ⟨← ValType.ofExpr e, false⟩

namespace Limits

/-- The kinds of thing that have limits. -/
inductive Bearer where
  | memory
  | table
deriving DecidableEq

/-- Reads bounds, and the one keyword that the kind allows, from the
parameters of a form. -/
def bounds (bearer : Bearer) : List Param → Except CompileError (List Nat × Bool)
  | [] => .ok ([], false)
  | p :: ps =>
    match p.arg, bearer with
    | .number text, _ => do
      let bound ← Literal.readNatural text p.span
      let (rest, shared) ← bounds bearer ps
      return (bound :: rest, shared)
    | .hex text, _ => do
      let bound ← Literal.readNatural text p.span
      let (rest, shared) ← bounds bearer ps
      return (bound :: rest, shared)
    | .keyword .shared none, .memory => do
      let (rest, _) ← bounds bearer ps
      return (rest, true)
    | .keyword .funcref none, .table => bounds bearer ps
    | arg, _ => .error (.malformed (.unexpectedArgument arg) p.span)

/-- The limits of a memory or table: a least size and perhaps a greatest. -/
def ofHead (bearer : Bearer) (head : Head) : Except CompileError Limits := do
  match ← bounds bearer head.params with
  | ([min], shared) => return ⟨min, none, shared⟩
  | ([min, max], shared) => return ⟨min, some max, shared⟩
  | _ => throw (.malformed (.missingLimits head.instr) head.span)

end Limits

end WasmText
