import WasmText.Instruction.Basic
import WasmText.Instruction.Signature
/-!
# Instruction trees

A tree of forms becomes a list of instructions: the operands of an
instruction come before it, and the branches of a structured instruction
come between it and its end. Names are looked up in the space that the
instruction calls for and in no other. Signatures on blocks and indirect
calls may be new, so compiling goes along with the type table.
-/

namespace WasmText

/-- Compiling against a type table that grows. What was registered before
an error stays registered. -/
abbrev Typing := EStateM CompileError TypeTable

namespace Typing

/-- A step that leaves the type table alone. -/
def check {α : Type} (x : Except CompileError α) : Typing α :=
  fun table =>
    match x with
    | .ok a => .ok a table
    | .error e => .error e table

/-- A step that reads the type table and may refuse. -/
def read {α : Type} (f : TypeTable → Except CompileError α) : Typing α :=
  fun table => check (f table) table

end Typing

/-- What the names in a body mean. -/
structure Env where
  names : Names
  locals : Locals
  labels : Labels

namespace Env

/-- Inside one more construct. -/
def enter (env : Env) (label : Option String) : Env :=
  { env with labels := label :: env.labels }

/-- How far out the target of a branch lies. -/
def branchDepth (env : Env) (p : Param) : Except CompileError Nat :=
  match p.arg with
  | .label name => resolved .label name p.span (env.labels.depth? name)
  | .number text => Literal.readNatural text p.span
  | .hex text => Literal.readNatural text p.span
  | arg => .error (.malformed (.unexpectedArgument arg) p.span)

def index? (env : Env) (space : Space) (name : String) : Option Nat :=
  if space = .local then env.locals.index? name else env.names.index? space name

/-- The function, local or global that an argument refers to. -/
def index (env : Env) (space : Space) (p : Param) : Except CompileError Nat :=
  match p.arg with
  | .label name => resolved space name p.span (env.index? space name)
  | .number text => Literal.readNatural text p.span
  | .hex text => Literal.readNatural text p.span
  | arg => .error (.malformed (.unexpectedArgument arg) p.span)

end Env

/-! ## Immediates -/

/-- The one argument of an instruction. -/
def soleArgument (head : Head) : Except CompileError Param :=
  match head.arguments with
  | [p] => .ok p
  | [] => .error (.malformed (.missingImmediate head.instr) head.span)
  | _ :: extra :: _ => .error (.malformed (.unexpectedArgument extra.arg) extra.span)

/-- Refuses arguments on an instruction that takes none. -/
def refuseArguments (head : Head) : Except CompileError Unit :=
  match head.arguments with
  | [] => .ok ()
  | p :: _ => .error (.malformed (.unexpectedImmediate p.arg head.instr) p.span)

/-- The one argument of a constant, read as a number. -/
def constantArgument {α : Type} (read : String → Span → Except CompileError α) (head : Head) :
    Except CompileError α := do
  let p ← soleArgument head
  match p.arg with
  | .number text => read text p.span
  | .hex text => read text p.span
  | arg => throw (.malformed (.unexpectedArgument arg) p.span)

/-- The exponent of an alignment, which is given as a power of two. -/
def alignmentExponent (bytes : Nat) (span : Span) : Except CompileError Nat :=
  if bytes = Nat.pow 2 bytes.log2 then .ok bytes.log2 else .error (.malformed .alignment span)

/-- The alignment and offset of a memory access. A later argument for
either overrides an earlier one. -/
def accessArguments (alignment offset : Nat) : List Param → Except CompileError (Nat × Nat)
  | [] => .ok (alignment, offset)
  | ⟨.keyword .offset (some text), span⟩ :: ps => do
    accessArguments alignment (← Literal.readNatural text span) ps
  | ⟨.keyword .align (some text), span⟩ :: ps => do
    let bytes ← Literal.readNatural text span
    accessArguments (← alignmentExponent bytes span) offset ps
  | ⟨arg, span⟩ :: _ => .error (.malformed (.unexpectedArgument arg) span)

/-- The targets of a branch table, of which the last is the default. -/
def labelArguments (env : Env) (head : Head) : Except CompileError Immediate := do
  let depths ← head.arguments.mapM env.branchDepth
  match depths.getLast? with
  | some default => return .labels depths.dropLast default
  | none => throw (.malformed (.missingImmediate head.instr) head.span)

/-- The immediate of an instruction that has no body and no signature. -/
def immediate [HexReader] (env : Env) (shape : Shape) (head : Head) :
    Except CompileError Immediate := do
  match shape with
  | .none | .structured | .indirect =>
    refuseArguments head
    return .none
  | .label => return .index (← env.branchDepth (← soleArgument head))
  | .labels => labelArguments env head
  | .function => return .index (← env.index .function (← soleArgument head))
  | .local => return .index (← env.index .local (← soleArgument head))
  | .global => return .index (← env.index .global (← soleArgument head))
  | .access natural =>
    let (alignment, offset) ← accessArguments natural 0 head.arguments
    return .access alignment offset
  | .memory =>
    refuseArguments head
    return .memory
  | .i32 => return .i32 (← constantArgument Literal.readI32 head)
  | .i64 => return .i64 (← constantArgument Literal.readI64 head)
  | .f32 => return .f32 (.ofNat 32 (← constantArgument Literal.readF32 head))
  | .f64 => return .f64 (.ofNat 64 (← constantArgument Literal.readF64 head))

/-! ## Signatures in a body -/

/-- What stands before a conditional: neither its signature nor a
branch. -/
def isCondition (e : Expr) : Bool :=
  !e.isSignature && !e.isNode "then" && !e.isNode "else"

/-- The type of an indirect call: its only argument, or else its signature
forms. -/
def callType (names : Names) (n : Node) : Typing Nat := do
  match n.arguments, n.hasChild "type" with
  | [p], false => .read (Signature.referred names · p)
  | _ :: extra :: _, false => throw (.malformed .notOneCallType extra.span)
  | p :: _, true => throw (.malformed .notOneCallType p.span)
  | [], _ =>
    let (index, table) ← .read (Signature.intern names · n)
    set table
    return index

/-- The block type of a signature, registering the signature where it has
to be. -/
def blockType (type : FuncType) (use : Option Nat) : Typing BlockType :=
  modifyGet (·.blockType type use)

/-- The error for a form that is no instruction. -/
def notAnInstruction (head : Head) : CompileError :=
  if ["then", "else", "end"].contains head.instr then
    .malformed (.misplacedWord head.instr) head.span
  else .unknownInstruction head.instr head.span

/-! ## Bodies -/

mutual

/-- The instructions of a tree. -/
def compileExpr [HexReader] (env : Env) : Expr → Typing (List Instr)
  | .ref name span => throw (.malformed (.unexpectedReference name) span)
  | .data _ span => throw (.malformed .unexpectedString span)
  | .node head children => do
    match Opcode.ofName? head.instr with
    | none => throw (notAnInstruction head)
    | some op =>
      match op.shape with
      | .structured =>
        let (type, use) ← .read (Signature.ofNode env.names · ⟨head, children⟩)
        let inner := env.enter head.label?
        if op = .conditional then
          let condition ← compileWhere env isCondition children
          match Node.child? ⟨head, children⟩ "then", Node.child? ⟨head, children⟩ "else" with
          | none, _ => throw (.malformed .missingThen head.span)
          | some _, none =>
            let block ← blockType type use
            let first ← compileBranch inner "then" children
            return condition ++ .op op (.block block) :: first ++ [.close]
          | some _, some _ =>
            let block ← blockType type use
            let first ← compileBranch inner "then" children
            let second ← compileBranch inner "else" children
            return condition ++ .op op (.block block) :: first ++ .otherwise :: second ++ [.close]
        else
          let block ← blockType type use
          let body ← compileWhere inner (!·.isSignature) children
          return .op op (.block block) :: body ++ [.close]
      | .indirect =>
        let type ← callType env.names ⟨head, children⟩
        let operands ← compileWhere env (!·.isSignature) children
        return operands ++ [.op op (.indirect type)]
      | shape =>
        let operands ← compileWhere env (fun _ => true) children
        let operand ← .check (immediate env shape head)
        return operands ++ [.op op operand]

/-- The instructions of those trees of a list that `keep` picks. -/
def compileWhere [HexReader] (env : Env) (keep : Expr → Bool) : List Expr → Typing (List Instr)
  | [] => return []
  | e :: es => do
    if keep e then
      let first ← compileExpr env e
      let rest ← compileWhere env keep es
      return first ++ rest
    else compileWhere env keep es

/-- The instructions inside the first form of the given name. -/
def compileBranch [HexReader] (env : Env) (name : String) : List Expr → Typing (List Instr)
  | [] => return []
  | .node head children :: es =>
    if head.instr = name then compileWhere env (fun _ => true) children
    else compileBranch env name es
  | _ :: es => compileBranch env name es

end

/-- The instructions of a list of trees. -/
def compileAll [HexReader] (env : Env) (es : List Expr) : Typing (List Instr) :=
  compileWhere env (fun _ => true) es

end WasmText
