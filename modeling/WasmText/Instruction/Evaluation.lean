import WasmText.Instruction.Body
/-!
# Evaluation along a stack of labels

The compiler of a function keeps the labels of the constructs around the
place it has come to in a stack. A construct pushes its label before its
body is evaluated and pops it afterwards; the condition of a conditional
comes before the push. After an error the stack is what it was at the
fault. Where `compileExpr` is told the labels around a tree, `evaluate`
finds them in the stack.
-/

namespace WasmText

/-- What changes while a function is compiled: the type table, and the
labels of the constructs that are open, innermost first. -/
structure FunctionState where
  table : TypeTable
  labels : Labels
deriving DecidableEq

/-- Compiling along a stack of labels. -/
abbrev Evaluation := EStateM CompileError FunctionState

namespace Evaluation

/-- A step that leaves the stack alone. -/
def typing {α : Type} (x : Typing α) : Evaluation α :=
  fun s =>
    match x s.table with
    | .ok a table => .ok a { s with table }
    | .error e table => .error e { s with table }

/-- The labels around the place that evaluation has come to. -/
def labels : Evaluation Labels := return (← get).labels

def push (label : Option String) : Evaluation Unit :=
  modify fun s => { s with labels := label :: s.labels }

def pop : Evaluation Unit :=
  modify fun s => { s with labels := s.labels.tail }

end Evaluation

mutual

/-- The instructions of a tree. -/
def evaluate [HexReader] (names : Names) (locals : Locals) : Expr → Evaluation (List Instr)
  | .ref name span => throw (.malformed (.unexpectedReference name) span)
  | .data _ span => throw (.malformed .unexpectedString span)
  | .node head children => do
    match Opcode.ofName? head.instr with
    | none => throw (notAnInstruction head)
    | some op =>
      match op.shape with
      | .structured =>
        let (type, use) ← .typing (.read (Signature.ofNode names · ⟨head, children⟩))
        if op = .conditional then
          let condition ← evaluateWhere names locals isCondition children
          match Node.child? ⟨head, children⟩ "then", Node.child? ⟨head, children⟩ "else" with
          | none, _ => throw (.malformed .missingThen head.span)
          | some _, none =>
            let block ← .typing (blockType type use)
            .push head.label?
            let first ← evaluateBranch names locals "then" children
            .pop
            return condition ++ .op op (.block block) :: first ++ [.close]
          | some _, some _ =>
            let block ← .typing (blockType type use)
            .push head.label?
            let first ← evaluateBranch names locals "then" children
            let second ← evaluateBranch names locals "else" children
            .pop
            return condition ++ .op op (.block block) :: first ++ .otherwise :: second ++ [.close]
        else
          let block ← .typing (blockType type use)
          .push head.label?
          let body ← evaluateWhere names locals (!·.isSignature) children
          .pop
          return .op op (.block block) :: body ++ [.close]
      | .indirect =>
        let type ← .typing (callType names ⟨head, children⟩)
        let operands ← evaluateWhere names locals (!·.isSignature) children
        return operands ++ [.op op (.indirect type)]
      | shape =>
        let operands ← evaluateWhere names locals (fun _ => true) children
        let labels ← .labels
        let operand ← .typing (.check (immediate ⟨names, locals, labels⟩ shape head))
        return operands ++ [.op op operand]

/-- The instructions of those trees of a list that `keep` picks. -/
def evaluateWhere [HexReader] (names : Names) (locals : Locals) (keep : Expr → Bool) :
    List Expr → Evaluation (List Instr)
  | [] => return []
  | e :: es => do
    if keep e then
      let first ← evaluate names locals e
      let rest ← evaluateWhere names locals keep es
      return first ++ rest
    else evaluateWhere names locals keep es

/-- The instructions inside the first form of the given name. -/
def evaluateBranch [HexReader] (names : Names) (locals : Locals) (name : String) :
    List Expr → Evaluation (List Instr)
  | [] => return []
  | .node head children :: es =>
    if head.instr = name then evaluateWhere names locals (fun _ => true) children
    else evaluateBranch names locals name es
  | _ :: es => evaluateBranch names locals name es

end

end WasmText
