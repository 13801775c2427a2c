import WasmText.Token
import WasmText.Source.Utf8
/-!
# Syntax trees

A source is a tree of forms. A form has a head, which names it and holds
its label and its leaf parameters, and a list of children. References and
strings may stand among the children too. The tree does not know what any
form means: value types, module fields and instructions are all forms.
-/

namespace WasmText

/-- A name and where it is written. -/
structure Label where
  name : String
  span : Span
deriving DecidableEq

/-- A leaf parameter of a form. Numbers are kept as text, since what they
mean depends on the form they stand on. -/
inductive Argument where
  | number (text : String)
  | hex (text : String)
  | str (bytes : List UInt8)
  | label (name : String)
  | keyword (key : Keyword) (value : Option String)
deriving DecidableEq

namespace Argument

/-- The argument as messages show it. -/
def describe : Argument → String
  | number text => text
  | hex text => text
  | str bytes => "\"" ++ Utf8.decodeLossy bytes ++ "\""
  | label name => "$" ++ name
  | keyword key (some value) => key.word ++ "=" ++ value
  | keyword key none => key.word

/-- The text of a numeric argument. -/
def numeric? : Argument → Option String
  | number text => some text
  | hex text => some text
  | _ => none

end Argument

/-- An argument and where it is written. -/
structure Param where
  arg : Argument
  span : Span
deriving DecidableEq

/-- All of a form but its children. -/
structure Head where
  instr : String
  name : Option Label
  params : List Param
  span : Span
deriving DecidableEq

namespace Head

/-- The head of a form with neither label nor parameters. -/
def plain (instr : String) (span : Span) : Head := ⟨instr, none, [], span⟩

/-- The label, if there is one, and then the parameters. -/
def arguments (head : Head) : List Param :=
  match head.name with
  | some label => ⟨.label label.name, label.span⟩ :: head.params
  | none => head.params

/-- The name given by the label. -/
def label? (head : Head) : Option String := head.name.map (·.name)

end Head

/-- A syntax tree. -/
inductive Expr where
  | ref (name : String) (span : Span)
  | data (bytes : List UInt8) (span : Span)
  | node (head : Head) (children : List Expr)

/-- A form seen from outside: its head and its children. -/
structure Node extends Head where
  children : List Expr

namespace Expr

def span : Expr → Span
  | ref _ span => span
  | data _ span => span
  | node head _ => head.span

def node? : Expr → Option Node
  | node head children => some ⟨head, children⟩
  | _ => none

/-- Whether the tree is a form of the given name. -/
def isNode (instr : String) : Expr → Bool
  | node head _ => head.instr == instr
  | _ => false

/-- Whether the tree is a form that gives a signature, on a function, a
block or a call. -/
def isSignature (e : Expr) : Bool :=
  e.isNode "param" || e.isNode "result" || e.isNode "type"

/-- The tree found by going down to the numbered child again and again. -/
def descend? (e : Expr) : List Nat → Option Expr
  | [] => some e
  | i :: path => do
    let n ← e.node?
    let child ← n.children[i]?
    child.descend? path

end Expr

namespace Node

def toExpr (n : Node) : Expr := .node n.toHead n.children

/-- The children that are forms. -/
def childNodes (n : Node) : List Node := n.children.filterMap Expr.node?

/-- The first child form of the given name. -/
def child? (n : Node) (instr : String) : Option Node :=
  n.childNodes.find? (·.instr == instr)

def hasChild (n : Node) (instr : String) : Bool := (n.child? instr).isSome

end Node

end WasmText
