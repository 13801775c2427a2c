import WasmText.Tree
import Mathlib.Logic.Function.Basic
/-!
# The same tree in another guise

Names, places and the spelling of numbers are how a tree looks. A guise
changes them throughout: it gives every name another one, no two the same,
moves every place, and may mark a decimal number as hexadecimal or the
other way round. The forms stay, with their words, their strings and their
order. A tree without its places is the tree in the guise `Guise.bare`.
-/

namespace WasmText

/-- Another look for names, places and numbers. -/
structure Guise where
  name : String → String
  place : Span → Span
  number : String → Argument
  hex : String → Argument
  name_injective : Function.Injective name
  /-- The place of an error that has none stays. -/
  place_zero : place .zero = .zero
  number_cases : ∀ text, number text = .number text ∨ number text = .hex text
  hex_cases : ∀ text, hex text = .number text ∨ hex text = .hex text

/-- Everything but places stays. -/
def Guise.bare : Guise where
  name := id
  place _ := .zero
  number := .number
  hex := .hex
  name_injective := Function.injective_id
  place_zero := rfl
  number_cases _ := .inl rfl
  hex_cases _ := .inr rfl

@[simp] theorem Guise.bare_place (span : Span) : bare.place span = .zero := rfl

variable (g : Guise)

/-! ## Trees -/

def Argument.dress : Argument → Argument
  | number text => g.number text
  | hex text => g.hex text
  | str bytes => .str bytes
  | label name => .label (g.name name)
  | keyword key value => .keyword key value

def Label.dress (label : Label) : Label := ⟨g.name label.name, g.place label.span⟩

def Param.dress (p : Param) : Param := ⟨p.arg.dress g, g.place p.span⟩

def Head.dress (head : Head) : Head :=
  ⟨head.instr, head.name.map (·.dress g), head.params.map (·.dress g), g.place head.span⟩

def Expr.dress : Expr → Expr
  | .ref name span => .ref (g.name name) (g.place span)
  | .data bytes span => .data bytes (g.place span)
  | .node head children => .node (head.dress g) (children.map fun e => e.dress)

def Node.dress (n : Node) : Node := ⟨n.toHead.dress g, n.children.map (·.dress g)⟩

/-- The tree without its places. -/
def Expr.bare (e : Expr) : Expr := e.dress .bare

/-- The form without its places. -/
def Node.bare (n : Node) : Node := n.dress .bare

/-! ## What a guise leaves alone -/

variable {g}

namespace Argument

@[simp] theorem dress_str (bytes : List UInt8) : (str bytes).dress g = .str bytes := rfl

@[simp] theorem dress_label (name : String) : (label name).dress g = .label (g.name name) := rfl

@[simp] theorem dress_keyword (key : Keyword) (value : Option String) :
    (keyword key value).dress g = .keyword key value := rfl

/-- Only a name looks like a name. -/
theorem dress_ne_label {a : Argument} (h : ∀ name, a ≠ .label name) (name : String) :
    a.dress g ≠ .label name := by
  cases a with
  | number text =>
      rcases g.number_cases text with hn | hn
      · simp [dress, hn]
      · simp [dress, hn]
  | hex text =>
      rcases g.hex_cases text with hx | hx
      · simp [dress, hx]
      · simp [dress, hx]
  | str bytes => nofun
  | label other => exact absurd rfl (h other)
  | keyword key value => nofun

end Argument

namespace Param

/-- A decimal number still is a number, decimal or hexadecimal, with the
same text. -/
theorem dress_number (text : String) (span : Span) :
    dress g ⟨.number text, span⟩ = ⟨.number text, g.place span⟩ ∨
      dress g ⟨.number text, span⟩ = ⟨.hex text, g.place span⟩ := by
  rcases g.number_cases text with h | h
  · exact .inl (by rw [dress, Argument.dress, h])
  · exact .inr (by rw [dress, Argument.dress, h])

/-- So is a hexadecimal one. -/
theorem dress_hex (text : String) (span : Span) :
    dress g ⟨.hex text, span⟩ = ⟨.number text, g.place span⟩ ∨
      dress g ⟨.hex text, span⟩ = ⟨.hex text, g.place span⟩ := by
  rcases g.hex_cases text with h | h
  · exact .inl (by rw [dress, Argument.dress, h])
  · exact .inr (by rw [dress, Argument.dress, h])

end Param

namespace Head

@[simp] theorem dress_instr (head : Head) : (head.dress g).instr = head.instr := rfl

@[simp] theorem dress_span (head : Head) : (head.dress g).span = g.place head.span := rfl

@[simp] theorem dress_params (head : Head) :
    (head.dress g).params = head.params.map (·.dress g) := rfl

@[simp] theorem dress_name (head : Head) : (head.dress g).name = head.name.map (·.dress g) := rfl

/-- A label is another one in another guise, and missing where it is
missing. -/
theorem dress_label? (head : Head) : (head.dress g).label? = head.label?.map g.name := by
  simp only [label?, dress_name, Option.map_map]
  rfl

/-- The arguments are those of the other guise, the label first where it
counts as one. -/
theorem dress_arguments (head : Head) :
    (head.dress g).arguments = head.arguments.map (·.dress g) := by
  unfold arguments
  rw [dress_name, dress_params]
  cases head.name with
  | none => rfl
  | some label => rfl

end Head

namespace Expr

/-- A reference refers to the other name. -/
theorem dress_ref (name : String) (span : Span) :
    (ref name span).dress g = .ref (g.name name) (g.place span) := by rw [dress]

/-- The bytes of data stay. -/
theorem dress_data (bytes : List UInt8) (span : Span) :
    (data bytes span).dress g = .data bytes (g.place span) := by rw [dress]

/-- A form keeps its word and its children in their order. -/
theorem dress_node (head : Head) (children : List Expr) :
    (node head children).dress g = .node (head.dress g) (children.map (·.dress g)) := by rw [dress]

/-- The place of a tree moves as all places do. -/
theorem dress_span (e : Expr) : (e.dress g).span = g.place e.span := by
  cases e with
  | ref => rw [dress_ref]; rfl
  | data => rw [dress_data]; rfl
  | node => rw [dress_node]; rfl

/-- What was a form still is one, and nothing else is. -/
theorem dress_node? (e : Expr) : (e.dress g).node? = e.node?.map (·.dress g) := by
  cases e with
  | ref => rw [dress_ref]; rfl
  | data => rw [dress_data]; rfl
  | node => rw [dress_node]; rfl

/-- Whether a tree is a form of a given word does not depend on how it
looks. -/
@[simp] theorem dress_isNode (e : Expr) (instr : String) :
    (e.dress g).isNode instr = e.isNode instr := by
  cases e with
  | ref => rw [dress_ref]; rfl
  | data => rw [dress_data]; rfl
  | node => rw [dress_node]; rfl

/-- The forms of a signature are recognized in every guise. -/
@[simp] theorem dress_isSignature (e : Expr) : (e.dress g).isSignature = e.isSignature := by
  simp [isSignature]

/-- A choice of trees that a guise does not change is the same choice. -/
theorem filter_dress {keep : Expr → Bool} (hkeep : ∀ e : Expr, keep (e.dress g) = keep e)
    (es : List Expr) : (es.map (·.dress g)).filter keep = (es.filter keep).map (·.dress g) := by
  rw [List.filter_map]
  congr 2
  funext e
  exact hkeep e

end Expr

namespace Node

@[simp] theorem dress_toHead (n : Node) : (n.dress g).toHead = n.toHead.dress g := rfl

@[simp] theorem dress_instr (n : Node) : (n.dress g).instr = n.instr := rfl

@[simp] theorem dress_children (n : Node) : (n.dress g).children = n.children.map (·.dress g) := rfl

/-- Forms among the children stay where they are. -/
theorem dress_childNodes (n : Node) : (n.dress g).childNodes = n.childNodes.map (·.dress g) := by
  rw [childNodes, childNodes, dress_children, List.filterMap_map, List.map_filterMap]
  congr 1
  funext e
  exact e.dress_node?

/-- The first form of a given word is the same one. -/
theorem dress_child? (n : Node) (instr : String) :
    (n.dress g).child? instr = (n.child? instr).map (·.dress g) := by
  rw [child?, child?, dress_childNodes, List.find?_map]
  rfl

/-- Whether there is one does not depend on how a tree looks. -/
theorem dress_hasChild (n : Node) (instr : String) :
    (n.dress g).hasChild instr = n.hasChild instr := by
  rw [hasChild, dress_child?, Option.isSome_map, hasChild]

end Node

end WasmText
