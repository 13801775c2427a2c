/-!
# Names and index spaces

Everything a module declares has an index in the space of its kind, and
may have a name there. A scope holds the names of such spaces and answers
with the latest binding. Inside a function the locals are one list of
slots, and the labels are the constructs around the place of use,
innermost first.
-/

namespace WasmText

/-- The index spaces that a name can be looked up in. -/
inductive Space where
  | type
  | function
  | table
  | memory
  | global
  | local
  | label
deriving DecidableEq

namespace Space

def describe : Space → String
  | type => "type"
  | function => "function"
  | table => "table"
  | memory => "memory"
  | global => "global"
  | «local» => "local"
  | label => "label"

def all : List Space := [type, function, table, memory, global, «local», label]

def ofName? (name : String) : Option Space :=
  all.find? (·.describe == name)

/-- Locals and labels belong to one function. -/
def inFunction : Space → Bool
  | «local» | label => true
  | _ => false

end Space

/-- Bindings of keys to indices, the latest first. -/
structure Scope (κ : Type) where
  bindings : List (κ × Nat)

namespace Scope

variable {κ : Type} [DecidableEq κ]

def empty : Scope κ := ⟨[]⟩

/-- Binds a key, hiding what it was bound to before. -/
def bind (scope : Scope κ) (key : κ) (index : Nat) : Scope κ :=
  ⟨(key, index) :: scope.bindings⟩

def lookup? (scope : Scope κ) (key : κ) : Option Nat :=
  (scope.bindings.find? (·.1 = key)).map (·.2)

/-- Binds a key unless it is bound. -/
def bindNew (scope : Scope κ) (key : κ) (index : Nat) : Scope κ :=
  if (scope.lookup? key).isSome then scope else scope.bind key index

end Scope

/-- The names of a module, in all spaces that are not a function's own. -/
abbrev Names := Scope (Space × String)

namespace Names

/-- Names of locals and labels never reach the module. -/
def declare (names : Names) (space : Space) (name : String) (index : Nat) : Names :=
  if space.inFunction then names else names.bind (space, name) index

def index? (names : Names) (space : Space) (name : String) : Option Nat :=
  names.lookup? (space, name)

end Names

/-- The parameters and locals of a function, named or not, in order. -/
abbrev Locals := List (Option String)

/-- The index of the last slot of the given name. -/
def Locals.index? (slots : Locals) (name : String) : Option Nat :=
  (slots.reverse.idxOf? (some name)).map (slots.length - 1 - ·)

/-- The labels of the constructs around a place, innermost first. -/
abbrev Labels := List (Option String)

/-- How many constructs lie inside the innermost one of the given name. -/
def Labels.depth? (labels : Labels) (name : String) : Option Nat :=
  labels.idxOf? (some name)

end WasmText
