import WasmText.Error
import WasmText.Module.Binary
/-!
# Module drafts

A draft collects the declarations of a module, gives each its index, and
remembers the names. Functions, memories and globals share their spaces
with imports, which come first, so an import is refused once its kind has a
definition. Exports, the start function and element segments refer to
functions and other things by target; targets are resolved when the draft
is finished, after everything has been declared.
-/

namespace WasmText

namespace ExportKind

def word : ExportKind → String
  | function => "func"
  | table => "table"
  | memory => "memory"
  | global => "global"

def all : List ExportKind := [function, table, memory, global]

def ofWord? (word : String) : Option ExportKind :=
  all.find? (·.word == word)

/-- The space that exports of the kind refer to. -/
def space : ExportKind → Space
  | function => .function
  | table => .table
  | memory => .memory
  | global => .global

end ExportKind

/-- A reference to be resolved once every declaration is known. -/
inductive Target where
  | name (name : String) (span : Span)
  | index (index : Nat) (span : Span)
deriving DecidableEq

/-- An exported thing and the name it is exported under. -/
structure Export where
  name : String
  kind : ExportKind
  target : Target
deriving DecidableEq

/-- Functions to be placed in table 0. -/
structure Element where
  offset : List UInt8
  functions : List Target
  span : Span
deriving DecidableEq

/-- An entry of the function space. The code of an import is never
written. -/
structure Function where
  index : Nat
  type : Nat
  imported : Bool
  code : Code
deriving DecidableEq

/-- The declarations of a module so far. -/
structure Draft where
  names : Names
  types : TypeTable
  imports : List Import
  functions : List Function
  tables : List Limits
  memories : List Limits
  importedMemories : Nat
  globals : List Global
  importedGlobals : Nat
  exports : List Export
  start : Option Target
  elements : List Element
  data : List (Segment UInt8)

namespace Draft

def empty : Draft where
  names := .empty
  types := .empty
  imports := []
  functions := []
  tables := []
  memories := []
  importedMemories := 0
  globals := []
  importedGlobals := 0
  exports := []
  start := none
  elements := []
  data := []

/-! ## Lookup -/

def indexOfName (d : Draft) (space : Space) (name : String) (span : Span) :
    Except CompileError Nat :=
  resolved space name span (d.names.index? space name)

/-- How many things a space holds, imports included. -/
def count (d : Draft) : Space → Nat
  | .type => d.types.count
  | .function => d.functions.length
  | .table => d.tables.length
  | .memory => d.importedMemories + d.memories.length
  | .global => d.importedGlobals + d.globals.length
  | .local | .label => 0

/-- The index that a target refers to. -/
def resolve (d : Draft) (space : Space) : Target → Except CompileError Nat
  | .name name span => d.indexOfName space name span
  | .index index span =>
    if index < d.count space then .ok index
    else .error (.malformed (.unknownIndex space index) span)

/-! ## Registration

Each function gives the index of the new entry and the draft with it. -/

/-- Binds a name, if there is one. -/
def bind (d : Draft) (space : Space) (name : Option String) (index : Nat) : Draft :=
  match name with
  | some name => { d with names := d.names.declare space name index }
  | none => d

/-- The index of a signature, registering it if it is new. -/
def internType (d : Draft) (t : FuncType) : Nat × Draft :=
  let (index, types) := d.types.intern t
  (index, { d with types })

/-- Registers a signature under a name. -/
def addType (d : Draft) (name : Option String) (t : FuncType) : Nat × Draft :=
  let (index, d) := d.internType t
  (index, d.bind .type name index)

def addImport (d : Draft) (i : Import) : Draft :=
  { d with imports := d.imports ++ [i] }

def addFunctionEntry (d : Draft) (name : Option String) (type : Nat) (imported : Bool) :
    Nat × Draft :=
  let index := d.functions.length
  let entry : Function := ⟨index, type, imported, ⟨[], []⟩⟩
  (index, { d with functions := d.functions ++ [entry] }.bind .function name index)

def importFunction (d : Draft) (name : Option String) (module field : String) (type : Nat)
    (span : Span) : Except CompileError (Nat × Draft) :=
  if d.functions.any (!·.imported) then .error (.malformed (.importAfter .function) span)
  else .ok ((d.addImport ⟨module, field, .function type⟩).addFunctionEntry name type true)

def importMemory (d : Draft) (name : Option String) (module field : String) (limits : Limits)
    (span : Span) : Except CompileError (Nat × Draft) :=
  if !d.memories.isEmpty then .error (.malformed (.importAfter .memory) span)
  else
    let index := d.importedMemories
    let d := d.addImport ⟨module, field, .memory limits⟩
    .ok (index, { d with importedMemories := index + 1 }.bind .memory name index)

def importGlobal (d : Draft) (name : Option String) (module field : String) (type : GlobalType)
    (span : Span) : Except CompileError (Nat × Draft) :=
  if !d.globals.isEmpty then .error (.malformed (.importAfter .global) span)
  else
    let index := d.importedGlobals
    let d := d.addImport ⟨module, field, .global type⟩
    .ok (index, { d with importedGlobals := index + 1 }.bind .global name index)

/-- Registers a function to be defined here. Its code is set later. -/
def addFunction (d : Draft) (name : Option String) (type : Nat) : Nat × Draft :=
  d.addFunctionEntry name type false

/-- Sets the code of a function. There may be no such function, and then
nothing changes. -/
def setCode (d : Draft) (index : Nat) (code : Code) : Draft :=
  { d with functions := d.functions.modify index fun f => { f with code } }

def addTable (d : Draft) (name : Option String) (limits : Limits) : Nat × Draft :=
  let index := d.count .table
  (index, { d with tables := d.tables ++ [limits] }.bind .table name index)

def addMemory (d : Draft) (name : Option String) (limits : Limits) (span : Span) :
    Except CompileError (Nat × Draft) :=
  if limits.shared && limits.max.isNone then .error (.malformed .sharedWithoutMaximum span)
  else
    let index := d.count .memory
    .ok (index, { d with memories := d.memories ++ [limits] }.bind .memory name index)

def addGlobal (d : Draft) (name : Option String) (global : Global) : Nat × Draft :=
  let index := d.count .global
  (index, { d with globals := d.globals ++ [global] }.bind .global name index)

def addExport (d : Draft) (e : Export) : Draft :=
  { d with exports := d.exports ++ [e] }

def setStart (d : Draft) (target : Target) : Draft :=
  { d with start := some target }

def addElement (d : Draft) (e : Element) : Draft :=
  { d with elements := d.elements ++ [e] }

def addData (d : Draft) (s : Segment UInt8) : Draft :=
  { d with data := d.data ++ [s] }

/-! ## Finishing -/

/-- Tables are written only when an element segment or an export refers to
one. -/
def needsTables (d : Draft) : Bool :=
  !d.elements.isEmpty || d.exports.any (·.kind == .table)

/-- The tables to be written. -/
def writtenTables (d : Draft) : Except CompileError (List Limits) :=
  if !d.needsTables then .ok []
  else if d.tables.isEmpty then
    let span := (d.elements.head?.map (·.span)).getD Span.zero
    .error (.malformed .elementsWithoutTable span)
  else .ok d.tables

/-- The functions defined here, in order. -/
def defined (d : Draft) : List Function := d.functions.filter (!·.imported)

/-- Resolves every target. The first that fails, in the order exports,
start, elements, decides the error. -/
def finish (d : Draft) : Except CompileError BinaryModule := do
  let exports ← d.exports.mapM fun e => do
    return (e.name, e.kind, ← d.resolve e.kind.space e.target)
  let start ← d.start.mapM (d.resolve .function)
  let elements ← d.elements.mapM fun e => do
    return (⟨e.offset, ← e.functions.mapM (d.resolve .function)⟩ : Segment Nat)
  let tables ← d.writtenTables
  return {
    types := d.types.entries
    imports := d.imports
    functions := d.defined.map (·.type)
    tables
    memories := d.memories
    globals := d.globals
    exports
    start
    elements
    code := d.defined.map (·.code)
    data := d.data }

/-- The bytes of the finished module. -/
def build (d : Draft) : Except CompileError (List UInt8) :=
  d.finish.map BinaryModule.encode

end Draft

end WasmText
