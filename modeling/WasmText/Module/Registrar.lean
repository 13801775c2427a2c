import WasmText.Module.Draft
/-!
# Registration in place

A registrar works on one draft, a piece at a time: an import is listed,
its entry is made, its name is bound. What has been written when it fails
stays written. An operation that can be refused therefore looks at the
draft before it writes to it.
-/

namespace WasmText

/-- Work on a draft that may fail, and then leaves the draft as it is at
that point. -/
abbrev Registrar := EStateM CompileError Draft

namespace Registrar

/-- Fails if the draft is as described. -/
def refuseIf (condition : Draft → Bool) (defect : Defect) (span : Span) : Registrar Unit := do
  if condition (← get) then throw (.malformed defect span)

/-! ## Pieces -/

def listImport (i : Import) : Registrar Unit := modify (·.addImport i)

def bindName (space : Space) (name : Option String) (index : Nat) : Registrar Unit :=
  modify (·.bind space name index)

/-- Makes the entry of a function without code. -/
def enterFunction (type : Nat) (imported : Bool) : Registrar Nat :=
  modifyGet fun d =>
    let index := d.functions.length
    (index, { d with functions := d.functions ++ [⟨index, type, imported, ⟨[], []⟩⟩] })

/-- Counts an imported memory. -/
def countMemory : Registrar Nat :=
  modifyGet fun d => (d.importedMemories, { d with importedMemories := d.importedMemories + 1 })

/-- Counts an imported global. -/
def countGlobal : Registrar Nat :=
  modifyGet fun d => (d.importedGlobals, { d with importedGlobals := d.importedGlobals + 1 })

/-- Makes the entry of a memory defined here. -/
def enterMemory (limits : Limits) : Registrar Nat :=
  modifyGet fun d => (d.count .memory, { d with memories := d.memories ++ [limits] })

/-! ## Operations that may be refused -/

/-- Registers an import, unless its space has a definition. -/
def importInto (space : Space) (hasDefinition : Draft → Bool) (enter : Registrar Nat)
    (name : Option String) (i : Import) (span : Span) : Registrar Nat := do
  refuseIf hasDefinition (.importAfter space) span
  listImport i
  let index ← enter
  bindName space name index
  return index

def importFunction (name : Option String) (module field : String) (type : Nat) (span : Span) :
    Registrar Nat :=
  importInto .function (·.functions.any (!·.imported)) (enterFunction type true) name
    ⟨module, field, .function type⟩ span

def importMemory (name : Option String) (module field : String) (limits : Limits) (span : Span) :
    Registrar Nat :=
  importInto .memory (!·.memories.isEmpty) countMemory name ⟨module, field, .memory limits⟩ span

def importGlobal (name : Option String) (module field : String) (type : GlobalType)
    (span : Span) : Registrar Nat :=
  importInto .global (!·.globals.isEmpty) countGlobal name ⟨module, field, .global type⟩ span

def addMemory (name : Option String) (limits : Limits) (span : Span) : Registrar Nat := do
  refuseIf (fun _ => limits.shared && limits.max.isNone) .sharedWithoutMaximum span
  let index ← enterMemory limits
  bindName .memory name index
  return index

end Registrar

end WasmText
