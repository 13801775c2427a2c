import WasmText.Binary.Framing
import WasmText.Module.Names
/-!
# Types

Value types, function signatures, and the table that numbers the
signatures a module uses. A signature is registered once: the table finds
it again by its key, a text that spells out parameters and results, in a
map that it keeps beside its entries.
-/

namespace WasmText

/-- The types of values. -/
inductive ValType where
  | i32
  | i64
  | f32
  | f64
deriving DecidableEq

namespace ValType

def name : ValType → String
  | i32 => "i32"
  | i64 => "i64"
  | f32 => "f32"
  | f64 => "f64"

def all : List ValType := [i32, i64, f32, f64]

def ofName? (name : String) : Option ValType :=
  all.find? (·.name == name)

/-- The byte that stands for the type in the binary format. -/
def byte : ValType → UInt8
  | i32 => 0x7F
  | i64 => 0x7E
  | f32 => 0x7D
  | f64 => 0x7C

end ValType

/-- A function signature. -/
structure FuncType where
  params : List ValType
  results : List ValType
deriving DecidableEq

namespace FuncType

def empty : FuncType := ⟨[], []⟩

/-- The signature spelled out, as in `i32,f64/i64`. -/
def key (t : FuncType) : String :=
  let join (types : List ValType) := ",".intercalate (types.map (·.name))
  join t.params ++ "/" ++ join t.results

def encode (t : FuncType) : List UInt8 :=
  0x60 :: Binary.vector (fun v => [v.byte]) t.params ++ Binary.vector (fun v => [v.byte]) t.results

end FuncType

/-- The indices of signatures by their keys, of the first one if a key
occurs again. -/
def FuncType.keysOf (types : List FuncType) : Scope String :=
  types.zipIdx.foldl (fun keys (t, index) => keys.bindNew t.key index) .empty

theorem FuncType.keysOf_concat (types : List FuncType) (t : FuncType) :
    keysOf (types ++ [t]) = (keysOf types).bindNew t.key types.length := by
  simp [keysOf, List.zipIdx_append]

/-- The signatures of a module, in the order they were first registered,
and the map that finds them by their keys. -/
structure TypeTable where
  entries : List FuncType
  keys : Scope String
  keys_eq : keys = FuncType.keysOf entries

namespace TypeTable

/-- The table of the given entries. -/
def ofEntries (entries : List FuncType) : TypeTable := ⟨entries, FuncType.keysOf entries, rfl⟩

@[simp] theorem entries_ofEntries (entries : List FuncType) :
    (ofEntries entries).entries = entries :=
  rfl

def empty : TypeTable := ofEntries []

@[ext] theorem ext {table table' : TypeTable} (h : table.entries = table'.entries) :
    table = table' := by
  obtain ⟨entries, keys, rfl⟩ := table
  obtain ⟨entries', keys', rfl⟩ := table'
  subst h
  rfl

instance : DecidableEq TypeTable := fun _ _ =>
  decidable_of_iff _ ⟨ext, congrArg entries⟩

def count (table : TypeTable) : Nat := table.entries.length

def at? (table : TypeTable) (index : Nat) : Option FuncType := table.entries[index]?

/-- The index of the entry with the given key. -/
def indexOfKey? (table : TypeTable) (key : String) : Option Nat := table.keys.lookup? key

/-- The map goes along with an entry whose key is new. -/
theorem keys_eq_of_new {table : TypeTable} {t : FuncType} (h : table.indexOfKey? t.key = none) :
    table.keys.bind t.key table.count = FuncType.keysOf (table.entries ++ [t]) := by
  rw [FuncType.keysOf_concat, ← table.keys_eq, Scope.bindNew, ← indexOfKey?, h]
  rfl

/-- The index of a signature, registering it at the end if it is new. -/
def intern (table : TypeTable) (t : FuncType) : Nat × TypeTable :=
  match h : table.indexOfKey? t.key with
  | some index => (index, table)
  | none =>
    (table.count, ⟨table.entries ++ [t], table.keys.bind t.key table.count, keys_eq_of_new h⟩)

end TypeTable

end WasmText
