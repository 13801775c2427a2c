import WasmText.Module.Types
/-!
# Binary modules

A module whose references are all indices, and its binary form: a magic
number, a version, and sections in a fixed order. The type, function and
code sections are always written; any other section is left out when it
has nothing to hold.
-/

namespace WasmText

/-- The size of a memory or table: a least size, perhaps a greatest, and
whether it is shared between threads. -/
structure Limits where
  min : Nat
  max : Option Nat
  shared : Bool
deriving DecidableEq

/-- Only limits with a maximum can say that they are shared. -/
def Limits.encode (l : Limits) : List UInt8 :=
  match l.max with
  | some max => (if l.shared then 0x03 else 0x01) :: Leb128.unsigned l.min ++ Leb128.unsigned max
  | none => 0x00 :: Leb128.unsigned l.min

/-- The type of a global variable. -/
structure GlobalType where
  type : ValType
  mutable : Bool
deriving DecidableEq

def GlobalType.encode (g : GlobalType) : List UInt8 :=
  [g.type.byte, if g.mutable then 0x01 else 0x00]

/-- What an import brings in. -/
inductive ImportDesc where
  | function (type : Nat)
  | memory (limits : Limits)
  | global (type : GlobalType)
deriving DecidableEq

def ImportDesc.encode : ImportDesc → List UInt8
  | function type => 0x00 :: Leb128.unsigned type
  | memory limits => 0x02 :: limits.encode
  | global type => 0x03 :: type.encode

structure Import where
  module : String
  field : String
  desc : ImportDesc
deriving DecidableEq

def Import.encode (i : Import) : List UInt8 :=
  Binary.name i.module ++ Binary.name i.field ++ i.desc.encode

/-- The kinds of thing that can be exported. -/
inductive ExportKind where
  | function
  | table
  | memory
  | global
deriving DecidableEq

def ExportKind.byte : ExportKind → UInt8
  | function => 0x00
  | table => 0x01
  | memory => 0x02
  | global => 0x03

/-- The byte that ends an expression. -/
def endByte : UInt8 := 0x0B

/-- Instruction bytes as a whole expression. -/
def encodeExpression (instructions : List UInt8) : List UInt8 :=
  instructions ++ [endByte]

/-- A global variable and the instructions that give its first value. -/
structure Global where
  type : GlobalType
  init : List UInt8
deriving DecidableEq

def Global.encode (g : Global) : List UInt8 :=
  g.type.encode ++ encodeExpression g.init

/-- The locals of a function in runs of one type each. -/
def localRuns : List ValType → List (Nat × ValType)
  | [] => []
  | t :: ts =>
    match localRuns ts with
    | (n, u) :: runs => if t = u then (n + 1, u) :: runs else (1, t) :: (n, u) :: runs
    | [] => [(1, t)]

/-- The locals and instructions of a function. -/
structure Code where
  locals : List ValType
  body : List UInt8
deriving DecidableEq

def Code.encode (c : Code) : List UInt8 :=
  let locals := Binary.vector (fun (n, t) => Leb128.unsigned n ++ [t.byte]) (localRuns c.locals)
  Binary.byteVector (locals ++ encodeExpression c.body)

/-- Bytes or functions to be placed from an offset on. -/
structure Segment (α : Type) where
  offset : List UInt8
  contents : List α
deriving DecidableEq

/-- A module as the binary format holds it. Functions are given by their
types, and each has its code at the same position. -/
structure BinaryModule where
  types : List FuncType
  imports : List Import
  functions : List Nat
  tables : List Limits
  memories : List Limits
  globals : List Global
  exports : List (String × ExportKind × Nat)
  start : Option Nat
  elements : List (Segment Nat)
  code : List Code
  data : List (Segment UInt8)
deriving DecidableEq

namespace BinaryModule

/-- A section that holds a list, left out when the list is empty. -/
def optionalSegment {α : Type} (id : UInt8) (encode : α → List UInt8) (items : List α) :
    List UInt8 :=
  if items.isEmpty then [] else Binary.segment id (Binary.vector encode items)

/-- The magic number and the version. -/
def preamble : List UInt8 := [0x00, 0x61, 0x73, 0x6D, 0x01, 0x00, 0x00, 0x00]

def encode (m : BinaryModule) : List UInt8 :=
  preamble
    ++ Binary.segment 1 (Binary.vector FuncType.encode m.types)
    ++ optionalSegment 2 Import.encode m.imports
    ++ Binary.segment 3 (Binary.vector Leb128.unsigned m.functions)
    ++ optionalSegment 4 (fun l => 0x70 :: l.encode) m.tables
    ++ optionalSegment 5 Limits.encode m.memories
    ++ optionalSegment 6 Global.encode m.globals
    ++ optionalSegment 7 (fun (name, kind, index) =>
        Binary.name name ++ kind.byte :: Leb128.unsigned index) m.exports
    ++ (match m.start with
      | some index => Binary.segment 8 (Leb128.unsigned index)
      | none => [])
    ++ optionalSegment 9 (fun s =>
        0x00 :: encodeExpression s.offset ++ Binary.vector Leb128.unsigned s.contents) m.elements
    ++ Binary.segment 10 (Binary.vector Code.encode m.code)
    ++ optionalSegment 11 (fun s =>
        0x00 :: encodeExpression s.offset ++ Binary.byteVector s.contents) m.data

end BinaryModule

end WasmText
