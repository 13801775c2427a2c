import WasmText.Instruction.Opcode
import WasmText.Module.Types
/-!
# Instructions

A function body is a flat list of instructions: an opcode with its
immediate operand, or one of the two marks that divide and close a
structured instruction. Every name has become an index by now.
-/

namespace WasmText

/-- The signature of a structured instruction: nothing, one result, or an
entry of the type table. -/
inductive BlockType where
  | empty
  | value (type : ValType)
  | index (index : Nat)
deriving DecidableEq

namespace BlockType

/-- An index is written as a signed number, so that it never looks like
one of the bytes for the other two. -/
def encode : BlockType → List UInt8
  | empty => [0x40]
  | value type => [type.byte]
  | index i => Leb128.signed i

end BlockType

/-- The block type of a signature. A written type use keeps its index, and
a signature that has no form of its own is registered. -/
def TypeTable.blockType (table : TypeTable) (type : FuncType) (use : Option Nat) :
    BlockType × TypeTable :=
  match use, type.params, type.results with
  | some index, _, _ => (.index index, table)
  | none, [], [] => (.empty, table)
  | none, [], [result] => (.value result, table)
  | none, _, _ =>
    let (index, table) := table.intern type
    (.index index, table)

/-- What follows an opcode. -/
inductive Immediate where
  | none
  | block (type : BlockType)
  /-- A label depth, a function, a local or a global. -/
  | index (index : Nat)
  | labels (targets : List Nat) (default : Nat)
  | indirect (type : Nat)
  | access (alignment offset : Nat)
  | memory
  | i32 (value : Int)
  | i64 (value : Int)
  | f32 (bits : BitVec 32)
  | f64 (bits : BitVec 64)
deriving DecidableEq

namespace Immediate

/-- The table of an indirect call and the memory of a memory instruction
are always the first. -/
def encode : Immediate → List UInt8
  | none => []
  | block type => type.encode
  | index i => Leb128.unsigned i
  | labels targets default => Binary.vector Leb128.unsigned targets ++ Leb128.unsigned default
  | indirect type => Leb128.unsigned type ++ [0x00]
  | access alignment offset => Leb128.unsigned alignment ++ Leb128.unsigned offset
  | memory => [0x00]
  | i32 value => Leb128.signed value
  | i64 value => Leb128.signed value
  | f32 bits => Binary.littleEndian 4 bits.toNat
  | f64 bits => Binary.littleEndian 8 bits.toNat

end Immediate

inductive Instr where
  | op (opcode : Opcode) (immediate : Immediate)
  /-- Divides the two branches of a conditional. -/
  | otherwise
  /-- Ends a structured instruction. -/
  | close
deriving DecidableEq

namespace Instr

def encode : Instr → List UInt8
  | op opcode immediate => opcode.byte :: immediate.encode
  | otherwise => [0x05]
  | close => [0x0B]

/-- The bytes of a list of instructions. -/
def encodeAll (instrs : List Instr) : List UInt8 := instrs.flatMap encode

end Instr

end WasmText
