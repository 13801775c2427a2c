/-!
# Opcodes

The instructions by name, each with its byte and the shape of the
immediate operands that follow the byte.
-/

namespace WasmText

/-- What follows the byte of an instruction. -/
inductive Shape where
  | none
  /-- A block type, and then instructions up to an end. -/
  | structured
  | label
  | labels
  | function
  | indirect
  | local
  | global
  /-- An alignment and an offset; the alignment is a power of two, given
  here by its exponent when the source leaves it out. -/
  | access (alignment : Nat)
  | memory
  | i32
  | i64
  | f32
  | f64
deriving DecidableEq

/-- An instruction as the binary format knows it. -/
structure Opcode where
  name : String
  byte : UInt8
  shape : Shape
deriving DecidableEq

namespace Opcode

/-- Control flow. -/
def control : List Opcode :=
  [⟨"unreachable", 0x00, .none⟩, ⟨"nop", 0x01, .none⟩, ⟨"block", 0x02, .structured⟩,
    ⟨"loop", 0x03, .structured⟩, ⟨"if", 0x04, .structured⟩, ⟨"br", 0x0C, .label⟩,
    ⟨"br_if", 0x0D, .label⟩, ⟨"br_table", 0x0E, .labels⟩, ⟨"return", 0x0F, .none⟩,
    ⟨"call", 0x10, .function⟩, ⟨"call_indirect", 0x11, .indirect⟩]

/-- Instructions on values of any type. -/
def parametric : List Opcode :=
  [⟨"drop", 0x1A, .none⟩, ⟨"select", 0x1B, .none⟩]

/-- Access to locals and globals. -/
def variableAccess : List Opcode :=
  [⟨"local.get", 0x20, .local⟩, ⟨"local.set", 0x21, .local⟩, ⟨"local.tee", 0x22, .local⟩,
    ⟨"global.get", 0x23, .global⟩, ⟨"global.set", 0x24, .global⟩]

/-- Access to memory. -/
def memory : List Opcode :=
  [⟨"i32.load", 0x28, .access 2⟩, ⟨"i64.load", 0x29, .access 3⟩, ⟨"f32.load", 0x2A, .access 2⟩,
    ⟨"f64.load", 0x2B, .access 3⟩, ⟨"i32.load8_s", 0x2C, .access 0⟩,
    ⟨"i32.load8_u", 0x2D, .access 0⟩, ⟨"i32.load16_s", 0x2E, .access 1⟩,
    ⟨"i32.load16_u", 0x2F, .access 1⟩, ⟨"i64.load8_s", 0x30, .access 0⟩,
    ⟨"i64.load8_u", 0x31, .access 0⟩, ⟨"i64.load16_s", 0x32, .access 1⟩,
    ⟨"i64.load16_u", 0x33, .access 1⟩, ⟨"i64.load32_s", 0x34, .access 2⟩,
    ⟨"i64.load32_u", 0x35, .access 2⟩, ⟨"i32.store", 0x36, .access 2⟩,
    ⟨"i64.store", 0x37, .access 3⟩, ⟨"f32.store", 0x38, .access 2⟩,
    ⟨"f64.store", 0x39, .access 3⟩, ⟨"i32.store8", 0x3A, .access 0⟩,
    ⟨"i32.store16", 0x3B, .access 1⟩, ⟨"i64.store8", 0x3C, .access 0⟩,
    ⟨"i64.store16", 0x3D, .access 1⟩, ⟨"i64.store32", 0x3E, .access 2⟩,
    ⟨"memory.size", 0x3F, .memory⟩, ⟨"memory.grow", 0x40, .memory⟩]

/-- Constants. -/
def constant : List Opcode :=
  [⟨"i32.const", 0x41, .i32⟩, ⟨"i64.const", 0x42, .i64⟩, ⟨"f32.const", 0x43, .f32⟩,
    ⟨"f64.const", 0x44, .f64⟩]

/-- Tests and comparisons. -/
def comparison : List Opcode :=
  [⟨"i32.eqz", 0x45, .none⟩, ⟨"i32.eq", 0x46, .none⟩, ⟨"i32.ne", 0x47, .none⟩,
    ⟨"i32.lt_s", 0x48, .none⟩, ⟨"i32.lt_u", 0x49, .none⟩, ⟨"i32.gt_s", 0x4A, .none⟩,
    ⟨"i32.gt_u", 0x4B, .none⟩, ⟨"i32.le_s", 0x4C, .none⟩, ⟨"i32.le_u", 0x4D, .none⟩,
    ⟨"i32.ge_s", 0x4E, .none⟩, ⟨"i32.ge_u", 0x4F, .none⟩, ⟨"i64.eqz", 0x50, .none⟩,
    ⟨"i64.eq", 0x51, .none⟩, ⟨"i64.ne", 0x52, .none⟩, ⟨"i64.lt_s", 0x53, .none⟩,
    ⟨"i64.lt_u", 0x54, .none⟩, ⟨"i64.gt_s", 0x55, .none⟩, ⟨"i64.gt_u", 0x56, .none⟩,
    ⟨"i64.le_s", 0x57, .none⟩, ⟨"i64.le_u", 0x58, .none⟩, ⟨"i64.ge_s", 0x59, .none⟩,
    ⟨"i64.ge_u", 0x5A, .none⟩, ⟨"f32.eq", 0x5B, .none⟩, ⟨"f32.ne", 0x5C, .none⟩,
    ⟨"f32.lt", 0x5D, .none⟩, ⟨"f32.gt", 0x5E, .none⟩, ⟨"f32.le", 0x5F, .none⟩,
    ⟨"f32.ge", 0x60, .none⟩, ⟨"f64.eq", 0x61, .none⟩, ⟨"f64.ne", 0x62, .none⟩,
    ⟨"f64.lt", 0x63, .none⟩, ⟨"f64.gt", 0x64, .none⟩, ⟨"f64.le", 0x65, .none⟩,
    ⟨"f64.ge", 0x66, .none⟩]

/-- Arithmetic. -/
def numeric : List Opcode :=
  [⟨"i32.clz", 0x67, .none⟩, ⟨"i32.ctz", 0x68, .none⟩, ⟨"i32.popcnt", 0x69, .none⟩,
    ⟨"i32.add", 0x6A, .none⟩, ⟨"i32.sub", 0x6B, .none⟩, ⟨"i32.mul", 0x6C, .none⟩,
    ⟨"i32.div_s", 0x6D, .none⟩, ⟨"i32.div_u", 0x6E, .none⟩, ⟨"i32.rem_s", 0x6F, .none⟩,
    ⟨"i32.rem_u", 0x70, .none⟩, ⟨"i32.and", 0x71, .none⟩, ⟨"i32.or", 0x72, .none⟩,
    ⟨"i32.xor", 0x73, .none⟩, ⟨"i32.shl", 0x74, .none⟩, ⟨"i32.shr_s", 0x75, .none⟩,
    ⟨"i32.shr_u", 0x76, .none⟩, ⟨"i32.rotl", 0x77, .none⟩, ⟨"i32.rotr", 0x78, .none⟩,
    ⟨"i64.clz", 0x79, .none⟩, ⟨"i64.ctz", 0x7A, .none⟩, ⟨"i64.popcnt", 0x7B, .none⟩,
    ⟨"i64.add", 0x7C, .none⟩, ⟨"i64.sub", 0x7D, .none⟩, ⟨"i64.mul", 0x7E, .none⟩,
    ⟨"i64.div_s", 0x7F, .none⟩, ⟨"i64.div_u", 0x80, .none⟩, ⟨"i64.rem_s", 0x81, .none⟩,
    ⟨"i64.rem_u", 0x82, .none⟩, ⟨"i64.and", 0x83, .none⟩, ⟨"i64.or", 0x84, .none⟩,
    ⟨"i64.xor", 0x85, .none⟩, ⟨"i64.shl", 0x86, .none⟩, ⟨"i64.shr_s", 0x87, .none⟩,
    ⟨"i64.shr_u", 0x88, .none⟩, ⟨"i64.rotl", 0x89, .none⟩, ⟨"i64.rotr", 0x8A, .none⟩,
    ⟨"f32.abs", 0x8B, .none⟩, ⟨"f32.neg", 0x8C, .none⟩, ⟨"f32.ceil", 0x8D, .none⟩,
    ⟨"f32.floor", 0x8E, .none⟩, ⟨"f32.trunc", 0x8F, .none⟩, ⟨"f32.nearest", 0x90, .none⟩,
    ⟨"f32.sqrt", 0x91, .none⟩, ⟨"f32.add", 0x92, .none⟩, ⟨"f32.sub", 0x93, .none⟩,
    ⟨"f32.mul", 0x94, .none⟩, ⟨"f32.div", 0x95, .none⟩, ⟨"f32.min", 0x96, .none⟩,
    ⟨"f32.max", 0x97, .none⟩, ⟨"f32.copysign", 0x98, .none⟩, ⟨"f64.abs", 0x99, .none⟩,
    ⟨"f64.neg", 0x9A, .none⟩, ⟨"f64.ceil", 0x9B, .none⟩, ⟨"f64.floor", 0x9C, .none⟩,
    ⟨"f64.trunc", 0x9D, .none⟩, ⟨"f64.nearest", 0x9E, .none⟩, ⟨"f64.sqrt", 0x9F, .none⟩,
    ⟨"f64.add", 0xA0, .none⟩, ⟨"f64.sub", 0xA1, .none⟩, ⟨"f64.mul", 0xA2, .none⟩,
    ⟨"f64.div", 0xA3, .none⟩, ⟨"f64.min", 0xA4, .none⟩, ⟨"f64.max", 0xA5, .none⟩,
    ⟨"f64.copysign", 0xA6, .none⟩]

/-- Conversions between types. -/
def conversion : List Opcode :=
  [⟨"i32.wrap_i64", 0xA7, .none⟩, ⟨"i32.trunc_f32_s", 0xA8, .none⟩,
    ⟨"i32.trunc_f32_u", 0xA9, .none⟩, ⟨"i32.trunc_f64_s", 0xAA, .none⟩,
    ⟨"i32.trunc_f64_u", 0xAB, .none⟩, ⟨"i64.extend_i32_s", 0xAC, .none⟩,
    ⟨"i64.extend_i32_u", 0xAD, .none⟩, ⟨"i64.trunc_f32_s", 0xAE, .none⟩,
    ⟨"i64.trunc_f32_u", 0xAF, .none⟩, ⟨"i64.trunc_f64_s", 0xB0, .none⟩,
    ⟨"i64.trunc_f64_u", 0xB1, .none⟩, ⟨"f32.convert_i32_s", 0xB2, .none⟩,
    ⟨"f32.convert_i32_u", 0xB3, .none⟩, ⟨"f32.convert_i64_s", 0xB4, .none⟩,
    ⟨"f32.convert_i64_u", 0xB5, .none⟩, ⟨"f32.demote_f64", 0xB6, .none⟩,
    ⟨"f64.convert_i32_s", 0xB7, .none⟩, ⟨"f64.convert_i32_u", 0xB8, .none⟩,
    ⟨"f64.convert_i64_s", 0xB9, .none⟩, ⟨"f64.convert_i64_u", 0xBA, .none⟩,
    ⟨"f64.promote_f32", 0xBB, .none⟩, ⟨"i32.reinterpret_f32", 0xBC, .none⟩,
    ⟨"i64.reinterpret_f64", 0xBD, .none⟩, ⟨"f32.reinterpret_i32", 0xBE, .none⟩,
    ⟨"f64.reinterpret_i64", 0xBF, .none⟩]

/-- Sign extension from a narrower width. -/
def extension : List Opcode :=
  [⟨"i32.extend8_s", 0xC0, .none⟩, ⟨"i32.extend16_s", 0xC1, .none⟩,
    ⟨"i64.extend8_s", 0xC2, .none⟩, ⟨"i64.extend16_s", 0xC3, .none⟩,
    ⟨"i64.extend32_s", 0xC4, .none⟩]

/-- Every instruction, in the order of their bytes. -/
def all : List Opcode :=
  control ++ parametric ++ variableAccess ++ memory ++ constant ++ comparison ++ numeric ++
    conversion ++ extension

def ofName? (name : String) : Option Opcode :=
  all.find? (·.name == name)

/-- The conditional, the one structured instruction with two branches. -/
def conditional : Opcode := ⟨"if", 0x04, .structured⟩

end Opcode

end WasmText
