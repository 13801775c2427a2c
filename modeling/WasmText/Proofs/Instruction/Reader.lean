import WasmText.Instruction.Basic
import WasmText.Module.Binary
import WasmText.Proofs.Binary.Reader
import Mathlib.Data.List.Chain
/-!
# Reading instructions

A reader of instruction bytes that knows nothing but the opcode table: a
byte is looked up there, and the shape found with it says what immediate
operands follow. An expression is read one instruction after the other, up
to the end mark that matches no structured instruction inside it, so the
bytes of an immediate are never taken for an end.

Immediate operands may be read at any width, or only at the widths of the
format. Instructions whose operands fit read back in both ways
(`Reads.instr`), one by one and as a whole expression
(`Reads.expression`).
-/

namespace WasmText

/-- How wide the numbers in instructions may be. -/
inductive Widths where
  | any
  | format
deriving DecidableEq

/-- The limit on a number that the format gives so many bits. -/
def Widths.limit : Widths → Nat → Option Nat
  | any, _ => none
  | format, bits => some bits

theorem Widths.pos_of_mem_limit {w : Widths} {bits : Nat} (h : 0 < bits) :
    ∀ n ∈ w.limit bits, 0 < n := by
  cases w <;> simp [limit, h]

/-! ## The opcode table -/

namespace Opcode

def ofByte? (b : UInt8) : Option Opcode := all.find? (·.byte == b)

theorem isChain_byte : all.IsChain (·.byte < ·.byte) := by decide +kernel

/-- The bytes of the table ascend, so none stands for two
instructions. -/
theorem pairwise_byte : all.Pairwise (·.byte < ·.byte) := by
  have : IsTrans Opcode (·.byte < ·.byte) := ⟨fun _ _ _ h h' => UInt8.lt_trans h h'⟩
  exact List.isChain_iff_pairwise.1 isChain_byte

/-- **The byte of an instruction tells which it is.** -/
theorem ofByte?_byte {op : Opcode} (h : op ∈ all) : ofByte? op.byte = some op := by
  obtain ⟨before, after, hsplit⟩ := List.append_of_mem h
  have hp := pairwise_byte
  rw [hsplit, List.pairwise_append] at hp
  refine List.find?_eq_some_iff_append.2 ⟨by simp, before, after, hsplit, fun a ha => ?_⟩
  have hlt : a.byte < op.byte := hp.2.2 a ha op List.mem_cons_self
  simp [UInt8.ne_of_lt hlt]

/-- Neither mark of a structured instruction is the byte of another. -/
theorem byte_ne_mark : ∀ op ∈ all, op.byte ≠ 0x0B ∧ op.byte ≠ 0x05 := by decide +kernel

theorem mem_all_of_ofName? {name : String} {op : Opcode} (h : ofName? name = some op) :
    op ∈ all :=
  List.mem_of_find?_eq_some h

end Opcode

namespace ValType

def ofByte? (b : UInt8) : Option ValType := all.find? (·.byte == b)

@[simp] theorem ofByte?_byte (t : ValType) : ofByte? t.byte = some t := by cases t <;> rfl

/-- The bytes of value types have bits 5 and 6 set. -/
theorem ofByte?_eq_none {b : UInt8} (h : b.toNat < 64 ∨ 128 ≤ b.toNat) : ofByte? b = none := by
  refine List.find?_eq_none.2 fun t _ ht => ?_
  have hb : b = t.byte := (beq_iff_eq.1 ht).symm
  subst hb
  cases t <;> simp [byte] at h

end ValType

/-! ## Readers -/

namespace Reader

def valType : Reader ValType := do
  match ValType.ofByte? (← byte) with
  | some t => return t
  | none => failure

/-- An index is told from the other block types by its first byte. -/
def blockType (w : Widths) : Reader BlockType := do
  match (← get).head? with
  | none => failure
  | some b =>
    if b = 0x40 then
      exactly 0x40
      return .empty
    else
      match ValType.ofByte? b with
      | some _ => return .value (← valType)
      | none =>
        let v ← integer (w.limit 33)
        if 0 ≤ v then return .index v.toNat else failure

/-- A label depth, or the index of a type, function, local or global. -/
def index (w : Widths) : Reader Nat := natural (w.limit 32)

/-- The immediate operands that a shape calls for. -/
def immediate (w : Widths) : Shape → Reader Immediate
  | .none => return .none
  | .structured => return .block (← blockType w)
  | .label | .function | .local | .global => return .index (← index w)
  | .labels => do
    let targets ← vector (index w) (index w)
    return .labels targets (← index w)
  | .indirect => do
    let type ← index w
    exactly 0x00
    return .indirect type
  | .access _ => do
    let alignment ← index w
    return .access alignment (← index w)
  | .memory => do
    exactly 0x00
    return .memory
  | .i32 => return .i32 (← integer (w.limit 32))
  | .i64 => return .i64 (← integer (w.limit 64))
  | .f32 => return .f32 (.ofNat 32 (← littleEndian 4))
  | .f64 => return .f64 (.ofNat 64 (← littleEndian 8))

/-- One instruction: a mark, or a byte of the opcode table and what it
calls for. -/
def instr (w : Widths) : Reader Instr := do
  let b ← byte
  if b = 0x0B then return .close
  else if b = 0x05 then return .otherwise
  else
    match Opcode.ofByte? b with
    | some op => return .op op (← immediate w op.shape)
    | none => failure

end Reader

/-- What an instruction does to the structured instructions that are open,
innermost first. Each is told by whether it may still have a second
branch. -/
def Instr.nest? : List Bool → Instr → Option (List Bool)
  | opened, .op opcode _ =>
    some (if opcode.shape = .structured then decide (opcode = .conditional) :: opened else opened)
  | true :: opened, .otherwise => some (false :: opened)
  | _ :: opened, .close => some opened
  | _, _ => none

namespace Reader

/-- Instructions up to the end mark that nothing before it has opened. -/
def untilEnd (w : Widths) (opened : List Bool) (bytes : List UInt8) :
    Option (List Instr × List UInt8) :=
  match (instr w).run bytes with
  | none => none
  | some (i, rest) =>
    if rest.length < bytes.length then
      if i = .close ∧ opened = [] then some ([], rest)
      else
        match i.nest? opened with
        | none => none
        | some opened => (untilEnd w opened rest).map fun (instrs, rest) => (i :: instrs, rest)
    else none
termination_by bytes.length

/-- The bytes of an expression, without its end mark. -/
def expression (w : Widths) : Reader (List UInt8) := StateT.mk fun bytes =>
  match untilEnd w [] bytes with
  | some (_, rest) => some (bytes.take (bytes.length - rest.length - 1), rest)
  | none => none

end Reader

/-! ## What reads back -/

/-- Whether an immediate operand has the shape that is called for, and
numbers that the widths can hold. -/
def Immediate.Fits (w : Widths) : Shape → Immediate → Prop
  | .none, .none => True
  | .structured, .block (.index i) => Leb128.Holds (w.limit 32) i
  | .structured, .block _ => True
  | .label, .index i => Leb128.Holds (w.limit 32) i
  | .function, .index i => Leb128.Holds (w.limit 32) i
  | .local, .index i => Leb128.Holds (w.limit 32) i
  | .global, .index i => Leb128.Holds (w.limit 32) i
  | .labels, .labels targets default =>
    Leb128.Holds (w.limit 32) targets.length ∧
      (∀ t ∈ targets, Leb128.Holds (w.limit 32) t) ∧ Leb128.Holds (w.limit 32) default
  | .indirect, .indirect type => Leb128.Holds (w.limit 32) type
  | .access _, .access alignment offset =>
    Leb128.Holds (w.limit 32) alignment ∧ Leb128.Holds (w.limit 32) offset
  | .memory, .memory => True
  | .i32, .i32 v => Leb128.HoldsSigned (w.limit 32) v
  | .i64, .i64 v => Leb128.HoldsSigned (w.limit 64) v
  | .f32, .f32 _ => True
  | .f64, .f64 _ => True
  | _, _ => False

/-- Whether an instruction is one of the table, with an immediate operand
that fits. -/
def Instr.Fits (w : Widths) : Instr → Prop
  | op opcode immediate => opcode ∈ Opcode.all ∧ immediate.Fits w opcode.shape
  | otherwise => True
  | close => True

/-- Instructions in which structured instructions, their dividing marks and
their end marks match. -/
inductive Nested : List Instr → Prop
  | nil : Nested []
  | plain {op : Opcode} {i : Immediate} : op.shape ≠ .structured → Nested [.op op i]
  | append {first second : List Instr} : Nested first → Nested second → Nested (first ++ second)
  | block {op : Opcode} {i : Immediate} {body : List Instr} :
      op.shape = .structured → Nested body → Nested (.op op i :: body ++ [.close])
  | conditional {i : Immediate} {first second : List Instr} : Nested first → Nested second →
      Nested (.op .conditional i :: first ++ .otherwise :: second ++ [.close])

namespace Reads

theorem valType (t : ValType) : Reads Reader.valType [t.byte] t := by
  refine bind_pure (byte _) ?_
  rw [ValType.ofByte?_byte]
  exact pure t

theorem index {w : Widths} {i : Nat} (h : Leb128.Holds (w.limit 32) i) :
    Reads (Reader.index w) (Leb128.unsigned i) i :=
  natural (Widths.pos_of_mem_limit (by omega)) h

/-- An index that 32 bits can hold fits a signed number of 33. -/
theorem holdsSigned_of_holds {w : Widths} {i : Nat} (h : Leb128.Holds (w.limit 32) i) :
    Leb128.HoldsSigned (w.limit 33) i := by
  cases w with
  | any => simp [Leb128.HoldsSigned, Widths.limit]
  | format =>
      have hi : i < 2 ^ 32 := h 32 rfl
      intro n hn
      obtain rfl : n = 33 := by simpa [Widths.limit, eq_comm] using hn
      omega

theorem blockType {w : Widths} {type : BlockType} (h : Immediate.Fits w .structured (.block type)) :
    Reads (Reader.blockType w) type.encode type := by
  cases type with
  | empty => exact fun rest => rfl
  | value t =>
      intro rest
      have hread := valType t rest
      have hne : t.byte ≠ 0x40 := by cases t <;> decide
      simp only [Reader.blockType, StateT.run_bind, StateT.run_get, Option.pure_def,
        Option.bind_eq_bind, Option.bind_some, BlockType.encode, List.cons_append,
        List.nil_append, List.head?_cons, hne, if_false, ValType.ofByte?_byte]
      rw [List.cons_append, List.nil_append] at hread
      rw [hread]
      rfl
  | index i =>
      intro rest
      have hread := integer (Widths.pos_of_mem_limit (by omega)) (holdsSigned_of_holds h) rest
      -- an index never starts like the empty type or a value type
      obtain ⟨b, bytes, hb, hlow⟩ := Leb128.head_signed_natCast i
      have hne : b ≠ 0x40 := by
        rintro rfl
        simp at hlow
      rw [hb, List.cons_append] at hread
      simp only [Reader.blockType, StateT.run_bind, StateT.run_get, Option.pure_def,
        Option.bind_eq_bind, Option.bind_some, BlockType.encode, hb, List.cons_append,
        List.head?_cons, hne, if_false, ValType.ofByte?_eq_none hlow, hread]
      rw [if_pos (Int.natCast_nonneg i), Int.toNat_natCast]
      rfl

theorem immediate {w : Widths} {shape : Shape} {i : Immediate} (h : i.Fits w shape) :
    Reads (Reader.immediate w shape) i.encode i := by
  cases i with
  | none => cases shape <;> first | exact h.elim | exact pure _
  | block type =>
      cases shape <;> try exact h.elim
      exact bind_pure (blockType h) (pure _)
  | index i =>
      cases shape <;> first | exact h.elim | exact bind_pure (index h) (pure _)
  | labels targets default =>
      cases shape <;> try exact h.elim
      obtain ⟨hlength, htargets, hdefault⟩ := h
      exact bind (vector (index hlength) fun t ht => index (htargets t ht))
        (bind_pure (index hdefault) (pure _))
  | indirect type =>
      cases shape <;> try exact h.elim
      exact bind (index h) (bind_pure (exactly _) (pure _))
  | access alignment offset =>
      cases shape <;> try exact h.elim
      exact bind (index h.1) (bind_pure (index h.2) (pure _))
  | memory =>
      cases shape <;> try exact h.elim
      exact bind_pure (exactly _) (pure _)
  | i32 v =>
      cases shape <;> try exact h.elim
      exact bind_pure (integer (Widths.pos_of_mem_limit (by omega)) h) (pure _)
  | i64 v =>
      cases shape <;> try exact h.elim
      exact bind_pure (integer (Widths.pos_of_mem_limit (by omega)) h) (pure _)
  | f32 bits =>
      cases shape <;> try exact h.elim
      refine bind_pure (littleEndian (by have := bits.isLt; omega)) ?_
      rw [BitVec.ofNat_toNat, BitVec.setWidth_eq]
      exact pure _
  | f64 bits =>
      cases shape <;> try exact h.elim
      refine bind_pure (littleEndian (by have := bits.isLt; omega)) ?_
      rw [BitVec.ofNat_toNat, BitVec.setWidth_eq]
      exact pure _

/-- **An instruction reads back** when its immediate operand fits. -/
theorem instr {w : Widths} {i : Instr} (h : i.Fits w) : Reads (Reader.instr w) i.encode i := by
  cases i with
  | op opcode imm =>
      obtain ⟨hmem, hfits⟩ := h
      obtain ⟨hend, helse⟩ := Opcode.byte_ne_mark opcode hmem
      show Reads _ ([opcode.byte] ++ imm.encode) _
      refine bind (byte _) ?_
      rw [if_neg hend, if_neg helse, Opcode.ofByte?_byte hmem]
      exact bind_pure (immediate hfits) (pure _)
  | otherwise => exact fun rest => rfl
  | close => exact fun rest => rfl

end Reads

/-! ## Sequences and expressions -/

namespace Instr

theorem encode_ne_nil (i : Instr) : i.encode ≠ [] := by
  cases i <;> simp [encode]

theorem fits_otherwise (w : Widths) : otherwise.Fits w := trivial

theorem fits_close (w : Widths) : close.Fits w := trivial

@[simp] theorem encodeAll_nil : encodeAll [] = [] := rfl

@[simp] theorem encodeAll_cons (i : Instr) (instrs : List Instr) :
    encodeAll (i :: instrs) = i.encode ++ encodeAll instrs := rfl

@[simp] theorem encodeAll_append (first second : List Instr) :
    encodeAll (first ++ second) = encodeAll first ++ encodeAll second :=
  List.flatMap_append

end Instr

/-- **What is nested leaves what is open as it was.** -/
theorem Nested.foldlM_nest? {instrs : List Instr} (hn : Nested instrs) (opened : List Bool) :
    instrs.foldlM Instr.nest? opened = some opened := by
  induction hn generalizing opened with
  | nil => rfl
  | plain hshape => simp [Instr.nest?, hshape]
  | append _ _ ihf ihs =>
      rw [List.foldlM_append, ihf]
      exact ihs opened
  | @block op i body hshape _ ih =>
      have hopen : Instr.nest? opened (.op op i) = some (decide (op = .conditional) :: opened) := by
        simp [Instr.nest?, hshape]
      simp only [List.cons_append, List.foldlM_cons, List.foldlM_append, hopen,
        Option.bind_eq_bind, Option.bind_some, ih]
      rfl
  | @conditional i first second _ _ ihf ihs =>
      have hopen : Instr.nest? opened (.op .conditional i) = some (true :: opened) := rfl
      have helse : Instr.nest? (true :: opened) .otherwise = some (false :: opened) := rfl
      simp only [List.cons_append, List.append_assoc, List.foldlM_cons, List.foldlM_append, hopen,
        helse, Option.bind_eq_bind, Option.bind_some, ihf, ihs]
      rfl

/-- **Instructions one after the other read back.** -/
theorem Reader.many_encodeAll {w : Widths} {instrs : List Instr} (h : ∀ i ∈ instrs, i.Fits w) :
    (Reader.instr w).many (Instr.encodeAll instrs) = some instrs :=
  Reader.many_flatMap (fun i hi => Reads.instr (h i hi)) fun i _ => i.encode_ne_nil

namespace Reader

/-- Reading up to the end goes past one instruction that does not end it. -/
theorem untilEnd_cons {w : Widths} {opened opened' : List Bool} {i : Instr} (h : i.Fits w)
    (hnest : Instr.nest? opened i = some opened') (rest : List UInt8) :
    untilEnd w opened (i.encode ++ rest) =
      (untilEnd w opened' rest).map fun (instrs, rest) => (i :: instrs, rest) := by
  have hpos := List.length_pos_iff.2 i.encode_ne_nil
  have hgo : ¬ (i = .close ∧ opened = []) := by
    rintro ⟨rfl, rfl⟩
    simp [Instr.nest?] at hnest
  rw [untilEnd, Reads.instr h]
  simp only [List.length_append]
  rw [if_pos (by omega), if_neg hgo, hnest]

/-- Reading up to the end goes past instructions that do not end it. -/
theorem untilEnd_append {w : Widths} {instrs : List Instr} {opened opened' : List Bool}
    (hnest : instrs.foldlM Instr.nest? opened = some opened') (h : ∀ i ∈ instrs, i.Fits w)
    (rest : List UInt8) :
    untilEnd w opened (Instr.encodeAll instrs ++ rest) =
      (untilEnd w opened' rest).map fun (more, rest) => (instrs ++ more, rest) := by
  induction instrs generalizing opened with
  | nil =>
      obtain rfl : opened = opened' := by simpa using hnest
      simp
  | cons i instrs ih =>
      rw [List.foldlM_cons, Option.bind_eq_bind, Option.bind_eq_some_iff] at hnest
      obtain ⟨between, hi, hrest⟩ := hnest
      rw [Instr.encodeAll_cons, List.append_assoc, untilEnd_cons (h i List.mem_cons_self) hi,
        ih hrest fun i hi => h i (List.mem_cons_of_mem _ hi)]
      simp [Function.comp_def]

/-- An end mark with nothing open ends an expression. -/
theorem untilEnd_endByte (w : Widths) (rest : List UInt8) :
    untilEnd w [] (endByte :: rest) = some ([], rest) := by
  rw [untilEnd, show (instr w).run (endByte :: rest) = some (.close, rest) from rfl]
  simp

end Reader

/-- **An expression reads back** up to its own end mark, when its
instructions match and fit. -/
theorem Reads.expression {w : Widths} {instrs : List Instr} (hn : Nested instrs)
    (h : ∀ i ∈ instrs, i.Fits w) :
    Reads (Reader.expression w) (encodeExpression (Instr.encodeAll instrs))
      (Instr.encodeAll instrs) := by
  intro rest
  have hread : Reader.untilEnd w [] (Instr.encodeAll instrs ++ endByte :: rest) =
      some (instrs, rest) := by
    rw [Reader.untilEnd_append (hn.foldlM_nest? []) h, Reader.untilEnd_endByte]
    simp
  rw [encodeExpression, List.append_assoc, List.singleton_append]
  simp only [Reader.expression, StateT.run, StateT.mk, hread, List.length_append,
    List.length_cons]
  rw [show (Instr.encodeAll instrs).length + (rest.length + 1) - rest.length - 1 =
    (Instr.encodeAll instrs).length by omega, List.take_left]

end WasmText
