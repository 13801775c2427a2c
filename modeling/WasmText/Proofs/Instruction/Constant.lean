import WasmText.Proofs.Instruction.Decode
/-!
# Integer constants

The readers of integers accept exactly the texts that denote a number in
range, and refuse every other text with an error that shows it
(`ReadsWords`, `ReadsNaturals`). A constant instruction compiles exactly if
its operands do and its one argument is such a text, and what stands in its
bytes is the two's complement of the number (`CompilesConstants`).
-/

namespace WasmText

open Literal

/-! ## Readers -/

/-- That a reader accepts exactly the texts of words, as their two's
complement, and refuses all others with their text. -/
structure ReadsWords (kind : LiteralKind) (width : Nat)
    (read : String → Span → Except CompileError Int) : Prop where
  accepts : ∀ text span w, read text span = .ok w ↔
    ∃ v, DenotesWord width text.toList v ∧ Wraps width v w
  refuses : ∀ text span e, read text span = .error e ↔
    e = .invalidLiteral kind text span ∧ ¬ ∃ v, DenotesWord width text.toList v

/-- That a reader accepts exactly the texts of natural numbers below
`2 ^ 32`, and refuses all others with their text. -/
structure ReadsNaturals (kind : LiteralKind)
    (read : String → Span → Except CompileError Nat) : Prop where
  accepts : ∀ text span n, read text span = .ok n ↔
    DenotesNatural text.toList n ∧ n < 2 ^ 32
  refuses : ∀ text span e, read text span = .error e ↔
    e = .invalidLiteral kind text span ∧ ¬ ∃ n, DenotesNatural text.toList n ∧ n < 2 ^ 32

/-- A text that cannot be read is what the error shows. -/
theorem Literal.orInvalid_eq_error {α : Type} {kind : LiteralKind} {text : String} {span : Span}
    {value : Option α} {e : CompileError} :
    orInvalid kind text span value = .error e ↔
      e = .invalidLiteral kind text span ∧ value = none := by
  cases value with
  | none => simp [orInvalid, eq_comm]
  | some a => simp [orInvalid]

/-- A reader of words accepts the texts of words. -/
theorem readsWords (kind : LiteralKind) {width : Nat} (hwidth : 0 < width) :
    ReadsWords kind width fun text span => orInvalid kind text span (word? width text.toList) where
  accepts text span w := orInvalid_eq_ok.trans (word?_eq_some hwidth)
  refuses text span e := by
    rw [orInvalid_eq_error, word?_eq_none hwidth]

/-- The reader of indices and sizes takes no sign. -/
theorem readsNaturals : ReadsNaturals .u32 readNatural where
  accepts text span n := readNatural_eq_ok.trans natural?_eq_some
  refuses text span e := by
    rw [readNatural, orInvalid_eq_error, Option.eq_none_iff_forall_ne_some, not_exists]
    simp only [ne_eq, natural?_eq_some]

/-! ## Constants -/

/-- What the compiler makes of constants: an instruction compiles exactly
if its operands do and its one argument denotes a word, and the word stands
in its bytes, after the byte of the opcode. -/
structure CompilesConstants [HexReader] (name : String) (byte : UInt8) (width : Nat)
    (constant : Int → Instr) : Prop where
  compiles : ∀ env head children t t' instrs, head.instr = name →
    (compileExpr env (.node head children) t = .ok instrs t' ↔
      ∃ operands p text v w, compileAll env children t = .ok operands t' ∧
        head.arguments = [p] ∧ p.arg.numeric? = some text ∧ DenotesWord width text.toList v ∧
        Wraps width v w ∧ instrs = operands ++ [constant w])
  decodes : ∀ v w, Wraps width v w → ∃ bytes, (constant w).encode = byte :: bytes ∧
    ∀ limit ∈ [none, some width], ∀ rest,
      Leb128.readSigned limit (bytes ++ rest) = some (w, rest)

/-- **Constants of any width compile alike**, given how the immediate is
read and how it is written. -/
theorem compilesConstants [HexReader] (op : Opcode) (hop : Opcode.ofName? op.name = some op)
    (hplain : op.shape.IsPlain) {width : Nat} (hwidth : 0 < width) {kind : LiteralKind}
    {immediateOf : Int → Immediate}
    (hshape : ∀ env head, immediate env op.shape head = do
      return immediateOf (← constantArgument (fun text span =>
        orInvalid kind text span (word? width text.toList)) head))
    (hencode : ∀ w, (immediateOf w).encode = Leb128.signed w) :
    CompilesConstants op.name op.byte width fun w => .op op (immediateOf w) where
  compiles env head children t t' instrs hname := by
    rw [compileExpr_plain_eq_ok (hname ▸ hop) hplain]
    simp only [hshape, bind_eq_ok, pure_eq_ok,
      constantArgument_eq_ok (fun _ _ => orInvalid_eq_ok), Param.constant?,
      Option.bind_eq_some_iff, word?_eq_some hwidth]
    constructor
    · rintro ⟨operands, _, hoperands, ⟨w, ⟨p, hp, text, htext, v, hv, hwraps⟩, rfl⟩, rfl⟩
      exact ⟨operands, p, text, v, w, hoperands, hp, htext, hv, hwraps, rfl⟩
    · rintro ⟨operands, p, text, v, w, hoperands, hp, htext, hv, hwraps, rfl⟩
      exact ⟨operands, _, hoperands, ⟨w, ⟨p, hp, text, htext, v, hv, hwraps⟩, rfl⟩, rfl⟩
  decodes v w h := by
    refine ⟨Leb128.signed w, congrArg (op.byte :: ·) (hencode w), ?_⟩
    intro limit hlimit rest
    simp only [List.mem_cons, List.not_mem_nil, or_false] at hlimit
    rcases hlimit with rfl | rfl
    · exact Leb128.readSigned_signed (by simp) (by simp [Leb128.HoldsSigned]) rest
    · exact Leb128.readSigned_signed (by simpa using hwidth)
        (by simpa [Leb128.HoldsSigned] using h.2) rest

/-- **Integer literals wrap.** A text is read as a word of 32 or 64 bits
exactly if it is a sign or none and digits, decimal or hexadecimal after
their mark, and its value lies between the least signed and the greatest
unsigned value of the width. The word is the two's complement of the value.
An index is read in the same way, without a minus and below `2 ^ 32`, as
the value itself. Every other text is refused with an error that carries
it. The constants of either width compile exactly with such an argument,
and their bytes decode to the word. -/
theorem integer_literals_wrap [HexReader] :
    ReadsWords .i32 32 readI32 ∧ ReadsWords .i64 64 readI64 ∧ ReadsNaturals .u32 readNatural ∧
      CompilesConstants "i32.const" 0x41 32 (fun w => .op ⟨"i32.const", 0x41, .i32⟩ (.i32 w)) ∧
      CompilesConstants "i64.const" 0x42 64 (fun w => .op ⟨"i64.const", 0x42, .i64⟩ (.i64 w)) := by
  refine ⟨readsWords .i32 (by decide), readsWords .i64 (by decide), readsNaturals, ?_, ?_⟩
  · exact compilesConstants ⟨"i32.const", 0x41, .i32⟩ (by decide) ⟨by decide, by decide⟩ (by decide)
      (fun _ _ => rfl) fun _ => rfl
  · exact compilesConstants ⟨"i64.const", 0x42, .i64⟩ (by decide) ⟨by decide, by decide⟩ (by decide)
      (fun _ _ => rfl) fun _ => rfl

theorem integer_literals_wrap_extremes :
    (∃ v, DenotesWord 32 "-0x80000000".toList v ∧ Wraps 32 v (-2147483648)) ∧
      (∃ v, DenotesWord 64 "18446744073709551615".toList v ∧ Wraps 64 v (-1)) ∧
      ¬ ∃ n, DenotesNatural "-0".toList n ∧ n < 2 ^ 32 := by
  obtain ⟨hi32, hi64, hnatural, -⟩ := integer_literals_wrap
  refine ⟨(hi32.accepts "-0x80000000" .zero _).1 (by decide +kernel),
    (hi64.accepts "18446744073709551615" .zero _).1 (by decide +kernel), ?_⟩
  exact ((hnatural.refuses "-0" .zero _).1 rfl).2

end WasmText
