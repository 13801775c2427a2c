import WasmText.Error
import WasmText.Literal.Float
/-!
# Literals in a source

The readers of literals, with the errors they raise at the place where the
literal stands.
-/

namespace WasmText

namespace Literal

def orInvalid {α : Type} (kind : LiteralKind) (text : String) (span : Span) :
    Option α → Except CompileError α
  | some value => .ok value
  | none => .error (.invalidLiteral kind text span)

/-- An index, an offset, an alignment or a limit. -/
def readNatural (text : String) (span : Span) : Except CompileError Nat :=
  orInvalid .u32 text span (natural? text.toList)

def readI32 (text : String) (span : Span) : Except CompileError Int :=
  orInvalid .i32 text span (word? 32 text.toList)

def readI64 (text : String) (span : Span) : Except CompileError Int :=
  orInvalid .i64 text span (word? 64 text.toList)

def readFloat [HexReader] (kind : LiteralKind) (format : FloatFormat) (text : String)
    (span : Span) : Except CompileError Nat :=
  match float format text.toList with
  | .ok bits => .ok bits
  | .error .invalid => .error (.invalidLiteral kind text span)
  | .error .outOfRange => .error (.malformed .constantOutOfRange span)

/-- The bit pattern of a single-precision constant. -/
def readF32 [HexReader] (text : String) (span : Span) : Except CompileError Nat :=
  readFloat .f32 .single text span

/-- The bit pattern of a double-precision constant. -/
def readF64 [HexReader] (text : String) (span : Span) : Except CompileError Nat :=
  readFloat .f64 .double text span

end Literal

end WasmText
