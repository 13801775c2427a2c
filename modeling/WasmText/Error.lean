import WasmText.ParseError
import WasmText.Tree
import WasmText.Module.Names
/-!
# Compile errors

Why a module has no binary form. Compilation stops at the first error,
which carries its cause and its place in the source.
-/

namespace WasmText

/-- The kinds of numeric literal. -/
inductive LiteralKind where
  | u32
  | i32
  | i64
  | f32
  | f64
deriving DecidableEq

def LiteralKind.name : LiteralKind → String
  | u32 => "u32"
  | i32 => "i32"
  | i64 => "i64"
  | f32 => "f32"
  | f64 => "f64"

/-- Ways in which a tree of known words is not a module. -/
inductive Defect where
  /- Fields of a module. -/
  | notAModule
  | unexpectedField (name : Option String)
  | typeWithoutSignature
  | missingDescriptor (form : String)
  | unsupportedImport (form : String)
  | unsupportedExport (form : String)
  | missingString (form what : String)
  | notUtf8 (what : String)
  | missingReference (form : String)
  | missingLimits (form : String)
  | missingOffset (form : String)
  | missingGlobalType
  | mutableWithoutType
  | slotTypes (form name : String)
  | bodyOfImport
  | notAFunction
  | notAString
  /- Order and limits of declarations. -/
  | importAfter (space : Space)
  | sharedWithoutMaximum
  | elementsWithoutTable
  | unknownIndex (space : Space) (index : Nat)
  /- Types. -/
  | unknownValueType (name : String)
  | notAValueType
  | notOneTypeReference
  | inlineTypeDiffers
  | notOneCallType
  /- Instructions. -/
  | unexpectedReference (name : String)
  | unexpectedString
  | misplacedWord (word : String)
  | missingThen
  | unexpectedArgument (arg : Argument)
  | unexpectedImmediate (arg : Argument) (instr : String)
  | missingImmediate (instr : String)
  | alignment
  | constantOutOfRange
deriving DecidableEq

def Defect.message : Defect → String
  | notAModule => "expected a module"
  | unexpectedField none => "unexpected module field"
  | unexpectedField (some name) => "unexpected module field " ++ name
  | typeWithoutSignature => "type requires a func signature"
  | missingDescriptor form => form ++ " requires a descriptor"
  | unsupportedImport form => "unsupported import " ++ form
  | unsupportedExport form => "unsupported export " ++ form
  | missingString form what => form ++ " requires a " ++ what
  | notUtf8 what => what ++ " must be valid UTF-8"
  | missingReference form => form ++ " requires a reference"
  | missingLimits form => form ++ " requires limits"
  | missingOffset form => form ++ " requires an offset"
  | missingGlobalType => "global requires a type"
  | mutableWithoutType => "mut requires one value type"
  | slotTypes form name => form ++ " $" ++ name ++ " must have exactly one type"
  | bodyOfImport => "imported function cannot have a body"
  | notAFunction => "expected a function reference"
  | notAString => "expected a string"
  | importAfter space => "import after " ++ space.describe
  | sharedWithoutMaximum => "shared memory must have maximum"
  | elementsWithoutTable => "element segment requires a table"
  | unknownIndex space index => "unknown " ++ space.describe ++ " " ++ toString index
  | unknownValueType name => "unknown value type " ++ name
  | notAValueType => "expected a value type"
  | notOneTypeReference => "expected one type reference"
  | inlineTypeDiffers => "inline function type"
  | notOneCallType => "call_indirect takes one type"
  | unexpectedReference name => "unexpected reference $" ++ name
  | unexpectedString => "unexpected string"
  | misplacedWord word => "unexpected " ++ word
  | missingThen => "if requires a then branch"
  | unexpectedArgument arg => "unexpected argument " ++ arg.describe
  | unexpectedImmediate arg instr => "unexpected immediate " ++ arg.describe ++ " for " ++ instr
  | missingImmediate instr => "missing immediate for " ++ instr
  | alignment => "alignment must be a power of two"
  | constantOutOfRange => "constant out of range"

inductive CompileError where
  | parse (error : ParseError)
  | unknownInstruction (name : String) (span : Span)
  | unresolved (space : Space) (name : String) (span : Span)
  | invalidLiteral (kind : LiteralKind) (text : String) (span : Span)
  | malformed (defect : Defect) (span : Span)
deriving DecidableEq

namespace CompileError

/-- The place of the error in the source. -/
def span : CompileError → Span
  | parse error => error.span
  | unknownInstruction _ span => span
  | unresolved _ _ span => span
  | invalidLiteral _ _ span => span
  | malformed _ span => span

/-- The message with its place, as shown to the user. -/
def render : CompileError → String
  | parse error => "syntax error: " ++ error.render
  | unknownInstruction name span =>
    "unknown instruction \"" ++ name ++ "\" at " ++ span.render
  | unresolved space name span =>
    "unknown " ++ space.describe ++ " $" ++ name ++ " at " ++ span.render
  | invalidLiteral kind text span =>
    "invalid " ++ kind.name ++ " literal \"" ++ text ++ "\" at " ++ span.render
  | malformed defect span => defect.message ++ " at " ++ span.render

end CompileError

/-- The index that a name was looked up to, or an error at the place of
use. -/
def resolved (space : Space) (name : String) (span : Span) : Option Nat → Except CompileError Nat
  | some index => .ok index
  | none => .error (.unresolved space name span)

end WasmText
