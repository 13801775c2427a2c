import WasmText.Token
/-!
# Parse errors

Why a source has no tree: a token that does not fit, a closing label that
repeats the wrong name, or a string with a faulty escape. An error carries
its cause and the place of the token it was found at.
-/

namespace WasmText

/-- What can be wrong with an escape sequence. -/
inductive EscapeFault where
  | unterminated
  | malformedUnicode
  | invalidUnicode (digits : String)
  | invalidHex
  | unknown (c : Char)
deriving DecidableEq

def EscapeFault.message : EscapeFault → String
  | unterminated => "unterminated escape sequence"
  | malformedUnicode => "malformed unicode escape"
  | invalidUnicode digits => "invalid unicode escape: \\u\x7b" ++ digits ++ "\x7d"
  | invalidHex => "invalid hex escape"
  | unknown c => "invalid escape sequence: \\" ++ c.toString

namespace ParseError

inductive Cause where
  /-- A token of another class, or with another value, was needed here. -/
  | expected (kind : Token.Kind) (value : Option String) (found : Token)
  | mismatchingLabel (name : String)
  | unknownKeyword (word : String)
  | escape (fault : EscapeFault)
deriving DecidableEq

def Cause.message : Cause → String
  | expected kind value found =>
    let wanted :=
      match value with
      | some value => kind.describe ++ " \"" ++ value ++ "\""
      | none => kind.describe
    "unexpected token \"" ++ found.value ++ "\": expected " ++ wanted ++ ", found "
      ++ found.kind.describe
  | mismatchingLabel name => "mismatching label $" ++ name
  | unknownKeyword word => "unknown reserved word: " ++ word
  | escape fault => fault.message

end ParseError

/-- A cause and the place it was found at. -/
structure ParseError where
  cause : ParseError.Cause
  span : Span
deriving DecidableEq

namespace ParseError

/-- The error for a token that does not fit, at that token. -/
def unexpected (kind : Token.Kind) (value : Option String) (found : Token) : ParseError :=
  ⟨.expected kind value found, found.span⟩

/-- The message with its place, as shown to the user. -/
def render (e : ParseError) : String :=
  e.cause.message ++ " at line " ++ toString e.span.line ++ ", column " ++ toString e.span.column
    ++ " (offset " ++ toString e.span.start ++ ")"

end ParseError

end WasmText
