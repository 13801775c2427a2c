import WasmText.Source.Span
import WasmText.Source.Character
/-!
# Tokens

A token is a piece of source with the class it belongs to. Its `text` is
the piece itself; its `value` is what the piece stands for, which drops
the quotes of a string and the sign of a label.
-/

namespace WasmText

/-- Words that are never instructions: they stand alone or, followed by an
equals sign, take a value. -/
inductive Keyword where
  | offset
  | align
  | shared
  | funcref
deriving DecidableEq

namespace Keyword

def word : Keyword → String
  | offset => "offset"
  | align => "align"
  | shared => "shared"
  | funcref => "funcref"

def all : List Keyword := [offset, align, shared, funcref]

def ofWord? (word : String) : Option Keyword :=
  all.find? (·.word == word)

end Keyword

namespace Token

/-- The classes of tokens. `invalid` covers text that belongs to no other
class, `eof` is the end of the source. -/
inductive Kind where
  | comment
  | string
  | reserved
  | hex
  | number
  | instr
  | label
  | leftParen
  | rightParen
  | whitespace
  | invalid
  | eof
deriving DecidableEq

namespace Kind

/-- The class as messages name it. -/
def describe : Kind → String
  | comment => "comment"
  | string => "string"
  | reserved => "reserved word"
  | hex => "hex literal"
  | number => "number"
  | instr => "instruction"
  | label => "label"
  | leftParen => "("
  | rightParen => ")"
  | whitespace => "whitespace"
  | invalid => "invalid token"
  | eof => "end of input"

/-- Layout and comments, which no grammar rule mentions. -/
def isTrivia : Kind → Bool
  | comment | whitespace => true
  | _ => false

end Kind

end Token

/-- A piece of source, its class and its place. -/
structure Token where
  kind : Token.Kind
  text : String
  span : Span
deriving DecidableEq

namespace Token

/-- The end of a source, at the given place. -/
def atEnd (span : Span) : Token := ⟨.eof, "", span⟩

/-- What the token stands for: a string without its quotes (escapes still
written), a label without its sign, anything else as written. -/
def value (t : Token) : String :=
  match t.kind with
  | .string => String.ofList (t.text.toList.drop 1).dropLast
  | .label => String.ofList (t.text.toList.drop 1)
  | _ => t.text

/-- Whether the token has the given class and value. -/
def is (t : Token) (kind : Kind) (value : String) : Bool :=
  t.kind == kind && t.value == value

/-- The token and its place, as diagnostics show it. -/
def render (t : Token) : String :=
  let shown :=
    match t.kind with
    | .eof => "end of input"
    | .label => "$" ++ t.value
    | .string => "\"" ++ t.value ++ "\""
    | _ => t.value
  shown ++ " at " ++ t.span.render

end Token

end WasmText
