/-!
# Positions and spans

A position is a place between two characters of a source text: the bytes
before it, the line it is on and the character within the line. A span is
the stretch between two positions and remembers the line and column of the
first. Only a line feed starts a new line.
-/

namespace WasmText

/-- A place in a source text. Offsets count UTF-8 bytes from 0, lines and
columns count from 1, and a column is a number of characters. None of the
numbers has a bound of its own. -/
structure Position where
  offset : Nat
  line : Nat
  column : Nat
deriving DecidableEq

namespace Position

/-- Where every source begins. -/
def start : Position := ⟨0, 1, 1⟩

/-- The place just after one more character. -/
def next (p : Position) (c : Char) : Position :=
  if c = '\n' then ⟨p.offset + c.utf8Size, p.line + 1, 1⟩
  else ⟨p.offset + c.utf8Size, p.line, p.column + 1⟩

/-- The place reached from `p` by reading a text. -/
def after (p : Position) (text : List Char) : Position :=
  text.foldl next p

end Position

/-- A stretch of source, in bytes, with the line and column it starts at. -/
structure Span where
  start : Nat
  stop : Nat
  line : Nat
  column : Nat
deriving DecidableEq

namespace Span

/-- The empty span at the start of a source. -/
def zero : Span := ⟨0, 0, 1, 1⟩

/-- The stretch between two positions. -/
def between (p q : Position) : Span := ⟨p.offset, q.offset, p.line, p.column⟩

/-- The stretch from the start of `a` to the end of the later of the two. -/
def through (a b : Span) : Span := { a with stop := max b.stop a.stop }

def length (a : Span) : Nat := a.stop - a.start

def isEmpty (a : Span) : Bool := a.length == 0

/-- The start of a span as messages write it, line and column. -/
def render (a : Span) : String :=
  toString a.line ++ ":" ++ toString a.column

end Span

end WasmText
