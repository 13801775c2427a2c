import WasmText.Token.Stream
import WasmText.Tree
import WasmText.Tree.StringLiteral
/-!
# Parsing

A form is written in parentheses, or flat: an instruction with its label
and parameters, where `block`, `loop` and `if` go on to their `end` and
`call_indirect` takes the type forms after it. A flat `if` is given the
`then` and `else` children of its parenthesised spelling.

    expr  = label
          | string+
          | ( head label? param* expr* param* )
          | (block or loop) label? param* expr* end label?
          | if label? param* expr* (else label? expr*)? end label?
          | call_indirect label? param* type-form*
          | instr label? param*
    param = number | hex | string | label | keyword | keyword= (number | hex)

Each function takes a stream and gives back the stream after what it read,
with the bound on the tokens still ahead that ends the recursion.
-/

namespace WasmText

namespace Stream

/-- A stream with fewer tokens ahead. -/
abbrev Below (s : Stream) := { t : Stream // t.pending < s.pending }

/-- A stream with no more tokens ahead. -/
abbrev Within (s : Stream) := { t : Stream // t.pending ≤ s.pending }

/-- Takes a token of the given class, which is not the end of the source,
or fails. -/
def require (s : Stream) (kind : Token.Kind) (hk : kind ≠ .eof) :
    Except ParseError (Token × s.Below) :=
  match h : s.expect kind with
  | .ok (t, s') => .ok (t, ⟨s', pending_lt_of_expect hk h⟩)
  | .error e => .error e

/-- Takes the instruction word `word` or fails. -/
def requireWord (s : Stream) (word : String) : Except ParseError (Token × s.Below) :=
  match h : s.expectValue .instr word with
  | .ok (t, s') => .ok (t, ⟨s', pending_lt_of_expectValue (by decide) h⟩)
  | .error e => .error e

/-- Takes a token of the given class, which is not the end of the source,
if it is the current one. -/
def offer (s : Stream) (kind : Token.Kind) (hk : kind ≠ .eof) : Option (Token × s.Below) :=
  match h : s.accept kind with
  | some (t, s') => some (t, ⟨s', pending_lt_of_accept hk h⟩)
  | none => none

/-- Takes the instruction word `word` if it is the current token. -/
def offerWord (s : Stream) (word : String) : Option (Token × s.Below) :=
  match h : s.acceptValue .instr word with
  | some (t, s') => some (t, ⟨s', pending_lt_of_acceptValue (by decide) h⟩)
  | none => none

end Stream

namespace Parser

/-! ## Leaves -/

/-- A word without the equals signs at its end. -/
def trimEquals (word : String) : String :=
  String.ofList (word.toList.reverse.dropWhile (· == '=')).reverse

/-- A number without its digit separators. -/
def dropSeparators (text : String) : String :=
  String.ofList (text.toList.filter (· != '_'))

/-- The head of a form in parentheses: an instruction, or a keyword used
as one. -/
def headToken (s : Stream) : Except ParseError (Token × s.Below) :=
  match s.offer .reserved (by decide) with
  | some taken => .ok taken
  | none => s.require .instr (by decide)

/-- The label of a form, if it has one. -/
def label (s : Stream) : Option Label × s.Within :=
  match s.offer .label (by decide) with
  | some ⟨t, s₁, h₁⟩ => ⟨some ⟨t.value, t.span⟩, s₁, Nat.le_of_lt h₁⟩
  | none => ⟨none, s, Nat.le_refl _⟩

/-- The label that may follow `end` or `else`, which must repeat the
form's own. -/
def closingLabel (name : Option Label) (s : Stream) : Except ParseError s.Within :=
  match s.offer .label (by decide) with
  | none => .ok ⟨s, Nat.le_refl _⟩
  | some ⟨t, s₁, h₁⟩ =>
    if name.map (·.name) = some t.value then .ok ⟨s₁, Nat.le_of_lt h₁⟩
    else .error ⟨.mismatchingLabel t.value, t.span⟩

/-- The keyword `t`, which has just been taken, with its value when an
equals sign announces one. -/
def keyword (t : Token) (s : Stream) : Except ParseError (Param × s.Within) := do
  let word := trimEquals t.value
  let some key := Keyword.ofWord? word
    | .error ⟨.unknownKeyword word, t.span⟩
  if t.value.toList.getLast? = some '=' then
    let ⟨v, s₁, h₁⟩ ←
      match s.offer .number (by decide) with
      | some taken => pure taken
      | none => s.require .hex (by decide)
    let arg := Argument.keyword key (some (dropSeparators v.value))
    return ⟨⟨arg, t.span.through v.span⟩, s₁, Nat.le_of_lt h₁⟩
  else
    return ⟨⟨.keyword key none, t.span⟩, s, Nat.le_refl _⟩

/-- One parameter, or none where none starts. -/
def param? (s : Stream) : Except ParseError (Option (Param × s.Below)) :=
  let t := s.current
  match hk : t.kind with
  | .number =>
    .ok (some ⟨⟨.number (dropSeparators t.value), t.span⟩, s.advance,
      Stream.pending_advance_lt (by simp [t, hk])⟩)
  | .hex =>
    .ok (some ⟨⟨.hex (dropSeparators t.value), t.span⟩, s.advance,
      Stream.pending_advance_lt (by simp [t, hk])⟩)
  | .string => do
    let bytes ← StringLiteral.ofToken t
    return some ⟨⟨.str bytes, t.span⟩, s.advance, Stream.pending_advance_lt (by simp [t, hk])⟩
  | .label =>
    .ok (some ⟨⟨.label t.value, t.span⟩, s.advance,
      Stream.pending_advance_lt (by simp [t, hk])⟩)
  | .reserved => do
    let ⟨param, s₁, h₁⟩ ← keyword t s.advance
    return some ⟨param, s₁, Nat.lt_of_le_of_lt h₁ (Stream.pending_advance_lt (by simp [t, hk]))⟩
  | _ => .ok none

/-- As many parameters as there are. -/
def params (s : Stream) : Except ParseError (List Param × s.Within) := do
  match ← param? s with
  | none => return ⟨[], s, Nat.le_refl _⟩
  | some ⟨param, s₁, h₁⟩ =>
    let ⟨rest, s₂, h₂⟩ ← params s₁
    return ⟨param :: rest, s₂, by omega⟩
termination_by s.pending

/-- As many strings as there are, joined: their bytes, and the span from
`span` to the last of them. -/
def strings (span : Span) (s : Stream) : Except ParseError ((List UInt8 × Span) × s.Within) := do
  match s.offer .string (by decide) with
  | none => return ⟨([], span), s, Nat.le_refl _⟩
  | some ⟨t, s₁, h₁⟩ =>
    let bytes ← StringLiteral.ofToken t
    let ⟨(rest, span), s₂, h₂⟩ ← strings (span.through t.span) s₁
    return ⟨(bytes ++ rest, span), s₂, by omega⟩
termination_by s.pending

/-! ## Forms -/

/-- Whether a form that gives a signature starts here. -/
def startsSignature (s : Stream) : Bool :=
  s.currentIs .leftParen && s.following.kind == .instr
    && ["type", "param", "result"].contains s.following.value

/-- Whether neither the source nor the form ends here, `words` being the
instructions that end it. -/
def goesOn (words : List String) (s : Stream) : Bool :=
  !s.currentIs .eof && !words.any (s.current.is .instr ·)

mutual

/-- One expression, or none where none starts. -/
def expr (s : Stream) : Except ParseError (Option (Expr × s.Below)) := do
  let t := s.current
  match hk : t.kind with
  | .label =>
    return some ⟨.ref t.value t.span, s.advance, Stream.pending_advance_lt (by simp [t, hk])⟩
  | .string =>
    let bytes ← StringLiteral.ofToken t
    have h₁ : s.advance.pending < s.pending := Stream.pending_advance_lt (by simp [t, hk])
    let ⟨(rest, span), s₂, h₂⟩ ← strings t.span s.advance
    return some ⟨.data (bytes ++ rest) span, s₂, by omega⟩
  | .leftParen =>
    have h₁ : s.advance.pending < s.pending := Stream.pending_advance_lt (by simp [t, hk])
    let ⟨head, s₂, h₂⟩ ← headToken s.advance
    let ⟨name, s₃, h₃⟩ := label s₂
    let ⟨leading, s₄, h₄⟩ ← params s₃
    let ⟨children, s₅, h₅⟩ ← exprsWhile (goesOn []) s₄
    let ⟨trailing, s₆, h₆⟩ ← params s₅
    let ⟨close, s₇, h₇⟩ ← s₆.require .rightParen (by decide)
    let head := ⟨trimEquals head.value, name, leading ++ trailing, t.span.through close.span⟩
    return some ⟨.node head children, s₇, by omega⟩
  | .instr =>
    have h₁ : s.advance.pending < s.pending := Stream.pending_advance_lt (by simp [t, hk])
    let ⟨name, s₂, h₂⟩ := label s.advance
    let ⟨params, s₃, h₃⟩ ← params s₂
    let head := ⟨trimEquals t.value, name, params, t.span⟩
    let ⟨e, s₄, h₄⟩ ← flat head s₃
    return some ⟨e, s₄, by omega⟩
  | _ => return none
termination_by 4 * s.pending

/-- Expressions one after another, for as long as `go` says and there is
one. -/
def exprsWhile (go : Stream → Bool) (s : Stream) : Except ParseError (List Expr × s.Within) := do
  if go s then
    match ← expr s with
    | none => return ⟨[], s, Nat.le_refl _⟩
    | some ⟨e, s₁, h₁⟩ =>
      let ⟨rest, s₂, h₂⟩ ← exprsWhile go s₁
      return ⟨e :: rest, s₂, by omega⟩
  else
    return ⟨[], s, Nat.le_refl _⟩
termination_by 4 * s.pending + 1

/-- What follows the head of a flat form. -/
def flat (head : Head) (s : Stream) : Except ParseError (Expr × s.Within) := do
  if head.instr = "block" ∨ head.instr = "loop" then
    let ⟨children, s₁, h₁⟩ ← exprsWhile (goesOn ["end"]) s
    let ⟨close, s₂, h₂⟩ ← s₁.requireWord "end"
    let ⟨s₃, h₃⟩ ← closingLabel head.name s₂
    return ⟨.node { head with span := head.span.through close.span } children, s₃, by omega⟩
  else if head.instr = "if" then
    let ⟨body, s₁, h₁⟩ ← exprsWhile (goesOn ["end", "else"]) s
    let (signature, body) := body.partition Expr.isSignature
    let ⟨alternative, s₂, h₂⟩ ← alternative head.name s₁
    let ⟨close, s₃, h₃⟩ ← s₂.requireWord "end"
    let ⟨s₄, h₄⟩ ← closingLabel head.name s₃
    let children := signature ++ .node (.plain "then" head.span) body :: alternative
    return ⟨.node { head with span := head.span.through close.span } children, s₄, by omega⟩
  else if head.instr = "call_indirect" then
    let ⟨signature, s₁, h₁⟩ ← exprsWhile startsSignature s
    let span := signature.foldl (fun span e => span.through e.span) head.span
    return ⟨.node { head with span } signature, s₁, h₁⟩
  else
    return ⟨.node head [], s, Nat.le_refl _⟩
termination_by 4 * s.pending + 3

/-- The `else` branch of a flat `if`, as its `else` child. -/
def alternative (name : Option Label) (s : Stream) :
    Except ParseError (List Expr × s.Within) := do
  match s.offerWord "else" with
  | none => return ⟨[], s, Nat.le_refl _⟩
  | some ⟨t, s₁, h₁⟩ =>
    let ⟨s₂, h₂⟩ ← closingLabel name s₁
    let ⟨body, s₃, h₃⟩ ← exprsWhile (goesOn ["end"]) s₂
    return ⟨[.node (.plain "else" t.span) body], s₃, by omega⟩
termination_by 4 * s.pending + 2

end

/-- The module that a list of top-level expressions stands for: the only
one, if it is a module, and otherwise a module around them all. -/
def moduleOf (forms : List Expr) (stop : Nat) : Node :=
  let around : Node := ⟨.plain "module" ⟨0, stop, 1, 1⟩, forms⟩
  match forms with
  | [.node head children] => if head.instr = "module" then ⟨head, children⟩ else around
  | _ => around

end Parser

/-- The module that a source denotes. -/
def parse (source : String) : Except ParseError Node := do
  let ⟨forms, s, _⟩ ← Parser.exprsWhile (Parser.goesOn []) (.ofSource source)
  if s.currentIs .eof then
    return Parser.moduleOf forms s.finish.stop
  else
    throw (.unexpected .leftParen none s.current)

end WasmText
