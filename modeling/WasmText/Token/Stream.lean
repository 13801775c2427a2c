import WasmText.Token.Lexer
import WasmText.ParseError
/-!
# Token streams

A stream walks over the significant tokens of a source, those that are
neither layout nor comments. It shows the current token and the one after
it. At the end it stays on the end of the source, and what lies beyond
that is an end of source with no place of its own.
-/

namespace WasmText

/-- The significant tokens of a source, those still ahead, and the place
of the end. -/
structure Stream where
  all : List Token
  ahead : List Token
  finish : Span
deriving DecidableEq

namespace Stream

def ofSource (source : String) : Stream :=
  let tokens := (Lexer.tokensFrom .start source.toList).filter (!·.kind.isTrivia)
  ⟨tokens, tokens, (Token.endOf source).span⟩

/-- Back to the first token. -/
def restart (s : Stream) : Stream := { s with ahead := s.all }

/-- How many tokens are ahead, the end of the source not counted. -/
def pending (s : Stream) : Nat := s.ahead.length

def current (s : Stream) : Token :=
  s.ahead.headD (Token.atEnd s.finish)

/-- The token after the current one. -/
def following (s : Stream) : Token :=
  match s.ahead with
  | [] => Token.atEnd Span.zero
  | [_] => Token.atEnd s.finish
  | _ :: t :: _ => t

/-- The stream past the current token. The end of the source is never
passed. -/
def advance (s : Stream) : Stream := { s with ahead := s.ahead.tail }

def currentIs (s : Stream) (kind : Token.Kind) : Bool :=
  s.current.kind == kind

/-- Takes the current token if it has the given class. -/
def accept (s : Stream) (kind : Token.Kind) : Option (Token × Stream) :=
  if s.current.kind = kind then some (s.current, s.advance) else none

/-- Takes the current token if it has the given class and value. -/
def acceptValue (s : Stream) (kind : Token.Kind) (value : String) : Option (Token × Stream) :=
  if s.current.is kind value then some (s.current, s.advance) else none

/-- Takes a token of the given class or fails at the current one. -/
def expect (s : Stream) (kind : Token.Kind) : Except ParseError (Token × Stream) :=
  match s.accept kind with
  | some taken => .ok taken
  | none => .error (.unexpected kind none s.current)

/-- Takes a token of the given class and value or fails at the current
one. -/
def expectValue (s : Stream) (kind : Token.Kind) (value : String) :
    Except ParseError (Token × Stream) :=
  match s.acceptValue kind value with
  | some taken => .ok taken
  | none => .error (.unexpected kind (some value) s.current)

/-! ## Progress

Taking a token that is not the end leaves fewer tokens ahead, which is
what makes the parser's recursion end. -/

theorem pending_advance_lt {s : Stream} (h : s.current.kind ≠ .eof) :
    s.advance.pending < s.pending := by
  cases hs : s.ahead with
  | nil => simp [current, hs, Token.atEnd] at h
  | cons t ts => simp [advance, pending, hs]

theorem pending_lt_of_accept {s s' : Stream} {kind : Token.Kind} {t : Token} (hk : kind ≠ .eof)
    (h : s.accept kind = some (t, s')) : s'.pending < s.pending := by
  unfold accept at h
  split at h
  · next hc =>
    obtain ⟨-, rfl⟩ := Prod.mk.inj (Option.some.inj h)
    exact pending_advance_lt (hc ▸ hk)
  · simp at h

theorem pending_lt_of_acceptValue {s s' : Stream} {kind : Token.Kind} {value : String} {t : Token}
    (hk : kind ≠ .eof) (h : s.acceptValue kind value = some (t, s')) :
    s'.pending < s.pending := by
  unfold acceptValue at h
  split at h
  · next hc =>
    obtain ⟨-, rfl⟩ := Prod.mk.inj (Option.some.inj h)
    simp only [Token.is, Bool.and_eq_true, beq_iff_eq] at hc
    exact pending_advance_lt (hc.1 ▸ hk)
  · simp at h

theorem pending_lt_of_expect {s s' : Stream} {kind : Token.Kind} {t : Token} (hk : kind ≠ .eof)
    (h : s.expect kind = .ok (t, s')) : s'.pending < s.pending := by
  unfold expect at h
  split at h
  · next taken ht =>
    obtain rfl := Except.ok.inj h
    exact pending_lt_of_accept hk ht
  · simp at h

theorem pending_lt_of_expectValue {s s' : Stream} {kind : Token.Kind} {value : String} {t : Token}
    (hk : kind ≠ .eof) (h : s.expectValue kind value = .ok (t, s')) :
    s'.pending < s.pending := by
  unfold expectValue at h
  split at h
  · next taken ht =>
    obtain rfl := Except.ok.inj h
    exact pending_lt_of_acceptValue hk ht
  · simp at h

end Stream

end WasmText
