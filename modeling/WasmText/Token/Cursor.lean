import WasmText.Token.Lexer
import WasmText.ParseError
/-!
# Cursors

A scanner gives the tokens of a source one at a time: all of them, layout
and comments included, then the end of the source once, then nothing. A
cursor reads from a scanner as it goes along and keeps two significant
tokens in hand, the current one and the one after it. It does not go past
the end of the source, and what it shows beyond that is an end of source
with no place of its own.
-/

namespace WasmText

/-- How far a source has been read: the place, the text from there on, and
whether the end has been given. -/
structure Scanner where
  position : Position
  rest : List Char
  done : Bool
deriving DecidableEq

namespace Scanner

def ofSource (source : String) : Scanner := ⟨.start, source.toList, false⟩

/-- The next token, and the scanner past it. -/
def next? (s : Scanner) : Option (Token × Scanner) :=
  if s.done then none
  else
    match s.rest with
    | [] => some (Token.atEnd (Span.between s.position s.position), { s with done := true })
    | c :: cs =>
      let (kind, n) := Lexer.cut c cs
      let lexeme := c :: cs.take n
      let position := s.position.after lexeme
      some (⟨kind, String.ofList lexeme, Span.between s.position position⟩,
        ⟨position, cs.drop n, false⟩)

/-- A bound on the tokens that are left. -/
def pending (s : Scanner) : Nat := if s.done then 0 else s.rest.length + 1

theorem pending_lt_of_next? {s s' : Scanner} {t : Token} (h : s.next? = some (t, s')) :
    s'.pending < s.pending := by
  unfold next? at h
  split at h
  · cases h
  · next hdone =>
    split at h
    · obtain ⟨-, rfl⟩ := Prod.mk.inj (Option.some.inj h)
      simp [pending, hdone]
    · next c cs hrest =>
      obtain ⟨-, rfl⟩ := Prod.mk.inj (Option.some.inj h)
      simp only [pending, hdone, hrest, List.length_drop, List.length_cons]
      simp only [Bool.false_eq_true, if_false]
      omega

/-- The next token that is neither layout nor a comment. -/
def significant (s : Scanner) : Token × Scanner :=
  match _h : s.next? with
  | none => (Token.atEnd Span.zero, s)
  | some (t, s') => if t.kind.isTrivia then s'.significant else (t, s')
termination_by s.pending
decreasing_by exact pending_lt_of_next? ‹_›

end Scanner

/-- A walk over the significant tokens of a source. -/
structure Cursor where
  source : String
  scanner : Scanner
  current : Token
  following : Token
deriving DecidableEq

/-- What a token may be asked to be: of a class, and of a value if one is
given. -/
structure Token.Pattern where
  kind : Token.Kind
  value : Option String
deriving DecidableEq

def Token.Pattern.fits (p : Token.Pattern) (t : Token) : Bool :=
  match p.value with
  | none => t.kind == p.kind
  | some value => t.is p.kind value

namespace Cursor

/-- At the first significant token. -/
def ofSource (source : String) : Cursor :=
  let (current, scanner) := (Scanner.ofSource source).significant
  let (following, scanner) := scanner.significant
  ⟨source, scanner, current, following⟩

/-- Takes the current token, and stays if it is the end of the source. -/
def advance (c : Cursor) : Token × Cursor :=
  if c.current.kind = .eof then (c.current, c)
  else
    let (following, scanner) := c.scanner.significant
    (c.current, { c with scanner, current := c.following, following })

/-- Takes the current token if it fits. -/
def accept (c : Cursor) (p : Token.Pattern) : Option Token × Cursor :=
  if p.fits c.current then
    let (t, c) := c.advance
    (some t, c)
  else (none, c)

/-- Takes a token that fits or fails at the current one. -/
def expect (c : Cursor) (p : Token.Pattern) : Except ParseError Token × Cursor :=
  match c.accept p with
  | (some t, c) => (.ok t, c)
  | (none, c) => (.error (.unexpected p.kind p.value c.current), c)

/-! ## Operations -/

/-- What can be asked of a walk over tokens. -/
inductive Operation where
  | restart
  | advance
  | current
  | following
  | currentFits (p : Token.Pattern)
  | accept (p : Token.Pattern)
  | expect (p : Token.Pattern)
deriving DecidableEq

/-- What an operation answers. -/
inductive Reply where
  | done
  | token (t : Token)
  | truth (b : Bool)
  | refused
  | failed (e : ParseError)
deriving DecidableEq

/-- An operation: its reply, and the cursor after it. -/
def perform (c : Cursor) : Operation → Reply × Cursor
  | .restart => (.done, ofSource c.source)
  | .advance =>
    let (t, c) := c.advance
    (.token t, c)
  | .current => (.token c.current, c)
  | .following => (.token c.following, c)
  | .currentFits p => (.truth (p.fits c.current), c)
  | .accept p =>
    match c.accept p with
    | (some t, c) => (.token t, c)
    | (none, c) => (.refused, c)
  | .expect p =>
    match c.expect p with
    | (.ok t, c) => (.token t, c)
    | (.error e, c) => (.failed e, c)

end Cursor

end WasmText
