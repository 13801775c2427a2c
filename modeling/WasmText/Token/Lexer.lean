import WasmText.Token
/-!
# Lexing

The source is cut into lexemes from left to right. At each character the
cut is a class and a number of further characters, so the lexemes tile
the source whatever the rules say, and every source has tokens: text that
fits no rule becomes an `invalid` token. A comment or string that is never
closed is invalid up to the end of the source.
-/

namespace WasmText

namespace Lexer

/-! ## Delimited lexemes -/

/-- How many characters close a block comment, given the text after its
opening mark and how many inner comments are open. Block comments nest. -/
def commentEnd? (depth : Nat) : List Char → Option Nat
  | [] => none
  | '(' :: ';' :: cs => (commentEnd? (depth + 1) cs).map (· + 2)
  | ';' :: ')' :: cs =>
    match depth with
    | 0 => some 2
    | depth + 1 => (commentEnd? depth cs).map (· + 2)
  | _ :: cs => (commentEnd? depth cs).map (· + 1)

/-- How many characters close a string, given the text after its opening
quote. A backslash covers the character after it. -/
def stringEnd? : List Char → Option Nat
  | [] => none
  | '"' :: _ => some 1
  | '\\' :: _ :: cs => (stringEnd? cs).map (· + 2)
  | _ :: cs => (stringEnd? cs).map (· + 1)

/-! ## Atoms -/

/-- Text without one leading sign, and whether there was one. -/
def dropSign : List Char → List Char × Bool
  | '+' :: cs => (cs, true)
  | '-' :: cs => (cs, true)
  | cs => (cs, false)

def startsHex (cs : List Char) : Bool :=
  "0x".toList.isPrefixOf cs || "0X".toList.isPrefixOf cs || "nan:0x".toList.isPrefixOf cs

def startsNumber (cs : List Char) : Bool :=
  cs.head?.any Char.isDigit || cs == "inf".toList || cs == "nan".toList

/-- The class of an atom that is no keyword. -/
def atomKind (atom : List Char) : Token.Kind :=
  let (body, signed) := dropSign atom
  if startsHex body then .hex
  else if startsNumber body then .number
  else if !signed && body.head?.any Char.isLower then .instr
  else .invalid

/-- The length of the keyword an atom starts with, its equals sign
included. A keyword ends the atom or is followed by an equals sign. -/
def keywordLength? (atom : List Char) : Option Nat :=
  Keyword.all.findSome? fun key =>
    let word := key.word.toList
    if atom == word then some word.length
    else if (word ++ ['=']).isPrefixOf atom then some (word.length + 1)
    else none

/-! ## One lexeme -/

/-- The class of the lexeme that starts with `c`, and how many of the
characters `cs` after it belong to it. -/
def cut (c : Char) (cs : List Char) : Token.Kind × Nat :=
  if isBlank c then (.whitespace, (cs.takeWhile isBlank).length)
  else
    match c, cs with
    | ';', ';' :: _ => (.comment, (cs.takeWhile (· != '\n')).length)
    | '(', ';' :: inner =>
      match commentEnd? 0 inner with
      | some n => (.comment, n + 1)
      | none => (.invalid, cs.length)
    | '(', _ => (.leftParen, 0)
    | ')', _ => (.rightParen, 0)
    | '"', _ =>
      match stringEnd? cs with
      | some n => (.string, n)
      | none => (.invalid, cs.length)
    | '$', _ =>
      let name := cs.takeWhile isIdentifier
      if name.isEmpty then (.invalid, 0) else (.label, name.length)
    | _, _ =>
      if isIdentifier c then
        let atom := c :: cs.takeWhile isIdentifier
        match keywordLength? atom with
        | some n => (.reserved, n - 1)
        | none => (atomKind atom, atom.length - 1)
      else (.invalid, 0)

/-- The tokens of a text that begins at `p`, without the end of the source. -/
def tokensFrom (p : Position) (text : List Char) : List Token :=
  match text with
  | [] => []
  | c :: cs =>
    let (kind, n) := cut c cs
    let lexeme := c :: cs.take n
    let q := p.after lexeme
    ⟨kind, String.ofList lexeme, Span.between p q⟩ :: tokensFrom q (cs.drop n)
termination_by text.length
decreasing_by simp only [List.length_drop, List.length_cons]; omega

end Lexer

namespace Token

/-- The end of a source as a token. -/
def endOf (source : String) : Token :=
  let p := Position.start.after source.toList
  atEnd (Span.between p p)

/-- All tokens of a source, layout and comments included, and its end. -/
def scan (source : String) : List Token :=
  Lexer.tokensFrom .start source.toList ++ [endOf source]

end Token

end WasmText
