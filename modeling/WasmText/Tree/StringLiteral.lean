import WasmText.ParseError
import WasmText.Source.Character
/-!
# String literals

The text between the quotes of a string denotes bytes. A character stands
for its UTF-8 bytes; a backslash starts an escape: a letter or mark for one
byte, two hexadecimal digits for any byte, or a code point in braces.
-/

namespace WasmText

namespace StringLiteral

/-- The bytes of the escape that follows a backslash, and how many
characters it takes. -/
def escape : List Char → Except EscapeFault (List UInt8 × Nat)
  | [] => .error .unterminated
  | 't' :: _ => .ok ([0x09], 1)
  | 'n' :: _ => .ok ([0x0A], 1)
  | 'r' :: _ => .ok ([0x0D], 1)
  | '"' :: _ => .ok ([0x22], 1)
  | '\'' :: _ => .ok ([0x27], 1)
  | '\\' :: _ => .ok ([0x5C], 1)
  | 'u' :: '{' :: cs =>
    let digits := cs.takeWhile (· != '}')
    if cs.contains '}' then
      match (plusDigits? 16 digits).filter Nat.isValidChar with
      | some code => .ok (String.utf8EncodeChar (Char.ofNat code), digits.length + 3)
      | none => .error (.invalidUnicode (String.ofList digits))
    else .error .malformedUnicode
  | 'u' :: _ => .error .malformedUnicode
  | c :: cs =>
    match digit? 16 c, cs.head?.bind (digit? 16) with
    | some high, some low => .ok ([UInt8.ofNat (16 * high + low)], 2)
    | some _, none => .error .invalidHex
    | none, _ => .error (.unknown c)

/-- The bytes that the text of a string denotes. -/
def decode (text : List Char) : Except EscapeFault (List UInt8) :=
  match text with
  | [] => .ok []
  | c :: cs =>
    if c = '\\' then do
      let (bytes, n) ← escape cs
      return bytes ++ (← decode (cs.drop n))
    else do
      return String.utf8EncodeChar c ++ (← decode cs)
termination_by text.length
decreasing_by all_goals simp only [List.length_drop, List.length_cons]; omega

/-- The bytes of a string token, or a parse error at the token. -/
def ofToken (t : Token) : Except ParseError (List UInt8) :=
  match decode t.value.toList with
  | .ok bytes => .ok bytes
  | .error fault => .error ⟨.escape fault, t.span⟩

end StringLiteral

end WasmText
