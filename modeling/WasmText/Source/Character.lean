/-!
# Character classes

Blanks are the Unicode characters with the `White_Space` property.
Identifier characters are the printable ASCII characters that are not
blank and do not delimit: everything but quotes, commas, semicolons and
brackets.
-/

namespace WasmText

/-- The code points of the blank characters, as ranges with both ends. -/
def blankRanges : List (Nat × Nat) :=
  [(0x09, 0x0D), (0x20, 0x20), (0x85, 0x85), (0xA0, 0xA0), (0x1680, 0x1680), (0x2000, 0x200A),
    (0x2028, 0x2029), (0x202F, 0x202F), (0x205F, 0x205F), (0x3000, 0x3000)]

def isBlank (c : Char) : Bool :=
  blankRanges.any fun (lo, hi) => lo ≤ c.toNat && c.toNat ≤ hi

/-- The punctuation that identifiers may hold. -/
def identifierMarks : List Char := "!#$%&'*+-./:<=>?@\\^_`|~".toList

/-- Whether a character may stand in a name, a number or an instruction. -/
def isIdentifier (c : Char) : Bool :=
  c.isAlphanum || identifierMarks.contains c

/-- The value of a digit in the given radix, at most sixteen. Letters of
either case count from ten. -/
def digit? (radix : Nat) (c : Char) : Option Nat :=
  let value? :=
    if '0' ≤ c ∧ c ≤ '9' then some (c.toNat - '0'.toNat)
    else if 'a' ≤ c ∧ c ≤ 'f' then some (c.toNat - 'a'.toNat + 10)
    else if 'A' ≤ c ∧ c ≤ 'F' then some (c.toNat - 'A'.toNat + 10)
    else none
  value?.filter (· < radix)

/-- The number that a sequence of digits denotes, when there is at least
one and each is a digit of the radix. -/
def digits? (radix : Nat) : List Char → Option Nat
  | [] => none
  | cs => cs.foldlM (fun n c => (digit? radix c).map (radix * n + ·)) 0

/-- As `digits?`, with one plus sign allowed in front. -/
def plusDigits? (radix : Nat) : List Char → Option Nat
  | '+' :: cs => digits? radix cs
  | cs => digits? radix cs

end WasmText
