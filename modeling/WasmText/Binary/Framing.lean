import WasmText.Binary.Leb128
import WasmText.Source.Utf8
/-!
# Framing

How the binary format puts things together: a vector is its length and its
items, a name is a vector of UTF-8 bytes, a segment is an identifier and a
vector of bytes, and bit patterns of fixed width are written lowest byte
first.
-/

namespace WasmText

namespace Binary

/-- The lowest `count` bytes of a number, lowest first. -/
def littleEndian : Nat → Nat → List UInt8
  | 0, _ => []
  | count + 1, n => UInt8.ofNat (n % 256) :: littleEndian count (n / 256)

/-- The items of a list, each encoded, after their number. -/
def vector {α : Type} (encode : α → List UInt8) (items : List α) : List UInt8 :=
  Leb128.unsigned items.length ++ items.flatMap encode

/-- Bytes after their number. -/
def byteVector (bytes : List UInt8) : List UInt8 :=
  Leb128.unsigned bytes.length ++ bytes

/-- A text as its UTF-8 bytes after their number. -/
def name (text : String) : List UInt8 :=
  byteVector (Utf8.encode text)

/-- A section of a module: its identifier and its contents. -/
def segment (id : UInt8) (contents : List UInt8) : List UInt8 :=
  id :: byteVector contents

end Binary

end WasmText
