import WasmText.Binary.Framing
import WasmText.Proofs.Binary.Leb128
/-!
# Reading bytes

The other side of the binary format's framing. A reader takes something off
the front of some bytes, or refuses. `Reads r bytes a` says that `r` takes
exactly `bytes` and makes `a` of them, whatever follows, so it passes
through a sequence of readers piece by piece, and through vectors item by
item.
-/

namespace WasmText

/-- Takes something off the front of some bytes, or refuses. -/
abbrev Reader (α : Type) := StateT (List UInt8) Option α

/-- `r` takes exactly `bytes`, whatever follows, and makes `a` of them. -/
def Reads {α : Type} (r : Reader α) (bytes : List UInt8) (a : α) : Prop :=
  ∀ rest, r.run (bytes ++ rest) = some (a, rest)

namespace Reader

variable {α : Type}

def byte : Reader UInt8 := StateT.mk fun
  | b :: rest => some (b, rest)
  | [] => none

/-- Takes one byte, which must be the given one. -/
def exactly (b : UInt8) : Reader Unit := do
  if (← byte) = b then return () else failure

/-- Takes a number of bytes as they are. -/
def take (count : Nat) : Reader (List UInt8) := StateT.mk fun bytes =>
  if count ≤ bytes.length then some (bytes.splitAt count) else none

/-- A natural number in LEB128, of any size when no width is given. -/
def natural (width : Option Nat) : Reader Nat := StateT.mk (Leb128.readUnsigned width)

/-- An integer in LEB128, of any size when no width is given. -/
def integer (width : Option Nat) : Reader Int := StateT.mk (Leb128.readSigned width)

/-- A number of at most 32 bits, as the format has for sizes and
indices. -/
def u32 : Reader Nat := natural (some 32)

/-- The same reader again and again. -/
def times (r : Reader α) : Nat → Reader (List α)
  | 0 => return []
  | count + 1 => do return (← r) :: (← times r count)

/-- A number of items, as told by a number before them. -/
def vector (count : Reader Nat) (item : Reader α) : Reader (List α) := do
  item.times (← count)

/-- A number of bytes, as told by a number before them. -/
def byteVector : Reader (List UInt8) := do
  take (← u32)

/-- A text, given as a vector of UTF-8 bytes. -/
def name : Reader String := do
  match Utf8.decode? (← byteVector) with
  | some text => return text
  | none => failure

/-- A bit pattern of a number of bytes, lowest first. -/
def littleEndian : Nat → Reader Nat
  | 0 => return 0
  | count + 1 => do
    let low ← byte
    let high ← littleEndian count
    return low.toNat + 256 * high

/-- Makes something of all the bytes there are. -/
def whole (r : Reader α) (bytes : List UInt8) : Option α :=
  match r.run bytes with
  | some (a, []) => some a
  | _ => none

/-- Items one after the other until no bytes are left. A reader that takes
nothing is refused. -/
def many (r : Reader α) (bytes : List UInt8) : Option (List α) :=
  if bytes.isEmpty then some []
  else
    match r.run bytes with
    | some (a, rest) =>
      if rest.length < bytes.length then (many r rest).map (a :: ·) else none
    | none => none
termination_by bytes.length

end Reader

/-! ## Sequences of readers -/

namespace Reads

variable {α β : Type} {bytes bytes' : List UInt8} {a : α} {b : β}

theorem pure (a : α) : Reads (Pure.pure a : Reader α) [] a := fun _ => rfl

/-- **One reader after another** takes the bytes of both. -/
theorem bind {r : Reader α} {f : α → Reader β} (h : Reads r bytes a)
    (h' : Reads (f a) bytes' b) : Reads (r >>= f) (bytes ++ bytes') b := by
  intro rest
  rw [StateT.run_bind, List.append_assoc, h]
  exact h' rest

/-- What is made of the last thing read takes no further bytes. -/
theorem bind_pure {r : Reader α} {f : α → Reader β} (h : Reads r bytes a)
    (h' : Reads (f a) [] b) : Reads (r >>= f) bytes b := by
  have := bind h h'
  rwa [List.append_nil] at this

/-- What reads back before anything else reads back as a whole. -/
theorem whole {r : Reader α} (h : Reads r bytes a) : r.whole bytes = some a := by
  have := h []
  rw [List.append_nil] at this
  simp only [Reader.whole, this]

theorem byte (b : UInt8) : Reads Reader.byte [b] b := fun _ => rfl

theorem exactly (b : UInt8) : Reads (Reader.exactly b) [b] () := by
  refine bind_pure (byte b) ?_
  rw [if_pos rfl]
  exact pure ()

/-- A natural number reads back through a width that can hold it. -/
theorem natural {width : Option Nat} (hpos : ∀ w ∈ width, 0 < w) {n : Nat}
    (h : Leb128.Holds width n) : Reads (Reader.natural width) (Leb128.unsigned n) n :=
  Leb128.readUnsigned_unsigned hpos h

/-- An integer reads back through a width that can hold it. -/
theorem integer {width : Option Nat} (hpos : ∀ w ∈ width, 0 < w) {v : Int}
    (h : Leb128.HoldsSigned width v) : Reads (Reader.integer width) (Leb128.signed v) v :=
  Leb128.readSigned_signed hpos h

theorem u32 {n : Nat} (h : n < 2 ^ 32) : Reads Reader.u32 (Leb128.unsigned n) n :=
  natural (by simp) (by simpa [Leb128.Holds] using h)

/-! ## Vectors and names -/

theorem take (bytes : List UInt8) : Reads (Reader.take bytes.length) bytes bytes := by
  intro rest
  simp [Reader.take, StateT.run, StateT.mk]

/-- Items read back one after the other if each of them does. -/
theorem times {r : Reader α} {encode : α → List UInt8} {items : List α}
    (h : ∀ a ∈ items, Reads r (encode a) a) :
    Reads (r.times items.length) (items.flatMap encode) items := by
  induction items with
  | nil => exact pure []
  | cons a items ih =>
      have hrest := ih fun c hc => h c (List.mem_cons_of_mem a hc)
      rw [List.flatMap_cons]
      exact bind (h a List.mem_cons_self) (bind_pure hrest (pure (a :: items)))

/-- **A vector reads back** when its length does and each of its items
does. -/
theorem vector {count : Reader Nat} {r : Reader α} {encode : α → List UInt8} {items : List α}
    (hcount : Reads count (Leb128.unsigned items.length) items.length)
    (h : ∀ a ∈ items, Reads r (encode a) a) :
    Reads (Reader.vector count r) (Binary.vector encode items) items :=
  bind hcount (times h)

/-- A vector of bytes reads back if its length is a word. -/
theorem byteVector (h : bytes.length < 2 ^ 32) :
    Reads Reader.byteVector (Binary.byteVector bytes) bytes :=
  bind (u32 h) (take bytes)

/-- A name reads back as its text. -/
theorem name {text : String} (h : (Utf8.encode text).length < 2 ^ 32) :
    Reads Reader.name (Binary.name text) text := by
  have hdecode : Utf8.decode? (Utf8.encode text) = some text := by
    simp [Utf8.decode?, Utf8.encode, String.fromUTF8?, String.fromUTF8, text.isValidUTF8]
  refine bind_pure (byteVector h) ?_
  rw [hdecode]
  exact pure text

/-- A bit pattern reads back when it fits its bytes. -/
theorem littleEndian {count n : Nat} (h : n < 256 ^ count) :
    Reads (Reader.littleEndian count) (Binary.littleEndian count n) n := by
  induction count generalizing n with
  | zero =>
      have hn : n = 0 := by simpa using h
      rw [hn]
      exact pure 0
  | succ count ih =>
      have hhigh : n / 256 < 256 ^ count := by
        rw [Nat.div_lt_iff_lt_mul (by omega), ← Nat.pow_succ]
        exact h
      have hlow : (UInt8.ofNat (n % 256)).toNat + 256 * (n / 256) = n := by
        rw [Leb128.toNat_ofNat_of_lt (Nat.mod_lt _ (by omega))]
        omega
      refine bind (byte _) (bind_pure (ih hhigh) ?_)
      rw [hlow]
      exact pure n

end Reads

/-! ## Items until the end -/

namespace Reader

variable {α : Type}

@[simp] theorem many_nil (r : Reader α) : r.many [] = some [] := by
  rw [many]
  rfl

/-- **Items one after the other read back** when each of them does, and
none is written in no bytes. -/
theorem many_flatMap {r : Reader α} {encode : α → List UInt8} {items : List α}
    (h : ∀ a ∈ items, Reads r (encode a) a) (hne : ∀ a ∈ items, encode a ≠ []) :
    r.many (items.flatMap encode) = some items := by
  induction items with
  | nil => exact many_nil r
  | cons a items ih =>
      have hrest := ih (fun c hc => h c (List.mem_cons_of_mem a hc))
        fun c hc => hne c (List.mem_cons_of_mem a hc)
      have hpos : 0 < (encode a).length := List.length_pos_iff.2 (hne a List.mem_cons_self)
      have hfull : (encode a ++ items.flatMap encode).isEmpty = false := by
        rw [List.isEmpty_eq_false_iff_exists_mem]
        exact ⟨_, List.mem_append_left _ (List.head_mem (hne a List.mem_cons_self))⟩
      -- the item takes some bytes, so what is left is shorter and reading goes on
      rw [List.flatMap_cons, many, hfull, h a List.mem_cons_self]
      simp only [Bool.false_eq_true, if_false, List.length_append]
      rw [if_pos (by omega), hrest]
      rfl

end Reader

/-! ## Lengths -/

namespace Binary

theorem length_byteVector (bytes : List UInt8) :
    bytes.length ≤ (byteVector bytes).length := by
  rw [byteVector, List.length_append]
  omega

/-- An item is no longer than the vector it stands in. -/
theorem length_encode_le_vector {α : Type} {encode : α → List UInt8} {items : List α} {a : α}
    (h : a ∈ items) : (encode a).length ≤ (vector encode items).length := by
  obtain ⟨before, after, rfl⟩ := List.append_of_mem h
  simp only [vector, List.flatMap_append, List.flatMap_cons, List.length_append]
  omega

/-- A vector has no more items than bytes when each item takes a byte. -/
theorem length_le_vector {α : Type} {encode : α → List UInt8} {items : List α}
    (h : ∀ a ∈ items, encode a ≠ []) : items.length ≤ (vector encode items).length := by
  have hle : items.length ≤ (items.flatMap encode).length := by
    induction items with
    | nil => simp
    | cons a items ih =>
        have hpos := List.length_pos_iff.2 (h a List.mem_cons_self)
        have := ih fun c hc => h c (List.mem_cons_of_mem a hc)
        rw [List.flatMap_cons, List.length_append, List.length_cons]
        omega
  rw [vector, List.length_append]
  omega

end Binary

end WasmText
