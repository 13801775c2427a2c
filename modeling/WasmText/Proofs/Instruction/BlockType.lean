import WasmText.Proofs.Instruction.Signed
/-!
# Block types in bytes

Three encodings share the bytes of a block type: one byte for the empty
type, one byte for each value type, and a signed number for an index.
Nothing says which of them comes first. Read as a signed number, each of
the single bytes is negative, and an index never is, so bytes decode in at
most one way (`BlockType.Decodes.unique`), however large the index.
-/

namespace WasmText

namespace Leb128

/-- A single byte with bit 6 set is a negative number. -/
theorem readSigned_of_bit {b : UInt8} (hlow : 64 ≤ b.toNat) (hhigh : b.toNat < 128)
    (rest : List UInt8) : readSigned none (b :: rest) = some ((b.toNat : Int) - 128, rest) := by
  have hlast : b < 0x80 := UInt8.lt_iff_toNat_lt.2 hhigh
  have hvalue : signedValue [b] = (b.toNat : Int) - 128 := by
    rw [signedValue, if_neg (by omega)]
    omega
  simp [readSigned, split?, hlast, hvalue, HasRoom, HoldsSigned]

/-- What is read as a number that is not negative starts with a byte that
goes on, or has bit 6 clear. -/
theorem head_of_readSigned {b : UInt8} {bytes rest : List UInt8} {i : Nat}
    (h : readSigned none (b :: bytes) = some ((i : Int), rest)) :
    b.toNat < 64 ∨ 128 ≤ b.toNat := by
  by_contra hbit
  rw [readSigned_of_bit (by omega) (by omega)] at h
  have hvalue := congrArg Prod.fst (Option.some.inj h)
  dsimp only at hvalue
  omega

end Leb128

namespace ValType

/-- The byte of a value type has bit 6 set, and is not the one with bit 6
alone. -/
theorem toNat_byte (t : ValType) : 64 < t.byte.toNat ∧ t.byte.toNat < 128 := by
  cases t <;> decide

theorem byte_injective : Function.Injective byte := by
  intro t u h
  have ht := ofByte?_byte t
  rw [h, ofByte?_byte] at ht
  exact (Option.some.inj ht).symm

end ValType

namespace BlockType

/-- The ways to take a block type off the front of some bytes. None of them
goes before another. -/
inductive Decodes : List UInt8 → BlockType → List UInt8 → Prop where
  | empty (rest : List UInt8) : Decodes (0x40 :: rest) .empty rest
  | value (type : ValType) (rest : List UInt8) : Decodes (type.byte :: rest) (.value type) rest
  | index {bytes rest : List UInt8} {i : Nat}
      (h : Leb128.readSigned none bytes = some ((i : Int), rest)) : Decodes bytes (.index i) rest

variable {bytes rest rest' : List UInt8} {b b' : BlockType}

theorem Decodes.of_empty (h : Decodes (0x40 :: rest) b rest') : b = .empty ∧ rest' = rest := by
  generalize hbytes : 0x40 :: rest = bytes at h
  cases h with
  | empty => exact ⟨rfl, (List.cons.inj hbytes).2.symm⟩
  | value type =>
      have hlt := type.toNat_byte.1
      rw [← (List.cons.inj hbytes).1] at hlt
      exact absurd hlt (by decide)
  | index h =>
      subst hbytes
      exact absurd (Leb128.head_of_readSigned h) (by decide)

theorem Decodes.of_value {type : ValType} (h : Decodes (type.byte :: rest) b rest') :
    b = .value type ∧ rest' = rest := by
  have hbit := type.toNat_byte
  generalize hbytes : type.byte :: rest = bytes at h
  cases h with
  | empty =>
      rw [(List.cons.inj hbytes).1] at hbit
      exact absurd hbit.1 (by decide)
  | value other =>
      obtain ⟨hbyte, hrest⟩ := List.cons.inj hbytes
      exact ⟨congrArg _ (ValType.byte_injective hbyte).symm, hrest.symm⟩
  | index h =>
      subst hbytes
      have := Leb128.head_of_readSigned h
      omega

/-- **Bytes decode as a block type in at most one way.** -/
theorem Decodes.unique (h : Decodes bytes b rest) (h' : Decodes bytes b' rest') :
    b' = b ∧ rest' = rest := by
  cases h with
  | empty => exact h'.of_empty
  | value type => exact h'.of_value
  | index hi =>
      cases h' with
      | empty => exact absurd (Leb128.head_of_readSigned hi) (by decide)
      | value type =>
          have := Leb128.head_of_readSigned hi
          have := type.toNat_byte
          omega
      | index hj =>
          obtain ⟨hvalue, hrest⟩ := Prod.mk.inj (Option.some.inj (hi.symm.trans hj))
          exact ⟨congrArg _ (Int.ofNat.inj hvalue).symm, hrest.symm⟩

theorem decodes_encode (b : BlockType) (rest : List UInt8) : Decodes (b.encode ++ rest) b rest := by
  cases b with
  | empty => exact .empty rest
  | value type => exact .value type rest
  | index i => exact .index (Leb128.readSigned_signed (by simp) (by simp [Leb128.HoldsSigned]) rest)

/-- What the block type of a signature is, with the type use that is
written for it, if any, and the type table after it. -/
structure Represents (table : TypeTable) (type : FuncType) (use : Option Nat) (b : BlockType) :
    Prop where
  used : ∀ i ∈ use, b = .index i
  empty : use = none → (b = .empty ↔ type.params = [] ∧ type.results = [])
  value : use = none → ∀ result, b = .value result ↔ type.params = [] ∧ type.results = [result]
  index : use = none → ¬ (type.params = [] ∧ type.results.length ≤ 1) →
    ∃ i, b = .index i ∧ table.at? i = some type

end BlockType

namespace TypeTable

theorem blockType_represents (table : TypeTable) (type : FuncType) (use : Option Nat) :
    (table.blockType type use).1.Represents (table.blockType type use).2 type use := by
  cases use with
  | some i =>
      refine ⟨fun j hj => ?_, by simp, by simp, by simp⟩
      rw [← Option.some.inj (Option.mem_def.1 hj)]
      rfl
  | none =>
      -- the two short forms, and what has to be registered
      obtain ⟨_ | ⟨param, params⟩, _ | ⟨result, _ | ⟨result', results⟩⟩⟩ := type
      · constructor <;> simp [blockType]
      · constructor <;> simp [blockType]
      all_goals
        constructor
        · simp
        · simp [blockType]
        · simp [blockType]
        · exact fun _ _ => ⟨_, rfl, getElem?_intern (List.prefix_refl _)⟩

theorem prefix_blockType (table : TypeTable) (type : FuncType) (use : Option Nat) :
    table.entries <+: (table.blockType type use).2.entries := by
  unfold blockType
  split
  · exact List.prefix_refl _
  · exact List.prefix_refl _
  · exact List.prefix_refl _
  · exact table.prefix_intern type

/-- **The bytes of a block type say what it is.** They decode in one way
only, whatever follows them: as the index of the type use, if there is one;
else as the empty type or the one result, exactly if that is all of the
signature; else as an index at which the table holds the signature from now
on. An index never starts like the other two, and the table keeps all the
entries it has. -/
theorem blockType_decodes (table : TypeTable) (type : FuncType) (use : Option Nat) :
    (∃ b, BlockType.Represents (table.blockType type use).2 type use b ∧
      ∀ rest other rest',
        BlockType.Decodes ((table.blockType type use).1.encode ++ rest) other rest' ↔
          other = b ∧ rest' = rest) ∧
    (∀ i first rest, (BlockType.index i).encode = first :: rest →
      first ≠ 0x40 ∧ ∀ value : ValType, first ≠ value.byte) ∧
    ∀ i < table.count, (table.blockType type use).2.at? i = table.at? i := by
  refine ⟨⟨_, table.blockType_represents type use, fun rest other rest' => ⟨fun h => ?_, ?_⟩⟩,
    fun i first rest h => ?_, fun i hi => ?_⟩
  · exact (BlockType.decodes_encode _ rest).unique h
  · rintro ⟨rfl, rfl⟩
    exact BlockType.decodes_encode _ rest'
  · obtain ⟨b, bytes, hsigned, hbit⟩ := Leb128.head_signed_natCast i
    obtain ⟨rfl, -⟩ := List.cons.inj (hsigned.symm.trans h)
    constructor
    · rintro rfl
      exact absurd hbit (by decide)
    · rintro value rfl
      have := value.toNat_byte
      omega
  · exact getElem?_of_isPrefix (table.prefix_blockType type use) hi

end TypeTable

end WasmText
