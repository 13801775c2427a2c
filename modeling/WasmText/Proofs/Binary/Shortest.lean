import WasmText.Proofs.Binary.Leb128
/-!
# Numbers in as few bytes as possible

A group of `k` bytes has room for `7 * k` bits, so its value lies below
`2 ^ (7 * k)`, or between the two ends of that many bits in two's
complement. A number that is written in more bytes than a group has lies
outside, so nothing shorter reads as the same number (`canonical_unsigned`,
`canonical_signed`). For words this bounds the number of bytes
(`words_canonical`).
-/

namespace WasmText

namespace Leb128

/-! ## Groups -/

/-- Whether each byte but the last has its high bit set, and the last has
not. -/
def IsGroup (bytes : List UInt8) : Prop :=
  ∃ first last, bytes = first ++ [last] ∧ (∀ b ∈ first, b.toNat.testBit 7 = true) ∧
    last.toNat.testBit 7 = false

theorem lt_iff_testBit {b : UInt8} : b < 0x80 ↔ b.toNat.testBit 7 = false := by
  have hlt := b.toNat_lt
  rw [UInt8.lt_iff_toNat_lt, Nat.testBit_eq_decide_div_mod_eq, decide_eq_false_iff_not]
  change b.toNat < 128 ↔ _
  omega

theorem IsGroup.ne_nil {bytes : List UInt8} (h : IsGroup bytes) : bytes ≠ [] := by
  obtain ⟨first, last, rfl, -⟩ := h
  simp

theorem IsGroup.cons {b : UInt8} {bytes : List UInt8} (hb : ¬ b < 0x80) (h : IsGroup bytes) :
    IsGroup (b :: bytes) := by
  obtain ⟨first, last, rfl, hfirst, hlast⟩ := h
  refine ⟨b :: first, last, rfl, ?_, hlast⟩
  rw [List.forall_mem_cons]
  exact ⟨Bool.not_eq_false _ ▸ mt lt_iff_testBit.2 hb, hfirst⟩

/-- **What is split off is a group**, and nothing is lost. -/
theorem isGroup_of_split? {bytes group rest : List UInt8} (h : split? bytes = some (group, rest)) :
    IsGroup group ∧ bytes = group ++ rest := by
  induction bytes generalizing group with
  | nil => cases h
  | cons b bytes ih =>
      rw [split?] at h
      split at h
      · next hb =>
        cases h
        exact ⟨⟨[], b, rfl, List.forall_mem_nil _, lt_iff_testBit.1 hb⟩, rfl⟩
      · next hb =>
        obtain ⟨⟨group, rest⟩, hsplit, hpair⟩ := Option.map_eq_some_iff.1 h
        cases hpair
        obtain ⟨hgroup, rfl⟩ := ih hsplit
        exact ⟨hgroup.cons hb, rfl⟩

theorem isGroup_of_split?_append {bytes group rest : List UInt8}
    (h : split? (bytes ++ rest) = some (group, rest)) : IsGroup bytes ∧ group = bytes := by
  obtain ⟨hgroup, happend⟩ := isGroup_of_split? h
  obtain rfl := List.append_cancel_right happend
  exact ⟨hgroup, rfl⟩

/-! ## The values that a group has room for -/

theorem two_pow_succ_group (k : Nat) : 2 ^ (7 * (k + 1)) = 128 * 2 ^ (7 * k) := by
  rw [Nat.mul_succ, Nat.pow_add, Nat.mul_comm]

theorem unsignedValue_lt (bytes : List UInt8) :
    unsignedValue bytes < 2 ^ (7 * bytes.length) := by
  induction bytes with
  | nil => exact Nat.one_pos
  | cons b bytes ih =>
      rw [unsignedValue, List.length_cons, two_pow_succ_group]
      omega

/-- The sign takes one of the bits. -/
theorem signedValue_bounds {bytes : List UInt8} (h : bytes ≠ []) :
    -2 ^ (7 * bytes.length - 1) ≤ signedValue bytes ∧
      signedValue bytes < 2 ^ (7 * bytes.length - 1) := by
  induction bytes with
  | nil => exact absurd rfl h
  | cons b bytes ih =>
      cases bytes with
      | nil =>
          rw [signedValue, List.length_singleton]
          split <;> omega
      | cons c bytes =>
          have hpow : (2 : Int) ^ (7 * (c :: bytes).length + 6) =
              128 * 2 ^ (7 * (c :: bytes).length - 1) := by
            rw [List.length_cons, show 7 * (bytes.length + 1) + 6 =
              (7 * (bytes.length + 1) - 1) + 7 by omega, pow_add, mul_comm]
            norm_num
          obtain ⟨hlow, hhigh⟩ := ih (List.cons_ne_nil c bytes)
          rw [signedValue_cons b (List.cons_ne_nil c bytes), List.length_cons (a := b),
            show 7 * ((c :: bytes).length + 1) - 1 = 7 * (c :: bytes).length + 6 by omega, hpow]
          omega

/-! ## Canonical bytes -/

/-- What bytes promise that are written for a number: they are one group,
they are read back before anything else, and no shorter bytes are read as
the same number. -/
structure Canonical {α : Type} (read : List UInt8 → Option (α × List UInt8)) (a : α)
    (bytes : List UInt8) : Prop where
  group : IsGroup bytes
  reads : ∀ rest, read (bytes ++ rest) = some (a, rest)
  shortest : ∀ other rest, read (other ++ rest) = some (a, rest) → bytes.length ≤ other.length

/-- What is read from bytes is the value of their group. -/
theorem value_of_readUnsigned {bytes rest : List UInt8} {n : Nat}
    (h : readUnsigned none (bytes ++ rest) = some (n, rest)) :
    bytes ≠ [] ∧ unsignedValue bytes = n := by
  unfold readUnsigned at h
  split at h
  · next group rest' hsplit =>
    rw [Option.ite_none_right_eq_some] at h
    obtain ⟨rfl, rfl⟩ := Prod.mk.inj (Option.some.inj h.2)
    obtain ⟨hgroup, rfl⟩ := isGroup_of_split?_append hsplit
    exact ⟨hgroup.ne_nil, rfl⟩
  · cases h

theorem value_of_readSigned {bytes rest : List UInt8} {v : Int}
    (h : readSigned none (bytes ++ rest) = some (v, rest)) :
    bytes ≠ [] ∧ signedValue bytes = v := by
  unfold readSigned at h
  split at h
  · next group rest' hsplit =>
    rw [Option.ite_none_right_eq_some] at h
    obtain ⟨rfl, rfl⟩ := Prod.mk.inj (Option.some.inj h.2)
    obtain ⟨hgroup, rfl⟩ := isGroup_of_split?_append hsplit
    exact ⟨hgroup.ne_nil, rfl⟩
  · cases h

/-- **Nothing shorter reads as the same natural number.** -/
theorem canonical_unsigned (n : Nat) : Canonical (readUnsigned none) n (unsigned n) where
  group := (isGroup_of_split? (split?_unsigned n [])).1
  reads := readUnsigned_unsigned (by simp) (by simp [Holds])
  shortest other rest h := by
    obtain ⟨hne, rfl⟩ := value_of_readUnsigned h
    have hpos := List.length_pos_iff.2 hne
    have := length_unsigned_lt (by omega) (unsignedValue_lt other)
    omega

/-- **Nothing shorter reads as the same integer.** -/
theorem canonical_signed (v : Int) : Canonical (readSigned none) v (signed v) where
  group := (isGroup_of_split? (split?_signed v [])).1
  reads := readSigned_signed (by simp) (by simp [HoldsSigned])
  shortest other rest h := by
    obtain ⟨hne, rfl⟩ := value_of_readSigned h
    have hpos := List.length_pos_iff.2 hne
    have := length_signed_lt _ (by omega) (signedValue_bounds hne)
    omega

/-! ## Words -/

/-- **Words are written canonically.** Unsigned words of 32 bits and signed
ones of 32, 64 and 128 bits each become one group that reads back before
any other bytes, and nothing shorter reads as the same number. They take at
most 5, 5, 10 and 19 bytes, and a word of 32 bits has the bytes of the
same number as a word of 64. -/
theorem words_canonical :
    (∀ n : UInt32, Canonical (readUnsigned none) n.toNat (unsigned n.toNat) ∧
      (unsigned n.toNat).length ≤ 5) ∧
    (∀ v : Int32, Canonical (readSigned none) v.toInt (signed v.toInt) ∧
      (signed v.toInt).length ≤ 5 ∧ signed v.toInt = signed v.toInt64.toInt) ∧
    (∀ v : Int64, Canonical (readSigned none) v.toInt (signed v.toInt) ∧
      (signed v.toInt).length ≤ 10) ∧
    ∀ v : BitVec 128, Canonical (readSigned none) v.toInt (signed v.toInt) ∧
      (signed v.toInt).length ≤ 19 := by
  refine ⟨fun n => ⟨canonical_unsigned _, ?_⟩, fun v => ⟨canonical_signed _, ?_, ?_⟩,
    fun v => ⟨canonical_signed _, ?_⟩, fun v => ⟨canonical_signed _, ?_⟩⟩
  · have := length_unsigned_lt (by omega) n.toNat_lt
    omega
  · have := length_signed_lt v.toInt (w := 32) (by omega) ⟨v.le_toInt, v.toInt_lt⟩
    omega
  · rw [Int32.toInt_toInt64]
  · have := length_signed_lt v.toInt (w := 64) (by omega) ⟨v.le_toInt, v.toInt_lt⟩
    omega
  · have := length_signed_lt v.toInt (w := 128) (by omega) ⟨v.le_toInt, v.toInt_lt⟩
    omega

end Leb128

end WasmText
