import SpaceVerifier.Metatheory.DecoderAgreement

/-!
# The two bit readers of `image_reader.py`

`_read_bits_slow` is the field of the image with absent bytes read as zero.
`_read_bits` computes its shift from the number of bytes it asks for; a slice
that ends with the image has fewer, and then every bit is taken from that many
bytes too early.
-/

namespace SpaceVerifier.Verifier

open Foundation SpaceVerifier.Runtime

/-! ## The slow reader -/

theorem shiftRight_and_one_toNat (b : Byte) {k : Nat} (hk : k < 8) :
    (b.toNat >>> (7 - k)) &&& 1 = (b.getMsbD k).toNat := by
  have hbit : b.getMsbD k = b.toNat.testBit (7 - k) := by
    simp [BitVec.getMsbD_eq_getLsbD, hk, BitVec.testBit_toNat]
  rw [hbit, Nat.toNat_testBit, Nat.and_one_is_mod, Nat.shiftRight_eq_div_pow]

/-- Bit by bit: the field of the image, zeros behind its end. -/
theorem readBitsSlow_eq (data : List Byte) (start w : Nat) :
    readBitsSlow data start w = uintAt (imageMem data).bit start w := by
  induction w with
  | zero => rfl
  | succ w ih =>
      have hmod : (start + w) % 8 < 8 := Nat.mod_lt _ (by decide)
      have hbit : (imageMem data).bit (start + w) =
          (data[(start + w) / 8]?.getD 0).getMsbD ((start + w) % 8) := by
        rw [← List.getD_eq_getElem?_getD]
        rfl
      rw [readBitsSlow, uintAt, ih, hbit]
      cases data[(start + w) / 8]? with
      | some byte =>
          show (uintAt _ _ _ <<< 1) ||| ((byte.toNat >>> _) &&& 1) = _
          rw [shiftRight_and_one_toNat byte hmod, shiftLeft_or_toNat]
          rfl
      | none =>
          show uintAt _ _ _ <<< 1 = 2 * _ + ((0 : Byte).getMsbD _).toNat
          rw [Nat.shiftLeft_eq, pow_one, Nat.mul_comm]
          simp

/-! ## The fast reader -/

/-- The number of bytes that hold a bit of the field. -/
def sliceBytes (start w : Nat) : Nat := (start + w - 1) / 8 - start / 8 + 1

/-- How many of them lie behind the end of the data. -/
def missingBytes (data : List Byte) (start w : Nat) : Nat :=
  sliceBytes start w - (data.length - start / 8)

/-- The image as the fast reader takes it: `d` bytes too early, and nothing in
front of byte `first`. -/
def earlyBit (data : List Byte) (first d p : Nat) : Bool :=
  decide (8 * first + 8 * d ≤ p) && (imageMem data).bit (p - 8 * d)

/-- Slice, shift and mask: the field, every bit from `missingBytes` too early. -/
theorem readBits_eq_early (data : List Byte) (start : Nat) {w : Nat} (hw0 : 1 ≤ w)
    (hw : w ≤ 64) :
    readBits data start w =
      uintAt (earlyBit data (start / 8) (missingBytes data start w)) start w := by
  have hcover : start % 8 + w ≤ 8 * sliceBytes start w := by
    unfold sliceBytes
    omega
  unfold readBits missingBytes
  rw [if_neg (by omega), if_neg (by omega)]
  dsimp only [Int.toNat_natCast]
  rw [show (start + w - 1) / 8 - start / 8 + 1 = sliceBytes start w from rfl,
    slice_eq_bytesAt, fromBytesBE_bytesAt]
  generalize hn : sliceBytes start w = n at hcover ⊢
  generalize hshift : 8 * n - start % 8 - w = shift
  generalize hc : min n (data.length - start / 8) = c
  have hshr : ∀ x : Nat, (if shift > 0 then x >>> shift else x) = x >>> shift := by
    intro x
    split
    · rfl
    · rw [show shift = 0 by omega, Nat.shiftRight_zero]
  rw [hshr, Nat.one_shiftLeft]
  apply eq_uintAt
  · rw [Nat.and_two_pow_sub_one_eq_mod]
    exact Nat.mod_lt _ (Nat.two_pow_pos w)
  · intro i hi
    rw [Nat.testBit_and, Nat.testBit_two_pow_sub_one, Nat.testBit_shiftRight, testBit_uintAt,
      decide_eq_true (show w - 1 - i < w by omega), Bool.and_true]
    unfold earlyBit
    -- the slice has `c` bytes and misses `n - c`
    by_cases hin : 8 * (start / 8) + 8 * (n - (data.length - start / 8)) ≤ start + i
    · rw [decide_eq_true hin, decide_eq_true (by omega), Bool.true_and, Bool.true_and]
      congr 1
      omega
    · rw [decide_eq_false hin, decide_eq_false (by omega), Bool.false_and, Bool.false_and]

/-! ## When the two agree -/

/-- Every bit of the field is the one `d` bytes before it: an absent bit counts
as zero, and so does a bit in front of the field's first byte. -/
def Echoes (data : List Byte) (start w d : Nat) : Prop :=
  ∀ i < w, (imageMem data).bit (start + i) = earlyBit data (start / 8) d (start + i)

/-- All bytes of the field are there, or none is, or the ones that are there
repeat at the distance of the missing ones. -/
def SliceSuffices (data : List Byte) (start w : Nat) : Prop :=
  (start + w - 1) / 8 < data.length ∨ data.length ≤ start / 8 ∨
    Echoes data start w (missingBytes data start w)

instance (data : List Byte) (start w d : Nat) : Decidable (Echoes data start w d) :=
  inferInstanceAs (Decidable (∀ i < w, _))

instance (data : List Byte) (start w : Nat) : Decidable (SliceSuffices data start w) :=
  inferInstanceAs (Decidable (_ ∨ _ ∨ _))

theorem echoes_of_present {data : List Byte} {start w : Nat} (hw0 : 1 ≤ w)
    (h : (start + w - 1) / 8 < data.length) :
    Echoes data start w (missingBytes data start w) := by
  intro i hi
  have hnone : missingBytes data start w = 0 := by
    unfold missingBytes sliceBytes
    omega
  unfold earlyBit
  rw [hnone, decide_eq_true (by omega), Bool.true_and, Nat.mul_zero, Nat.sub_zero]

theorem bit_imageMem_of_ge {data : List Byte} {p : Nat} (h : 8 * data.length ≤ p) :
    (imageMem data).bit p = false := by
  unfold Mem.bit imageMem
  rw [List.getD_eq_default _ _ (by omega)]
  simp

theorem echoes_of_absent {data : List Byte} {start w : Nat}
    (h : data.length ≤ start / 8) : Echoes data start w (missingBytes data start w) := by
  intro i hi
  unfold earlyBit
  rw [bit_imageMem_of_ge (by omega)]
  by_cases hin : 8 * (start / 8) + 8 * missingBytes data start w ≤ start + i
  · rw [bit_imageMem_of_ge (by omega), Bool.and_false]
  · rw [decide_eq_false hin, Bool.false_and]

/-- **Exactly when the fast reader agrees with the bit-by-bit one.** -/
theorem readBits_eq_slow_iff (data : List Byte) (start : Nat) {w : Nat} (hw0 : 1 ≤ w)
    (hw : w ≤ 64) :
    readBits data start w = readBitsSlow data start w ↔ SliceSuffices data start w := by
  have hechoes : readBits data start w = readBitsSlow data start w ↔
      Echoes data start w (missingBytes data start w) := by
    rw [readBits_eq_early data start hw0 hw, readBitsSlow_eq, uintAt_inj]
    constructor
    · exact fun h i hi => (h i hi).symm
    · exact fun h i hi => (h i hi).symm
  rw [hechoes]
  constructor
  · exact fun h => Or.inr (Or.inr h)
  · rintro (h | h | h)
    · exact echoes_of_present hw0 h
    · exact echoes_of_absent h
    · exact h

/-- For a field that begins with a byte, repeating means that no bit is set. -/
theorem echoes_aligned_iff {data : List Byte} {start w d : Nat} (hstart : start % 8 = 0)
    (hd : 0 < d) :
    Echoes data start w d ↔ ∀ i < w, (imageMem data).bit (start + i) = false := by
  constructor
  · intro h i
    induction i using Nat.strongRecOn with
    | ind i ih =>
        intro hi
        rw [h i hi, earlyBit]
        by_cases hin : 8 * (start / 8) + 8 * d ≤ start + i
        · rw [show start + i - 8 * d = start + (i - 8 * d) by omega,
            ih (i - 8 * d) (by omega) (by omega), Bool.and_false]
        · rw [decide_eq_false hin, Bool.false_and]
  · intro h i hi
    rw [h i hi, earlyBit]
    by_cases hin : 8 * (start / 8) + 8 * d ≤ start + i
    · rw [show start + i - 8 * d = start + (i - 8 * d) by omega,
        h (i - 8 * d) (by omega), Bool.and_false]
    · rw [decide_eq_false hin, Bool.false_and]

/-- Ten bits from bit 7 of two bytes, the third byte missing: the two repeat. -/
theorem readBits_eq_slow_iff_repeat :
    readBits [0x2A, 0x2A] 7 10 = readBitsSlow [0x2A, 0x2A] 7 10 :=
  (readBits_eq_slow_iff _ _ (by decide) (by decide)).mpr (by decide)

/-- A 12-bit field that begins with the last byte of the image, as the `src` of
a slot of 36 bits does in a space of 32. -/
theorem readBits_ne_slow :
    readBits [0x00, 0x00, 0x00, 0xFF] 24 12 ≠ readBitsSlow [0x00, 0x00, 0x00, 0xFF] 24 12 := by
  decide

end SpaceVerifier.Verifier
