import SpaceVerifier.Metatheory.DecoderAgreement
import SpaceVerifier.Verifier.Snapshot

/-!
# `make_fixture` against `ImageReader.read`

The encoder sets single bits; as a memory its image is a sequence of field
writes, the ones of the runtime's codec. The reader finds in every slot what
was written there, because the slots are disjoint.
-/

namespace SpaceVerifier.Verifier

open Foundation SpaceVerifier.Runtime

/-! ## `write_bits` -/

theorem imageMem_set {data : List Byte} {i : Nat} (hi : i < data.length) (v : Byte) :
    imageMem (data.set i v) = (imageMem data).store i v := by
  funext j
  unfold imageMem Mem.store
  rw [List.getD_eq_getElem?_getD, List.getElem?_set]
  by_cases hj : i = j
  · subst hj
    simp [hi]
  · rw [if_neg hj, if_neg (Ne.symm hj)]
    exact List.getD_eq_getElem?_getD.symm

theorem length_writeBitsLoop (off w v : Nat) (k i : Nat) (data : List Byte) :
    (writeBitsLoop off w v k i data).length = data.length := by
  induction k generalizing i data with
  | zero => rfl
  | succ k ih =>
      rw [writeBitsLoop]
      simp only
      split
      · rfl
      · rw [ih, List.length_set]

@[simp] theorem length_writeBits (data : List Byte) (off w v : Nat) :
    (writeBits data off w v).length = data.length := by
  unfold writeBits
  split
  · rfl
  · exact length_writeBitsLoop off w v w 0 data

/-- The memory after the last `k` bits of the field are written. -/
theorem imageMem_writeBitsLoop {off w v k i : Nat} (hk : i + k = w) {data : List Byte}
    (hfit : off + w ≤ 8 * data.length) :
    imageMem (writeBitsLoop off w v k i data) = Mem.ofBits fun p =>
      if off + i ≤ p ∧ p < off + w then v.testBit (w - 1 - (p - off))
      else (imageMem data).bit p := by
  induction k generalizing i data with
  | zero =>
      apply Mem.ext_bit
      intro p
      rw [Mem.bit_ofBits, if_neg (by omega)]
      rfl
  | succ k ih =>
      have hin : (off + i) / 8 < data.length := by omega
      have hset : imageMem (data.set ((off + i) / 8)
          (if (v >>> (w - 1 - i)) &&& 1 ≠ 0 then
            data.getD ((off + i) / 8) 0 ||| (1 : Byte) <<< (7 - (off + i) % 8)
          else data.getD ((off + i) / 8) 0 &&& ~~~((1 : Byte) <<< (7 - (off + i) % 8)))) =
          (imageMem data).setBit (off + i) (v.testBit (w - 1 - i)) := by
        rw [imageMem_set hin, ← decide_shiftRight_and_one]
        unfold Mem.setBit
        simp only [decide_eq_true_eq]
        rfl
      rw [writeBitsLoop]
      simp only
      rw [if_neg (by omega), ih (by omega) (by rwa [List.length_set]), hset]
      apply Mem.ext_bit
      intro p
      rw [Mem.bit_ofBits, Mem.bit_ofBits, Mem.bit_setBit]
      by_cases hp : p = off + i
      · subst hp
        rw [if_neg (by omega), if_pos rfl, if_pos (by omega),
          show off + i - off = i by omega]
      · rw [if_neg hp]
        congr 1
        exact propext (by omega)

/-- `write_bits` inside the data writes one field. -/
theorem imageMem_writeBits {data : List Byte} {off w : Nat} (v : Nat)
    (hfit : off + w ≤ 8 * data.length) :
    imageMem (writeBits data off w v) = (imageMem data).writeField off w v := by
  unfold writeBits
  split
  · next hw =>
      apply Mem.ext_bit
      intro p
      rw [Mem.bit_writeField_of_notMem _ (by omega)]
  · rw [imageMem_writeBitsLoop (by omega) hfit]
    rfl

/-! ## `make_fixture` -/

/-- The instruction of a triple. -/
def instOf (t : Nat × Nat × Nat) : VmInst := { n := t.1, dst := t.2.1, src := t.2.2 }

/-- A slot inside the space is written with three fields, field by field. -/
theorem fixtureSlots_cons {a S slotIdx : Nat} {data : List Byte} (hS : data.length = S)
    (hfit : slotIdx * (3 * a) + 3 * a ≤ 8 * S) (t : Nat × Nat × Nat)
    (rest : List (Nat × Nat × Nat)) :
    ∃ data', fixtureSlots (3 * a) S slotIdx (t :: rest) data =
        fixtureSlots (3 * a) S (slotIdx + 1) rest data' ∧
      data'.length = S ∧
      imageMem data' = writeInst (imageMem data) (slotIdx * (3 * a)) a (instOf t) := by
  obtain ⟨n, dst, src⟩ := t
  rw [fixtureSlots]
  simp only
  rw [if_neg (by omega), show 3 * a / 3 = a by omega, Nat.zero_mul, Nat.add_zero, Nat.one_mul]
  refine ⟨_, rfl, by simp only [length_writeBits, hS], ?_⟩
  rw [imageMem_writeBits src (by simp only [length_writeBits]; omega),
    imageMem_writeBits dst (by simp only [length_writeBits]; omega),
    imageMem_writeBits n (by omega)]
  rfl

/-- The slots from `slotIdx` on hold their triples, everything else is kept. -/
theorem fixtureSlots_spec {a S slotIdx : Nat} {instrs : List (Nat × Nat × Nat)}
    {data : List Byte} (hS : data.length = S)
    (hfit : (slotIdx + instrs.length) * (3 * a) ≤ 8 * S) :
    (fixtureSlots (3 * a) S slotIdx instrs data).length = S ∧
      (∀ i t, instrs[i]? = some t →
        instAt (imageMem (fixtureSlots (3 * a) S slotIdx instrs data)).bit
          ((slotIdx + i) * (3 * a)) a = (instOf t).truncate a) ∧
      ∀ p, p < slotIdx * (3 * a) ∨ (slotIdx + instrs.length) * (3 * a) ≤ p →
        (imageMem (fixtureSlots (3 * a) S slotIdx instrs data)).bit p =
          (imageMem data).bit p := by
  induction instrs generalizing slotIdx data with
  | nil => exact ⟨hS, fun i t h => by simp at h, fun p _ => rfl⟩
  | cons t rest ih =>
      have hnext : (slotIdx + 1 + rest.length) * (3 * a) =
          (slotIdx + (t :: rest).length) * (3 * a) := by
        rw [List.length_cons]
        congr 1
        omega
      have hslot : (slotIdx + 1) * (3 * a) = slotIdx * (3 * a) + 3 * a := Nat.succ_mul _ _
      have hle : (slotIdx + 1) * (3 * a) ≤ (slotIdx + (t :: rest).length) * (3 * a) :=
        Nat.mul_le_mul_right _ (by rw [List.length_cons]; omega)
      obtain ⟨data', heq, hlen, hmem⟩ :=
        @fixtureSlots_cons a S slotIdx data hS (by omega) t rest
      obtain ⟨hlen', hread, hframe⟩ := @ih (slotIdx + 1) data' hlen (by omega)
      rw [heq]
      refine ⟨hlen', ?_, ?_⟩
      · intro i t' ht'
        cases i with
        | zero =>
            -- the later slots lie behind this one
            obtain rfl : t = t' := by simpa using ht'
            rw [Nat.add_zero, ← instAt_writeInst_truncate (imageMem data), ← hmem]
            apply instAt_congr
            intro p _ hp
            rw [Nat.add_zero] at hp
            exact hframe p (Or.inl (by omega))
        | succ i =>
            rw [show slotIdx + (i + 1) = slotIdx + 1 + i by omega]
            exact hread i t' (by simpa using ht')
      · intro p hp
        rw [hframe p (by omega), hmem, bit_writeInst_of_notMem]
        omega

/-! ## The round trip -/

/-- **What `make_fixture` writes, `ImageReader.read` reads.** For every width up
to 64, byte-aligned or not, and every list of at most `processor_n` triples, slot
`i` holds the `i`-th triple modulo `2^addr_bits` and the remaining slots and
bits are zero. -/
theorem read_makeFixture {cfg : Config} {S P a : Nat} (hS : cfg.spaceBytes = .int S)
    (hP : cfg.processorN = .int P) (ha : cfg.addrBits = .int a) (ha1 : 1 ≤ a)
    (ha64 : a ≤ 64) (hfit : P * (3 * a) ≤ 8 * S) {instrs : List (Nat × Nat × Nat)}
    (hlen : instrs.length ≤ P) :
    cfg.instrBits = .ok ((3 * a : ℕ) : Int) ∧
      ∃ out : List Instruction, read cfg (makeFixture instrs (3 * a) S) = .ok out ∧ out.length = P ∧
        (∀ i n dst src : Nat, instrs[i]? = some (n, dst, src) → out[i]? =
          some { slot := i, n := n % 2 ^ a, dst := dst % 2 ^ a, src := src % 2 ^ a }) ∧
        (∀ i, instrs.length ≤ i → i < P →
          out[i]? = some { slot := i, n := 0, dst := 0, src := 0 }) ∧
        ∀ p, (∀ i < instrs.length, p ∉ Set.Ico (i * (3 * a)) (i * (3 * a) + 3 * a)) →
          (imageMem (makeFixture instrs (3 * a) S)).bit p = false := by
  have hle : instrs.length * (3 * a) ≤ P * (3 * a) := Nat.mul_le_mul_right _ hlen
  obtain ⟨hsize, hread, hframe⟩ := @fixtureSlots_spec a S 0 instrs
    (List.replicate S 0) List.length_replicate (by rw [Nat.zero_add]; omega)
  rw [Nat.zero_add] at hframe
  have hblank : ∀ p, (imageMem (List.replicate S (0 : Byte))).bit p = false := by
    intro p
    simp [Mem.bit, imageMem]
  have hzero : ∀ p, instrs.length * (3 * a) ≤ p →
      (imageMem (makeFixture instrs (3 * a) S)).bit p = false := fun p hp =>
    (hframe p (Or.inr hp)).trans (hblank p)
  refine ⟨?_, _, read_eq hS hP ha (by omega) ha64 hsize.ge
    (by rw [makeFixture, hsize]; exact hfit),
    by simp [program], ?_, ?_, ?_⟩
  · unfold Config.instrBits
    rw [ha]
    rfl
  · intro i n dst src hi
    have hiP : i < P := (List.getElem?_eq_some_iff.mp hi).1.trans_le hlen
    have hslot := hread i (n, dst, src) hi
    rw [Nat.zero_add] at hslot
    simp only [program, List.getElem?_map, List.getElem?_range hiP, Option.map_some]
    rw [makeFixture, hslot]
    rfl
  · intro i hi hiP
    -- behind the list the space has kept its zeros
    simp only [program, List.getElem?_map, List.getElem?_range hiP, Option.map_some]
    rw [instAt_eq_zero fun p hp _ => hzero p ((Nat.mul_le_mul_right _ hi).trans hp)]
    rfl
  · intro p hp
    apply hzero
    by_contra hlt
    have hslot : p / (3 * a) < instrs.length := by
      rw [Nat.div_lt_iff_lt_mul (by omega)]
      omega
    apply hp _ hslot
    have hmod := Nat.div_add_mod' p (3 * a)
    have hlt := Nat.mod_lt p (show 0 < 3 * a by omega)
    exact Set.mem_Ico.mpr ⟨by omega, by omega⟩

/-- Two slots of three 12-bit fields in sixteen bytes. -/
def fixtureConfig : Config :=
  { Config.default with spaceBytes := .int 16, processorN := .int 2, addrBits := .int 12 }

theorem read_makeFixture_unaligned :
    fixtureConfig.instrBits = .ok ((3 * 12 : ℕ) : Int) ∧ ∃ out : List Instruction,
      read fixtureConfig (makeFixture [(5, 100, 5000)] (3 * 12) 16) = .ok out ∧
        out[0]? = some { slot := 0, n := 5, dst := 100, src := 904 } ∧
        out[1]? = some { slot := 1, n := 0, dst := 0, src := 0 } := by
  obtain ⟨hinstr, out, hout, -, hwritten, hblank, -⟩ :=
    @read_makeFixture fixtureConfig 16 2 12 rfl rfl rfl (by decide) (by decide) (by decide)
      [(5, 100, 5000)] (by decide)
  exact ⟨hinstr, out, hout, hwritten 0 5 100 5000 rfl, hblank 1 (by decide) (by decide)⟩

end SpaceVerifier.Verifier
