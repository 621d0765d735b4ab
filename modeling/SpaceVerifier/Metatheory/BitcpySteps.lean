import SpaceVerifier.Runtime.Bitcpy
import SpaceVerifier.Foundation.RangeCopy

/-!
# The steps of `bitcpy`, read as copies of bit ranges

Every step of the byte-granular paths is one `copyRange` on the bit string of
the memory; the two 64-bit rounds only stay inside their destination word.
`Progress` is what all steps share: the cursor moves up and nothing outside the
destination is written.
-/

namespace SpaceVerifier.Runtime

open Foundation Foundation.Traced

/-! ## Single bits and the fallback -/

theorem bitGetPtr_val (m : Mem) (p bitpos : Nat) :
    (bitGetPtr m p bitpos).val = m.bit (8 * p + bitpos) := by
  have hmod : bitpos % 8 < 8 := Nat.mod_lt _ (by decide)
  have hbit := m.bit_of_byte (p + bitpos / 8) hmod
  rw [show 8 * (p + bitpos / 8) + bitpos % 8 = 8 * p + bitpos by omega] at hbit
  rw [hbit]
  exact shift_and_one_ne_zero _ hmod

theorem bitSetPtr_val (m : Mem) (p bitpos : Nat) (v : Bool) :
    (bitSetPtr m p bitpos v).val = m.setBit (8 * p + bitpos) v := by
  unfold Mem.setBit
  rw [show (8 * p + bitpos) / 8 = p + bitpos / 8 by omega,
    show (8 * p + bitpos) % 8 = bitpos % 8 by omega]
  rfl

/-- Setting a bit to another bit of the memory is a copy of length one. -/
theorem setBit_bit (m : Mem) (d s : Nat) :
    (m.setBit d (m.bit s)).bit = copyRange ⟨1, d, s⟩ m.bit := by
  funext p
  rw [Mem.bit_setBit]
  simp only [copyRange, Move.covers, decide_eq_true_eq]
  by_cases hp : p = d
  · rw [if_pos hp, if_pos (by omega), show s + (p - d) = s by omega]
  · rw [if_neg hp, if_neg (by omega)]

section Fallback

variable {m : Mem} {n src srcBit dst dstBit : Nat} (hd : dstBit + n ≤ 2 ^ 64)
include hd

theorem fallback_frame {p : Nat}
    (hp : p ∉ Set.Ico (8 * dst + dstBit) (8 * dst + dstBit + n)) :
    (bitcpyOverlapFallback m n src srcBit dst dstBit).val.bit p = m.bit p := by
  have hstep : ∀ i < n, ∀ m' : Mem, m'.bit p = m.bit p →
      (do let v ← bitGetPtr m' src (add64 srcBit i)
          bitSetPtr m' dst (add64 dstBit i) v).val.bit p = m.bit p := by
    intro i hi m' hm'
    have hne : ¬ p = 8 * dst + (dstBit + i) := by
      rintro rfl
      exact hp (Set.mem_Ico.mpr ⟨by omega, by omega⟩)
    rw [val_bind, bitSetPtr_val, Mem.bit_setBit, add64_of_lt (by omega),
      if_neg hne, hm']
  unfold bitcpyOverlapFallback
  simp only
  split
  · exact forUp_inv (fun _ (m' : Mem) => m'.bit p = m.bit p) rfl hstep
  · exact forDown_inv (fun _ (m' : Mem) => m'.bit p = m.bit p) rfl hstep

/-- One iteration is a copy of one bit. -/
theorem fallback_step (hs : srcBit + n ≤ 2 ^ 64) {i : Nat} (hi : i < n) (m' : Mem) :
    (do let v ← bitGetPtr m' src (add64 srcBit i)
        bitSetPtr m' dst (add64 dstBit i) v).val.bit =
      copyRange ⟨1, 8 * dst + dstBit + i, 8 * src + srcBit + i⟩ m'.bit := by
  rw [val_bind, bitGetPtr_val, bitSetPtr_val, add64_of_lt (by omega),
    add64_of_lt (by omega), setBit_bit, Nat.add_assoc, Nat.add_assoc]

/-- The fallback is exact within one buffer and between disjoint ranges: its
direction keeps every unread source bit. -/
theorem fallback_bits (hs : srcBit + n ≤ 2 ^ 64)
    (h : src = dst ∨ 8 * src + srcBit + n ≤ 8 * dst + dstBit ∨
      8 * dst + dstBit + n ≤ 8 * src + srcBit) :
    (bitcpyOverlapFallback m n src srcBit dst dstBit).val.bit =
      copyRange ⟨n, 8 * dst + dstBit, 8 * src + srcBit⟩ m.bit := by
  unfold bitcpyOverlapFallback
  simp only
  split
  · next hlt =>
      refine forUp_inv (fun i (m' : Mem) => m'.bit =
        copyRange ⟨i, 8 * dst + dstBit, 8 * src + srcBit⟩ m.bit)
        (copyRange_zero _ _ _).symm ?_
      intro i hi m' hm'
      rw [fallback_step hd hs hi, hm', copyRange_append (by omega)]
  · next hge =>
      refine forDown_inv (fun i (m' : Mem) => m'.bit = copyRange ⟨n - i,
        8 * dst + dstBit + i, 8 * src + srcBit + i⟩ m.bit) ?_ ?_
      · rw [Nat.sub_self, copyRange_zero]
      · intro i hi m' hm'
        rw [fallback_step hd hs hi, hm', ← Nat.add_assoc, ← Nat.add_assoc,
          copyRange_prepend (by omega), show n - (i + 1) + 1 = n - i by omega]

end Fallback

/-! ## Masks -/

theorem getMsbD_keepHi {k j : Nat} (hk : k ≤ 8) (hj : j < 8) :
    (keepHi k).getMsbD j = decide (j < k) := by
  have h : ∀ k : Fin 9, ∀ j : Fin 8,
      (keepHi k.val).getMsbD j.val = decide (j.val < k.val) := by
    decide
  exact h ⟨k, by omega⟩ ⟨j, hj⟩

theorem getMsbD_keepLo {k j : Nat} (hk : k ≤ 8) (hj : j < 8) :
    (keepLo k).getMsbD j = decide (k ≤ j) := by
  have h : ∀ k : Fin 9, ∀ j : Fin 8,
      (keepLo k.val).getMsbD j.val = decide (k.val ≤ j.val) := by
    decide
  exact h ⟨k, by omega⟩ ⟨j, hj⟩

/-- The kept part of a head byte that is filled to its end. -/
theorem getMsbD_headMask {k j : Nat} (hk : k ≤ 8) (hj : j < 8) :
    (~~~(keepHi k ||| keepLo (k + (8 - k)))).getMsbD j = decide (k ≤ j) := by
  have h : ∀ k : Fin 9, ∀ j : Fin 8,
      (~~~(keepHi k.val ||| keepLo (k.val + (8 - k.val)))).getMsbD j.val =
        decide (k.val ≤ j.val) := by
    decide
  exact h ⟨k, by omega⟩ ⟨j, hj⟩

/-! ## The values the steps write -/

/-- `value` at `p` spells the eight bits from `q p` on. -/
def Spells (value : Mem → Nat → Traced Nat Byte) (lag : Nat) : Prop :=
  ∀ m p k, k < 8 → (value m p).val.getMsbD k = m.bit (8 * p + lag + k)

theorem spells_load : Spells load 0 := by
  intro m p k hk
  rw [Nat.add_zero, m.bit_of_byte p hk]
  rfl

theorem spells_mergeBytes {left : Nat} (h0 : 0 < left) (h8 : left < 8) :
    Spells (mergeBytes left) left := by
  intro m p k hk
  show ((m p <<< left) ||| (m (p + 1) >>> (8 - left))).getMsbD k = _
  rw [BitVec.getMsbD_or, BitVec.getMsbD_shiftLeft, BitVec.getMsbD_ushiftRight]
  by_cases hin : k + left < 8
  · rw [show 8 * p + left + k = 8 * p + (k + left) by omega, m.bit_of_byte p hin]
    simp [show k < 8 - left by omega]
  · rw [show 8 * p + left + k = 8 * (p + 1) + (k - (8 - left)) by omega,
      m.bit_of_byte (p + 1) (by omega), BitVec.getMsbD_of_ge _ _ (by omega)]
    simp [hk, show ¬ k < 8 - left by omega]

/-! ## Cursors -/

/-- `c` comes after `c₀`: the end of the destination is the same and nothing
outside the destination has changed. -/
structure Progress (c₀ c : Cursor) : Prop where
  le : c.nBits ≤ c₀.nBits
  dst_eq : 8 * c.dst + c.nBits = 8 * c₀.dst + c₀.nBits
  frame : ∀ p, p ∉ Set.Ico (8 * c₀.dst) (8 * c₀.dst + c₀.nBits) →
    c.mem.bit p = c₀.mem.bit p

theorem Progress.refl (c : Cursor) : Progress c c := ⟨le_rfl, rfl, fun _ _ => rfl⟩

theorem Progress.trans {a b c : Cursor} (hab : Progress a b) (hbc : Progress b c) :
    Progress a c := by
  refine ⟨hbc.le.trans hab.le, hbc.dst_eq.trans hab.dst_eq, ?_⟩
  intro p hp
  have hle := hab.le
  have heq := hab.dst_eq
  rw [hbc.frame p ?_, hab.frame p hp]
  intro hin
  rw [Set.mem_Ico] at hin hp
  omega

/-- `c` comes after `c₀` and the bits in between are copied; `lag` is the
offset of the source bit inside the byte `src` points to. -/
structure Copied (lag : Nat) (c₀ c : Cursor) : Prop where
  le : c.nBits ≤ c₀.nBits
  dst_eq : 8 * c.dst + c.nBits = 8 * c₀.dst + c₀.nBits
  src_eq : 8 * c.src + c.nBits = 8 * c₀.src + c₀.nBits
  bits : c.mem.bit = copyRange
    ⟨c₀.nBits - c.nBits, 8 * c₀.dst, 8 * c₀.src + lag⟩ c₀.mem.bit

/-- The source of a cursor does not meet its destination. -/
def Cursor.Apart (lag : Nat) (c : Cursor) : Prop :=
  8 * c.src + lag + c.nBits ≤ 8 * c.dst ∨ 8 * c.dst + c.nBits ≤ 8 * c.src + lag

theorem Copied.refl (lag : Nat) (c : Cursor) : Copied lag c c := by
  refine ⟨le_rfl, rfl, rfl, ?_⟩
  rw [Nat.sub_self, copyRange_zero]

theorem Copied.progress {lag : Nat} {c₀ c : Cursor} (h : Copied lag c₀ c) :
    Progress c₀ c := by
  refine ⟨h.le, h.dst_eq, ?_⟩
  intro p hp
  rw [h.bits]
  refine copyRange_of_notMem _ fun hin => hp ?_
  simp only [Move.dstSpan, Set.mem_Ico] at hin ⊢
  omega

theorem Copied.trans {lag : Nat} {a b c : Cursor} (ha : a.Apart lag)
    (hab : Copied lag a b) (hbc : Copied lag b c) : Copied lag a c := by
  refine ⟨hbc.le.trans hab.le, hbc.dst_eq.trans hab.dst_eq,
    hbc.src_eq.trans hab.src_eq, ?_⟩
  have hle := hab.le
  have hle' := hbc.le
  have hdst := hab.dst_eq
  have hsrc := hab.src_eq
  rw [hbc.bits, hab.bits,
    show 8 * b.dst = 8 * a.dst + (a.nBits - b.nBits) by omega,
    show 8 * b.src + lag = 8 * a.src + lag + (a.nBits - b.nBits) by omega,
    copyRange_append (by unfold Cursor.Apart at ha; omega),
    show a.nBits - b.nBits + (b.nBits - c.nBits) = a.nBits - c.nBits by omega]

/-! ## One byte -/

/-- A whole destination byte. -/
theorem store_bits {value : Mem → Nat → Traced Nat Byte} {lag : Nat}
    (hv : Spells value lag) (m : Mem) (d s : Nat) :
    (m.store d (value m s).val).bit = copyRange ⟨8, 8 * d, 8 * s + lag⟩ m.bit := by
  funext p
  rw [Mem.bit_store]
  simp only [copyRange, Move.covers, decide_eq_true_eq]
  by_cases hp : p / 8 = d
  · rw [if_pos hp, if_pos (by omega), hv m s (p % 8) (Nat.mod_lt _ (by decide)),
      show p - 8 * d = p % 8 by omega]
  · rw [if_neg hp, if_neg (by omega)]

/-- A destination byte of which the positions `[lo, hi)` are replaced by bits
found from `q + lo` on. -/
theorem store_mask_bits {m : Mem} {d q : Nat} (lo hi : Nat) {new mask : Byte} (hhi : hi ≤ 8)
    (hnew : ∀ k, lo ≤ k → k < hi → new.getMsbD k = m.bit (q + k))
    (hmask : ∀ j < 8, mask.getMsbD j = decide (lo ≤ j ∧ j < hi)) :
    (m.store d ((m d &&& ~~~mask) ||| (new &&& mask))).bit =
      copyRange ⟨hi - lo, 8 * d + lo, q + lo⟩ m.bit := by
  funext p
  have hmod : p % 8 < 8 := Nat.mod_lt _ (by decide)
  rw [Mem.bit_store]
  simp only [copyRange, Move.covers, decide_eq_true_eq]
  by_cases hp : p / 8 = d
  · rw [if_pos hp, getMsbD_mergeMask _ _ _ hmod, hmask _ hmod]
    by_cases hin : lo ≤ p % 8 ∧ p % 8 < hi
    · rw [if_pos (by simpa using hin), if_pos (by omega), hnew _ hin.1 hin.2]
      congr 1
      omega
    · rw [if_neg (by simpa using hin), if_neg (by omega), Mem.bit, hp]
  · rw [if_neg hp, if_neg (by omega)]

/-- The tail: the `nBits` top bits of one byte. -/
theorem writeTail_bits {value : Mem → Nat → Traced Nat Byte} {lag : Nat}
    (hv : Spells value lag) {c : Cursor} (hc : c.nBits < 8) :
    (writeTail c value).val.bit =
      copyRange ⟨c.nBits, 8 * c.dst, 8 * c.src + lag⟩ c.mem.bit := by
  unfold writeTail
  by_cases hn : c.nBits = 0
  · rw [if_neg (by simpa using hn), hn, copyRange_zero]
    rfl
  · rw [if_pos hn]
    refine store_mask_bits 0 c.nBits (by omega) (fun k _ hk => ?_) fun j hj => ?_
    · exact hv c.mem c.src k (by omega)
    · rw [getMsbD_keepHi (by omega) hj]
      simp

/-- The head: the positions from `dstMod` on of one byte. -/
theorem writeHead_bits {value : Mem → Nat → Traced Nat Byte} (lag : Nat)
    {dstMod step : Nat} {c : Cursor} (hmod : dstMod < 8) (hn : 8 - dstMod ≤ c.nBits)
    (hv : ∀ k, dstMod ≤ k → k < 8 →
      (value c.mem c.src).val.getMsbD k = c.mem.bit (8 * c.src + lag + k)) :
    (writeHead c dstMod value step).val.mem.bit =
      copyRange ⟨8 - dstMod, 8 * c.dst + dstMod, 8 * c.src + lag + dstMod⟩
        c.mem.bit := by
  have hmem : (writeHead c dstMod value step).val.mem = c.mem.store c.dst
      ((c.mem c.dst &&& ~~~(~~~(keepHi dstMod ||| keepLo (dstMod + (8 - dstMod))))) |||
        ((value c.mem c.src).val &&&
          ~~~(keepHi dstMod ||| keepLo (dstMod + (8 - dstMod))))) := by
    rw [BitVec.not_not]
    unfold writeHead
    simp only [if_neg (show ¬ 8 - dstMod > c.nBits by omega)]
    rfl
  rw [hmem]
  refine store_mask_bits dstMod 8 le_rfl hv fun j hj => ?_
  rw [getMsbD_headMask hmod.le hj]
  simp [hj]

theorem writeHead_cursor (value : Mem → Nat → Traced Nat Byte) (step : Nat)
    {dstMod : Nat} {c : Cursor} (hn : 8 - dstMod ≤ c.nBits) :
    (writeHead c dstMod value step).val.nBits = c.nBits - (8 - dstMod) ∧
      (writeHead c dstMod value step).val.src = c.src + step ∧
      (writeHead c dstMod value step).val.dst = c.dst + 1 := by
  unfold writeHead
  simp only [if_neg (show ¬ 8 - dstMod > c.nBits by omega)]
  exact ⟨rfl, rfl, rfl⟩

/-! ## Whole bytes -/

theorem memmove_bits (m : Mem) (d s n : Nat) :
    (memmove m d s n).val.bit = copyRange ⟨8 * n, 8 * d, 8 * s⟩ m.bit := by
  funext p
  show ((if d ≤ p / 8 ∧ p / 8 < d + n then m (s + (p / 8 - d)) else m (p / 8)) :
    Byte).getMsbD (p % 8) = _
  simp only [copyRange, Move.covers, decide_eq_true_eq]
  by_cases hp : d ≤ p / 8 ∧ p / 8 < d + n
  · rw [if_pos hp, if_pos (by omega),
      show 8 * s + (p - 8 * d) = 8 * (s + (p / 8 - d)) + p % 8 by omega,
      m.bit_of_byte _ (Nat.mod_lt _ (by decide))]
  · rw [if_neg hp, if_neg (by omega)]
    rfl

theorem moveBytes_copied (c : Cursor) : Copied 0 c (moveBytes c).val := by
  unfold moveBytes
  simp only
  split
  · refine ⟨Nat.mod_le _ _, ?_, ?_, ?_⟩
    · show 8 * (c.dst + c.nBits / 8) + c.nBits % 8 = _
      omega
    · show 8 * (c.src + c.nBits / 8) + c.nBits % 8 = _
      omega
    · show (memmove c.mem c.dst c.src (c.nBits / 8)).val.bit =
        copyRange ⟨c.nBits - c.nBits % 8, _, _⟩ _
      rw [memmove_bits, show c.nBits - c.nBits % 8 = 8 * (c.nBits / 8) by omega]
      rfl
  · next hn =>
      have hlt : c.nBits % 8 = c.nBits := by
        simp only [ne_eq, not_not] at hn
        omega
      show Copied 0 c { c with nBits := c.nBits % 8 }
      rw [hlt]
      exact Copied.refl 0 c

/-- Where the cursor stands behind the whole bytes. -/
theorem moveBytes_cursor (c : Cursor) :
    (moveBytes c).val.nBits = c.nBits % 8 ∧ (moveBytes c).val.src = c.src + c.nBits / 8 ∧
      (moveBytes c).val.dst = c.dst + c.nBits / 8 := by
  unfold moveBytes
  simp only
  split
  · exact ⟨rfl, rfl, rfl⟩
  · next h0 =>
      rw [not_not.mp h0]
      exact ⟨rfl, rfl, rfl⟩

theorem moveBytes_nBits (c : Cursor) : (moveBytes c).val.nBits < 8 := by
  rw [(moveBytes_cursor c).1]
  exact Nat.mod_lt _ (by decide)

theorem slidingByte_copied {left : Nat} (h0 : 0 < left) (h8 : left < 8) {c : Cursor}
    (hc : 8 ≤ c.nBits) : Copied left c (slidingByte left c).val := by
  refine ⟨Nat.sub_le _ _, ?_, ?_, ?_⟩
  · show 8 * (c.dst + 1) + (c.nBits - 8) = _
    omega
  · show 8 * (c.src + 1) + (c.nBits - 8) = _
    omega
  · show (c.mem.store c.dst (mergeBytes left c.mem c.src).val).bit =
      copyRange ⟨c.nBits - (c.nBits - 8), _, _⟩ _
    rw [store_bits (spells_mergeBytes h0 h8), show c.nBits - (c.nBits - 8) = 8 by omega]

/-! ## Words -/

theorem store64_frame (m : Mem) (d : Nat) (w : BitVec 64) {p : Nat}
    (hp : p ∉ Set.Ico (8 * d) (8 * d + 64)) : (store64 m d w).bit p = m.bit p := by
  rw [Set.mem_Ico] at hp
  show (if d ≤ p / 8 ∧ p / 8 < d + 8 then w.extractLsb' (8 * (p / 8 - d)) 8
    else m (p / 8)).getMsbD (p % 8) = _
  rw [if_neg (by omega)]
  rfl

/-- Bit `k` of byte `j` of a stored word, in the byte order of the host. -/
theorem store64_bit (m : Mem) (d : Nat) (w : BitVec 64) {j k : Nat} (hj : j < 8)
    (hk : k < 8) : (store64 m d w).bit (8 * (d + j) + k) = w.getLsbD (8 * j + (7 - k)) := by
  rw [Mem.bit_of_byte _ _ hk]
  show (if d ≤ d + j ∧ d + j < d + 8 then w.extractLsb' (8 * (d + j - d)) 8
    else m (d + j)).getMsbD k = _
  rw [if_pos (by omega), BitVec.getMsbD_eq_getLsbD, BitVec.getLsbD_extractLsb',
    Nat.add_sub_cancel_left]
  simp [hk, show 7 - k < 8 by omega]

/-- Bit `k` of byte `j` of a loaded word. -/
theorem load64_bit (m : Mem) (p : Nat) {j k : Nat} (hj : j < 8) (hk : k < 8) :
    (load64 m p).val.getLsbD (8 * j + (7 - k)) = m.bit (8 * (p + j) + k) := by
  have hword : (load64 m p).val = leWord (fun i => m (p + i)) 7 := rfl
  rw [hword, getLsbD_leWord (by omega) (by omega), Mem.bit_of_byte _ _ hk,
    BitVec.getMsbD_eq_getLsbD]
  simp [hk]

theorem storeWord_progress {c : Cursor} (hc : 64 ≤ c.nBits) (w : BitVec 64) :
    Progress c { nBits := c.nBits - 64, src := c.src + 8, dst := c.dst + 8,
                 mem := store64 c.mem c.dst w } := by
  refine ⟨Nat.sub_le _ _, ?_, ?_⟩
  · show 8 * (c.dst + 8) + (c.nBits - 64) = _
    omega
  · intro p hp
    refine store64_frame _ _ _ fun hin => hp ?_
    simp only [Set.mem_Ico] at hin ⊢
    omega

end SpaceVerifier.Runtime
