import SpaceVerifier.Metatheory.BitcpySteps

/-!
# The loops and tails of `bitcpy`

What lies behind the head, from a byte-aligned destination on. Below 64 bits
both paths copy exactly. From 64 bits on the word loops shift words that were
loaded in little-endian order as if they were big-endian; each of the two shows
the defect in one displaced bit, whatever the memory holds.
-/

namespace SpaceVerifier.Runtime

open Foundation Foundation.Traced

/-! ## Loops and tails -/

theorem whileLoop_progress {cond : Cursor → Bool} {body : Cursor → Traced Nat Cursor}
    (hstep : ∀ c, cond c = true → Progress c (body c).val) (fuel : Nat) (c : Cursor) :
    Progress c (whileLoop cond body fuel c).val :=
  whileLoop_preserves (Progress c) (Progress.refl c)
    fun c' hc' hcond => hc'.trans (hstep c' hcond)

/-- The byte loop keeps what its rounds keep and leaves less than a byte. -/
theorem slidingLoop_inv {left : Nat} {c : Cursor} (I : Cursor → Prop) (h₀ : I c)
    (hstep : ∀ c', I c' → 8 ≤ c'.nBits → I (slidingByte left c').val) :
    I (whileLoop (fun c => decide (8 ≤ c.nBits)) (slidingByte left) c.nBits c).val ∧
      (whileLoop (fun c => decide (8 ≤ c.nBits)) (slidingByte left)
        c.nBits c).val.nBits < 8 := by
  obtain ⟨hI, hexit⟩ := whileLoop_inv (fun c : Cursor => decide (8 ≤ c.nBits))
    (slidingByte left) I (fun c : Cursor => c.nBits) le_rfl h₀ (by
      intro c' hc' hcond
      have h8 : 8 ≤ c'.nBits := by simpa using hcond
      refine ⟨hstep c' hc' h8, ?_⟩
      -- each round consumes eight bits, so `n_bits` covers the loop
      show c'.nBits - 8 < c'.nBits
      omega)
  exact ⟨hI, by simpa using hexit⟩

/-- The byte loop copies everything but the last bits. -/
theorem slidingLoop_copied {left : Nat} (h0 : 0 < left) (h8 : left < 8) {c : Cursor}
    (ha : c.Apart left) :
    Copied left c (whileLoop (fun c => decide (8 ≤ c.nBits)) (slidingByte left)
      c.nBits c).val ∧
    (whileLoop (fun c => decide (8 ≤ c.nBits)) (slidingByte left)
      c.nBits c).val.nBits < 8 :=
  slidingLoop_inv (Copied left c) (Copied.refl left c) fun _ hc' hn =>
    hc'.trans ha (slidingByte_copied h0 h8 hn)

theorem slidingLoop_progress {left : Nat} (h0 : 0 < left) (h8 : left < 8)
    (c : Cursor) :
    Progress c (whileLoop (fun c => decide (8 ≤ c.nBits)) (slidingByte left)
      c.nBits c).val ∧
    (whileLoop (fun c => decide (8 ≤ c.nBits)) (slidingByte left)
      c.nBits c).val.nBits < 8 :=
  slidingLoop_inv (Progress c) (Progress.refl c) fun _ hc' hn =>
    hc'.trans (slidingByte_copied h0 h8 hn).progress

/-- Progress and a tail of whole spelled bytes stay inside the destination. -/
theorem Progress.tail_frame {c₀ c : Cursor} {value : Mem → Nat → Traced Nat Byte}
    {lag : Nat} (h : Progress c₀ c) (hv : Spells value lag) (hc : c.nBits < 8) {p : Nat}
    (hp : p ∉ Set.Ico (8 * c₀.dst) (8 * c₀.dst + c₀.nBits)) :
    (writeTail c value).val.bit p = c₀.mem.bit p := by
  have hle := h.le
  have heq := h.dst_eq
  rw [writeTail_bits hv hc, copyRange_of_notMem, h.frame p hp]
  intro hin
  simp only [Move.dstSpan, Set.mem_Ico] at hin hp
  omega

/-- A partial copy and its tail are the whole copy. -/
theorem Copied.tail_bits {c₀ c : Cursor} {value : Mem → Nat → Traced Nat Byte}
    {lag : Nat} (h : Copied lag c₀ c) (ha : c₀.Apart lag) (hv : Spells value lag)
    (hc : c.nBits < 8) :
    (writeTail c value).val.bit =
      copyRange ⟨c₀.nBits, 8 * c₀.dst, 8 * c₀.src + lag⟩ c₀.mem.bit := by
  have hle := h.le
  have hdst := h.dst_eq
  have hsrc := h.src_eq
  rw [writeTail_bits hv hc, h.bits,
    show 8 * c.dst = 8 * c₀.dst + (c₀.nBits - c.nBits) by omega,
    show 8 * c.src + lag = 8 * c₀.src + lag + (c₀.nBits - c.nBits) by omega,
    copyRange_append (by unfold Cursor.Apart at ha; omega),
    show c₀.nBits - c.nBits + c.nBits = c₀.nBits by omega]

/-! ## Byte-aligned copies -/

theorem aligned_frame (c : Cursor) {p : Nat}
    (hp : p ∉ Set.Ico (8 * c.dst) (8 * c.dst + c.nBits)) :
    (bitcpyAligned c).val.bit p = c.mem.bit p :=
  (moveBytes_copied c).progress.tail_frame spells_load (moveBytes_nBits c) hp

theorem aligned_bits {c : Cursor} (ha : c.Apart 0) :
    (bitcpyAligned c).val.bit =
      copyRange ⟨c.nBits, 8 * c.dst, 8 * c.src⟩ c.mem.bit :=
  (moveBytes_copied c).tail_bits ha spells_load (moveBytes_nBits c)

/-! ## Behind the head: same offset -/

/-- `bitcpySameOffset` from the 64-bit loop on. -/
def sameRest (srcMod : Nat) (c : Cursor) : Mem :=
  (bitcpyAligned (whileLoop (fun c => decide (64 ≤ c.nBits)) (sameOffsetWord srcMod)
    c.nBits c).val).val

theorem sameLoop_progress (srcMod fuel : Nat) (c : Cursor) :
    Progress c (whileLoop (fun c => decide (64 ≤ c.nBits)) (sameOffsetWord srcMod)
      fuel c).val :=
  whileLoop_progress (fun _ hcond => storeWord_progress (by simpa using hcond) _) _ c

theorem Progress.aligned_frame {c₀ c : Cursor} (h : Progress c₀ c) {p : Nat}
    (hp : p ∉ Set.Ico (8 * c₀.dst) (8 * c₀.dst + c₀.nBits)) :
    (bitcpyAligned c).val.bit p = c₀.mem.bit p :=
  (h.trans (moveBytes_copied c).progress).tail_frame spells_load
    (moveBytes_nBits c) hp

theorem sameRest_frame (srcMod : Nat) (c : Cursor) {p : Nat}
    (hp : p ∉ Set.Ico (8 * c.dst) (8 * c.dst + c.nBits)) :
    (sameRest srcMod c).bit p = c.mem.bit p :=
  (sameLoop_progress srcMod c.nBits c).aligned_frame hp

/-- Below 64 bits the word loop is not entered. -/
theorem sameRest_bits {srcMod : Nat} {c : Cursor} (hc : c.nBits < 64)
    (ha : c.Apart 0) :
    (sameRest srcMod c).bit =
      copyRange ⟨c.nBits, 8 * c.dst, 8 * c.src⟩ c.mem.bit := by
  unfold sameRest
  rw [whileLoop_of_not (by simpa using hc)]
  exact aligned_bits ha

/-- From 64 bits on, the top bit of the second destination byte comes from
`srcMod` bits too far. -/
theorem sameRest_displaced {srcMod : Nat} (h0 : 0 < srcMod) (h8 : srcMod < 8)
    {c : Cursor} (hc : 64 ≤ c.nBits) :
    (sameRest srcMod c).bit (8 * (c.dst + 1)) =
      c.mem.bit (8 * (c.src + 1) + srcMod) := by
  have hrest := (sameLoop_progress srcMod (c.nBits - 1)
    (sameOffsetWord srcMod c).val).aligned_frame (p := 8 * (c.dst + 1)) (by
      show _ ∉ Set.Ico (8 * (c.dst + 8)) _
      rw [Set.mem_Ico]
      omega)
  have hword := store64_bit c.mem c.dst (((load64 c.mem c.src).val <<< srcMod) |||
    ((load64 c.mem (c.src + 8)).val >>> (64 - srcMod))) (j := 1) (k := 0)
    (by decide) (by decide)
  have hload := load64_bit c.mem c.src (j := 1) (k := srcMod) (by decide) h8
  have hmem : (sameOffsetWord srcMod c).val.mem = store64 c.mem c.dst
      (((load64 c.mem c.src).val <<< srcMod) |||
        ((load64 c.mem (c.src + 8)).val >>> (64 - srcMod))) := by
    unfold sameOffsetWord
    simp only [if_neg (show ¬ srcMod = 0 by omega)]
    rfl
  unfold sameRest
  rw [whileLoop_of_cond (by omega) (by simpa using hc), hrest, hmem]
  simp only [Nat.add_zero] at hword
  rw [hword, ← hload, BitVec.getLsbD_or, BitVec.getLsbD_shiftLeft,
    BitVec.getLsbD_ushiftRight, BitVec.getLsbD_of_ge _ (64 - srcMod + _) (by omega),
    Bool.or_false, show 8 * 1 + (7 - 0) - srcMod = 8 * 1 + (7 - srcMod) by omega]
  simp [show ¬ 15 < srcMod by omega]

/-! ## Behind the head: different offsets -/

/-- `bitcpyDiffOffset` from the 64-bit loop on. -/
def diffRest (left : Nat) (c : Cursor) : Mem :=
  let c := (whileLoop (fun c => decide (64 ≤ c.nBits)) (slidingWord left)
    c.nBits c).val
  let c := (whileLoop (fun c => decide (8 ≤ c.nBits)) (slidingByte left)
    c.nBits c).val
  (writeTail c (mergeBytes left)).val

theorem wordLoop_progress (left fuel : Nat) (c : Cursor) :
    Progress c (whileLoop (fun c => decide (64 ≤ c.nBits)) (slidingWord left)
      fuel c).val :=
  whileLoop_progress (fun _ hcond => storeWord_progress (by simpa using hcond) _) _ c

section Sliding

variable {left : Nat} (h0 : 0 < left) (h8 : left < 8)
include h0 h8

theorem Progress.sliding_frame {c₀ c : Cursor} (h : Progress c₀ c) {p : Nat}
    (hp : p ∉ Set.Ico (8 * c₀.dst) (8 * c₀.dst + c₀.nBits)) :
    (writeTail (whileLoop (fun c => decide (8 ≤ c.nBits)) (slidingByte left)
      c.nBits c).val (mergeBytes left)).val.bit p = c₀.mem.bit p := by
  obtain ⟨hloop, hlt⟩ := slidingLoop_progress h0 h8 c
  exact (h.trans hloop).tail_frame (spells_mergeBytes h0 h8) hlt hp

theorem diffRest_frame (c : Cursor) {p : Nat}
    (hp : p ∉ Set.Ico (8 * c.dst) (8 * c.dst + c.nBits)) :
    (diffRest left c).bit p = c.mem.bit p :=
  (wordLoop_progress left c.nBits c).sliding_frame h0 h8 hp

theorem diffRest_bits {c : Cursor} (hc : c.nBits < 64) (ha : c.Apart left) :
    (diffRest left c).bit =
      copyRange ⟨c.nBits, 8 * c.dst, 8 * c.src + left⟩ c.mem.bit := by
  unfold diffRest
  rw [whileLoop_of_not (by simpa using hc)]
  obtain ⟨hcopied, hlt⟩ := slidingLoop_copied h0 h8 ha
  exact hcopied.tail_bits ha (spells_mergeBytes h0 h8) hlt

/-- From 64 bits on, bit `8 - left` of the first destination byte comes from
seven bytes too far. -/
theorem diffRest_displaced {c : Cursor} (hc : 64 ≤ c.nBits) :
    (diffRest left c).bit (8 * c.dst + (8 - left)) =
      c.mem.bit (8 * (c.src + 8)) := by
  have hrest := (wordLoop_progress left (c.nBits - 1)
    (slidingWord left c).val).sliding_frame h0 h8 (p := 8 * c.dst + (8 - left)) (by
      show _ ∉ Set.Ico (8 * (c.dst + 8)) _
      rw [Set.mem_Ico]
      omega)
  have hword := store64_bit c.mem c.dst (((load64 c.mem c.src).val <<< left) |||
    ((load64 c.mem (c.src + 8)).val >>> (8 - left))) (j := 0) (k := 8 - left)
    (by decide) (by omega)
  have hload := load64_bit c.mem (c.src + 8) (j := 0) (k := 0) (by decide) (by decide)
  simp only [Nat.add_zero] at hword hload
  unfold diffRest
  rw [whileLoop_of_cond (by omega) (by simpa using hc)]
  refine hrest.trans ?_
  show (store64 c.mem c.dst (((load64 c.mem c.src).val <<< left) |||
    ((load64 c.mem (c.src + 8)).val >>> (8 - left)))).bit _ = _
  rw [hword, ← hload, BitVec.getLsbD_or, BitVec.getLsbD_shiftLeft,
    BitVec.getLsbD_ushiftRight,
    show 8 - left + (8 * 0 + (7 - (8 - left))) = 8 * 0 + (7 - 0) by omega]
  simp [show 7 - (8 - left) < left by omega]

end Sliding

end SpaceVerifier.Runtime
