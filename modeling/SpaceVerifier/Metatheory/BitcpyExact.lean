import SpaceVerifier.Metatheory.BitcpyLoops

/-!
# When `bitcpy` is an exact copy

On every path `bitcpy` writes inside its destination range. It is a copy of the
range exactly when it takes no defective branch: the 64-bit rounds of the two
shifting paths, and the head of the different-offset path, which reads one byte
too far when the destination offset is the larger one.
-/

namespace SpaceVerifier.Runtime

open Foundation Foundation.Traced

/-! ## The fast paths from their head on -/

/-- The part of `bitcpy` behind the overlap check. -/
def bitcpyFast (c : Cursor) (srcMod dstMod : Nat) : Mem :=
  if srcMod = 0 ∧ dstMod = 0 then (bitcpyAligned c).val
  else if srcMod = dstMod then (bitcpySameOffset c srcMod dstMod).val
  else (bitcpyDiffOffset c srcMod dstMod).val

theorem or_mod_eight (a b : Nat) : (a ||| b) % 8 = 0 ↔ a % 8 = 0 ∧ b % 8 = 0 := by
  rw [show (8 : Nat) = 2 ^ 3 by decide, Nat.or_mod_two_pow, Nat.or_eq_zero_iff]

/-- The part of `bitcpy` behind the overlap check, with its reads. -/
def fastPath (c : Cursor) (srcMod dstMod : Nat) : Traced Nat Mem :=
  if srcMod = 0 ∧ dstMod = 0 then bitcpyAligned c
  else if srcMod = dstMod then bitcpySameOffset c srcMod dstMod
  else bitcpyDiffOffset c srcMod dstMod

theorem bitcpy_eq (m : Mem) (n src srcBit dst dstBit : Nat) :
    bitcpy m n src srcBit dst dstBit =
      if n = 0 then pure m
      else if src = dst ∧ srcBit = dstBit then pure m
      else if n < 8 ∨ src = dst ∧ srcBit < add64 dstBit n ∧ dstBit < add64 srcBit n then
        bitcpyOverlapFallback m n src srcBit dst dstBit
      else fastPath ⟨n, src + srcBit / 8, dst + dstBit / 8, m⟩ (srcBit % 8) (dstBit % 8) := by
  unfold bitcpy fastPath
  by_cases h8 : n < 8
  · simp only [h8, true_or, if_true]
  · -- the aligned test `(src_bit | dst_bit) & 7 == 0` looks at both offsets at once
    simp only [h8, false_or, if_false, or_mod_eight]

theorem fastPath_val (c : Cursor) (srcMod dstMod : Nat) :
    (fastPath c srcMod dstMod).val = bitcpyFast c srcMod dstMod := by
  unfold fastPath bitcpyFast
  simp only [val_ite]

theorem bitcpy_val (m : Mem) (n src srcBit dst dstBit : Nat) :
    (bitcpy m n src srcBit dst dstBit).val =
      if n = 0 then m
      else if src = dst ∧ srcBit = dstBit then m
      else if n < 8 ∨ src = dst ∧ srcBit < add64 dstBit n ∧ dstBit < add64 srcBit n then
        (bitcpyOverlapFallback m n src srcBit dst dstBit).val
      else bitcpyFast ⟨n, src + srcBit / 8, dst + dstBit / 8, m⟩ (srcBit % 8)
        (dstBit % 8) := by
  rw [bitcpy_eq]
  simp only [val_ite, val_pure, fastPath_val]

/-- The bits written by the head. -/
def headBits (dstMod : Nat) : Nat := if dstMod = 0 then 0 else 8 - dstMod

theorem leftShift_bounds {s d : Nat} (hs : s < 8) (hd : d < 8) (hne : s ≠ d) :
    0 < leftShift s d ∧ leftShift s d < 8 := by
  unfold leftShift
  split <;> omega

section SameOffset

variable {d : Nat} (h0 : 0 < d) (h8 : d < 8) {c : Cursor} (hn : 8 ≤ c.nBits)
include h0 h8 hn

/-- The same-offset path is its head followed by `sameRest`. -/
theorem same_head : ∃ c₁ : Cursor,
    (bitcpySameOffset c d d).val = sameRest d c₁ ∧ c₁.nBits = c.nBits - (8 - d) ∧
      c₁.src = c.src + 1 ∧ c₁.dst = c.dst + 1 ∧
      c₁.mem.bit = copyRange ⟨8 - d, 8 * c.dst + d, 8 * c.src + d⟩ c.mem.bit := by
  have hhead : 8 - d ≤ c.nBits := by omega
  refine ⟨(writeHead c d (fun m p => do
    let s ← load m p
    return s &&& keepLo d) 1).val, ?_, ?_⟩
  · unfold bitcpySameOffset sameRest
    simp only [if_pos (show d ≠ 0 by omega)]
    rfl
  · obtain ⟨hbits, hsrc, hdst⟩ := writeHead_cursor (fun m p => do
      let s ← load m p
      return s &&& keepLo d) 1 hhead
    refine ⟨hbits, hsrc, hdst, ?_⟩
    refine writeHead_bits 0 h8 hhead fun k hk hk8 => ?_
    show (c.mem c.src &&& keepLo d).getMsbD k = _
    rw [BitVec.getMsbD_and, getMsbD_keepLo h8.le hk8, Nat.add_zero,
      Mem.bit_of_byte _ _ hk8]
    simp [hk]

theorem same_frame {p : Nat}
    (hp : p ∉ Set.Ico (8 * c.dst + d) (8 * c.dst + d + c.nBits)) :
    (bitcpySameOffset c d d).val.bit p = c.mem.bit p := by
  obtain ⟨c₁, hval, hbits, -, hdst, hmem⟩ := same_head h0 h8 hn
  rw [Set.mem_Ico] at hp
  rw [hval, sameRest_frame _ _ (by rw [Set.mem_Ico]; omega), hmem]
  refine copyRange_of_notMem _ ?_
  simp only [Move.dstSpan, Set.mem_Ico]
  omega

theorem same_bits (hlt : c.nBits < 8 - d + 64)
    (ha : 8 * c.src + d + c.nBits ≤ 8 * c.dst + d ∨
      8 * c.dst + d + c.nBits ≤ 8 * c.src + d) :
    (bitcpySameOffset c d d).val.bit =
      copyRange ⟨c.nBits, 8 * c.dst + d, 8 * c.src + d⟩ c.mem.bit := by
  obtain ⟨c₁, hval, hbits, hsrc, hdst, hmem⟩ := same_head h0 h8 hn
  rw [hval, sameRest_bits (by omega) (by unfold Cursor.Apart; omega), hmem, hbits,
    show 8 * c₁.dst = 8 * c.dst + d + (8 - d) by omega,
    show 8 * c₁.src = 8 * c.src + d + (8 - d) by omega,
    copyRange_append (by omega), show 8 - d + (c.nBits - (8 - d)) = c.nBits by omega]

/-- From 64 bits behind the head on, the destination bit 16 positions after the
first byte boundary shows a source bit `d` positions too far. -/
theorem same_displaced (hge : 8 - d + 64 ≤ c.nBits)
    (ha : 8 * c.src + d + c.nBits ≤ 8 * c.dst + d ∨
      8 * c.dst + d + c.nBits ≤ 8 * c.src + d) :
    (bitcpySameOffset c d d).val.bit (8 * c.dst + d + (16 - d)) =
      c.mem.bit (8 * c.src + d + 16) := by
  obtain ⟨c₁, hval, hbits, hsrc, hdst, hmem⟩ := same_head h0 h8 hn
  have hbit := sameRest_displaced h0 h8 (c := c₁) (by omega)
  rw [show 8 * (c₁.dst + 1) = 8 * c.dst + d + (16 - d) by omega,
    show 8 * (c₁.src + 1) + d = 8 * c.src + d + 16 by omega] at hbit
  rw [hval, hbit, hmem]
  refine copyRange_of_notMem _ ?_
  simp only [Move.dstSpan, Set.mem_Ico]
  omega

end SameOffset

section DiffOffset

variable {s d : Nat} (hs : s < 8) (hd : d < 8) (hne : s ≠ d) {c : Cursor}
  (hn : 8 ≤ c.nBits)
include hs hd hne hn

/-- The different-offset path is its head, if there is one, followed by
`diffRest`. The head reads at `leftShift + d`, which is `s` or one byte past. -/
theorem diff_head : ∃ c₁ : Cursor,
    (bitcpyDiffOffset c s d).val = diffRest (leftShift s d) c₁ ∧
      c₁.nBits = c.nBits - headBits d ∧
      8 * c₁.src + leftShift s d = 8 * c.src + s + headBits d ∧
      8 * c₁.dst = 8 * c.dst + d + headBits d ∧
      c₁.mem.bit = copyRange ⟨headBits d, 8 * c.dst + d,
        8 * c.src + leftShift s d + d⟩ c.mem.bit := by
  by_cases h0 : d = 0
  · subst h0
    refine ⟨c, rfl, rfl, ?_, rfl, ?_⟩
    · rw [leftShift, if_pos (by omega)]
      rfl
    · exact (copyRange_zero _ _ _).symm
  · have hhead : 8 - d ≤ c.nBits := by omega
    have hb : headBits d = 8 - d := if_neg h0
    obtain ⟨hl0, hl8⟩ := leftShift_bounds hs hd hne
    rw [hb]
    refine ⟨(writeHead c d (mergeBytes (leftShift s d)) (if s > d then 1 else 0)).val,
      ?_, ?_⟩
    · unfold bitcpyDiffOffset diffRest
      simp only [if_pos h0]
      rfl
    · obtain ⟨hbits, hsrc, hdst⟩ := writeHead_cursor (mergeBytes (leftShift s d))
        (if s > d then 1 else 0) hhead
      refine ⟨hbits, ?_, ?_, ?_⟩
      · rw [hsrc, leftShift]
        split <;> omega
      · rw [hdst]
        omega
      · exact writeHead_bits _ hd hhead fun k _ hk8 =>
          spells_mergeBytes hl0 hl8 c.mem c.src k hk8

theorem diff_frame {p : Nat}
    (hp : p ∉ Set.Ico (8 * c.dst + d) (8 * c.dst + d + c.nBits)) :
    (bitcpyDiffOffset c s d).val.bit p = c.mem.bit p := by
  obtain ⟨hl0, hl8⟩ := leftShift_bounds hs hd hne
  obtain ⟨c₁, hval, hbits, -, hdst, hmem⟩ := diff_head hs hd hne hn
  have hhead : headBits d ≤ 8 := by unfold headBits; split <;> omega
  rw [Set.mem_Ico] at hp
  rw [hval, diffRest_frame hl0 hl8 _ (by rw [Set.mem_Ico]; omega), hmem]
  refine copyRange_of_notMem _ ?_
  simp only [Move.dstSpan, Set.mem_Ico]
  omega

theorem diff_bits (hlt : c.nBits < headBits d + 64) (hds : d < s)
    (ha : 8 * c.src + s + c.nBits ≤ 8 * c.dst + d ∨
      8 * c.dst + d + c.nBits ≤ 8 * c.src + s) :
    (bitcpyDiffOffset c s d).val.bit =
      copyRange ⟨c.nBits, 8 * c.dst + d, 8 * c.src + s⟩ c.mem.bit := by
  obtain ⟨hl0, hl8⟩ := leftShift_bounds hs hd hne
  obtain ⟨c₁, hval, hbits, hsrc, hdst, hmem⟩ := diff_head hs hd hne hn
  have hhead : headBits d ≤ 8 := by unfold headBits; split <;> omega
  have hleft : 8 * c.src + leftShift s d + d = 8 * c.src + s := by
    rw [leftShift, if_pos hds]
    omega
  rw [hval, diffRest_bits hl0 hl8 (by omega) (by unfold Cursor.Apart; omega), hmem,
    hbits, hsrc, hdst, hleft, copyRange_append (by omega),
    show headBits d + (c.nBits - headBits d) = c.nBits by omega]

/-- From 64 bits behind the head on, one bit comes from seven bytes too far. -/
theorem diff_displaced (hge : headBits d + 64 ≤ c.nBits) (hds : d < s)
    (ha : 8 * c.src + s + c.nBits ≤ 8 * c.dst + d ∨
      8 * c.dst + d + c.nBits ≤ 8 * c.src + s) :
    (bitcpyDiffOffset c s d).val.bit
        (8 * c.dst + d + (headBits d + (8 - (s - d)))) =
      c.mem.bit (8 * c.src + s + (headBits d + 64 - (s - d))) := by
  obtain ⟨hl0, hl8⟩ := leftShift_bounds hs hd hne
  obtain ⟨c₁, hval, hbits, hsrc, hdst, hmem⟩ := diff_head hs hd hne hn
  have hleft : leftShift s d = s - d := if_pos hds
  have hbit := diffRest_displaced hl0 hl8 (c := c₁) (by omega)
  rw [hleft] at hsrc hbit
  rw [show 8 * c₁.dst + (8 - (s - d)) =
      8 * c.dst + d + (headBits d + (8 - (s - d))) by omega,
    show 8 * (c₁.src + 8) = 8 * c.src + s + (headBits d + 64 - (s - d)) by omega] at hbit
  rw [hval, hleft, hbit, hmem]
  refine copyRange_of_notMem _ ?_
  simp only [Move.dstSpan, Set.mem_Ico]
  omega

/-- With the larger destination offset the first bit already comes from eight
positions too far. -/
theorem diff_head_displaced (hsd : s < d) :
    (bitcpyDiffOffset c s d).val.bit (8 * c.dst + d) =
      c.mem.bit (8 * c.src + s + 8) := by
  obtain ⟨hl0, hl8⟩ := leftShift_bounds hs hd hne
  obtain ⟨c₁, hval, hbits, hsrc, hdst, hmem⟩ := diff_head hs hd hne hn
  have hb : headBits d = 8 - d := if_neg (by omega)
  have hleft : 8 * c.src + leftShift s d + d = 8 * c.src + s + 8 := by
    rw [leftShift, if_neg (by omega)]
    omega
  have hcopy := copyRange_dst ⟨headBits d, 8 * c.dst + d, 8 * c.src + s + 8⟩ c.mem.bit
    (i := 0) (by
      show 0 < headBits d
      omega)
  rw [hval, diffRest_frame hl0 hl8 _ (by rw [Set.mem_Ico]; omega), hmem, hleft]
  exact hcopy

end DiffOffset

/-! ## The frame -/

theorem fast_frame {s d : Nat} (hs : s < 8) (hd : d < 8) {c : Cursor}
    (hn : 8 ≤ c.nBits) {p : Nat}
    (hp : p ∉ Set.Ico (8 * c.dst + d) (8 * c.dst + d + c.nBits)) :
    (bitcpyFast c s d).bit p = c.mem.bit p := by
  unfold bitcpyFast
  by_cases h0 : s = 0 ∧ d = 0
  · rw [if_pos h0]
    rw [h0.2] at hp
    exact aligned_frame c hp
  · rw [if_neg h0]
    by_cases heq : s = d
    · subst heq
      rw [if_pos rfl]
      exact same_frame (by omega) hd hn hp
    · rw [if_neg heq]
      exact diff_frame hs hd heq hn hp

/-! ## Copies and displaced bits -/

section Fast

variable {s d : Nat} (hs : s < 8) (hd : d < 8) {c : Cursor} (hn : 8 ≤ c.nBits)
  (ha : 8 * c.src + s + c.nBits ≤ 8 * c.dst + d ∨
    8 * c.dst + d + c.nBits ≤ 8 * c.src + s)
include hs hd hn ha

theorem fast_bits (hex : (s = 0 ∧ d = 0) ∨ (d ≤ s ∧ c.nBits < headBits d + 64)) :
    (bitcpyFast c s d).bit =
      copyRange ⟨c.nBits, 8 * c.dst + d, 8 * c.src + s⟩ c.mem.bit := by
  unfold bitcpyFast
  by_cases h0 : s = 0 ∧ d = 0
  · obtain ⟨rfl, rfl⟩ := h0
    rw [if_pos ⟨rfl, rfl⟩]
    exact aligned_bits ha
  · obtain ⟨hle, hlt⟩ := hex.resolve_left h0
    rw [if_neg h0]
    by_cases heq : s = d
    · subst heq
      rw [headBits, if_neg (by omega)] at hlt
      rw [if_pos rfl]
      exact same_bits (by omega) hd hn hlt ha
    · rw [if_neg heq]
      exact diff_bits hs hd heq hn hlt (by omega) ha

/-- Elsewhere one destination bit comes from a wrong position, for every memory
with this cursor; behind an aligned destination it is seven bytes too far. -/
theorem fast_displaced (hex : ¬ ((s = 0 ∧ d = 0) ∨
    (d ≤ s ∧ c.nBits < headBits d + 64))) :
    ∃ i < c.nBits, ∃ k, k ≠ i ∧ (d = 0 → k = i + 56) ∧ ∀ m : Mem,
      (bitcpyFast { c with mem := m } s d).bit (8 * c.dst + d + i) =
        m.bit (8 * c.src + s + k) := by
  obtain ⟨h0, hlong⟩ := not_or.mp hex
  unfold bitcpyFast
  simp only [if_neg h0]
  by_cases heq : s = d
  · subst heq
    have hge : 8 - s + 64 ≤ c.nBits := by
      have hb : headBits s = 8 - s := if_neg (by omega)
      omega
    refine ⟨16 - s, by omega, 16, by omega, by omega, fun m => ?_⟩
    rw [if_pos rfl]
    exact same_displaced (by omega) hd hn hge ha
  · simp only [if_neg heq]
    rcases Nat.lt_or_ge d s with hds | hsd
    · have hge : headBits d + 64 ≤ c.nBits := by omega
      refine ⟨headBits d + (8 - (s - d)), by omega, headBits d + 64 - (s - d), by omega,
        by omega, fun m => ?_⟩
      exact diff_displaced hs hd heq hn hge hds ha
    · refine ⟨0, by omega, 8, by omega, by omega, fun m => ?_⟩
      exact diff_head_displaced hs hd heq hn (by omega)

end Fast

/-! ## All calls -/

/-- **Nothing outside the destination range is written**, wherever the source
lies and whichever path is taken. -/
theorem bitcpy_frame (m : Mem) {n src srcBit dst dstBit p : Nat}
    (hd : dstBit + n ≤ 2 ^ 64)
    (hp : p ∉ Set.Ico (8 * dst + dstBit) (8 * dst + dstBit + n)) :
    (bitcpy m n src srcBit dst dstBit).val.bit p = m.bit p := by
  rw [bitcpy_val]
  split
  · rfl
  · split
    · rfl
    · split
      · exact fallback_frame hd hp
      · next hfast =>
          have hn : 8 ≤ n := by omega
          refine fast_frame (c := ⟨n, src + srcBit / 8, dst + dstBit / 8, m⟩)
            (Nat.mod_lt _ (by decide)) (Nat.mod_lt _ (by decide)) hn ?_
          simp only [Set.mem_Ico] at hp ⊢
          omega

/-! ## The exact condition -/

/-- The operands of a call: one buffer or two that do not overlap, with their
lengths in bytes, and two ranges inside them. Bit positions are `size_t`. -/
structure Operands (n src srcBit srcLen dst dstBit dstLen : Nat) : Prop where
  buffers : (src = dst ∧ srcLen = dstLen) ∨ src + srcLen ≤ dst ∨ dst + dstLen ≤ src
  src_in : srcBit + n ≤ 8 * srcLen
  dst_in : dstBit + n ≤ 8 * dstLen
  src_size : 8 * srcLen < 2 ^ 64
  dst_size : 8 * dstLen < 2 ^ 64

/-- **Only the destination range is written**, on every path: every other bit
of the destination buffer stays, and so does every bit of a separate source. -/
theorem Operands.bitcpy_writes_dst {n src srcBit srcLen dst dstBit dstLen : Nat}
    (h : Operands n src srcBit srcLen dst dstBit dstLen) (m : Mem) :
    (∀ p ∈ Set.Ico (8 * dst) (8 * (dst + dstLen)),
      p ∉ Set.Ico (8 * dst + dstBit) (8 * dst + dstBit + n) →
      (bitcpy m n src srcBit dst dstBit).val.bit p = m.bit p) ∧
    (src ≠ dst → ∀ p ∈ Set.Ico (8 * src) (8 * (src + srcLen)),
      (bitcpy m n src srcBit dst dstBit).val.bit p = m.bit p) := by
  have hin := h.dst_in
  have hsize := h.dst_size
  constructor
  · intro p _ hp
    exact bitcpy_frame m (by omega) hp
  · intro hne p hp
    refine bitcpy_frame m (by omega) ?_
    rw [Set.mem_Ico] at hp ⊢
    -- two buffers do not overlap
    rcases h.buffers with ⟨heq, -⟩ | hb | hb
    · exact absurd heq hne
    · omega
    · omega

/-- Twenty bits from one buffer into the one behind it. -/
theorem Operands.bitcpy_writes_dst_behind :
    Operands 20 0 3 4 4 6 4 ∧ ∀ m p, p < 32 →
      (bitcpy m 20 0 3 4 6).val.bit p = m.bit p := by
  have h : Operands 20 0 3 4 4 6 4 :=
    ⟨by decide, by decide, by decide, by decide, by decide⟩
  refine ⟨h, fun m p hp => ?_⟩
  exact (h.bitcpy_writes_dst m).2 (by decide) p (Set.mem_Ico.mpr ⟨Nat.zero_le p, by omega⟩)

/-- The bits of the destination are the old bits of the source. -/
def ExactCopy (m : Mem) (n src srcBit dst dstBit : Nat) : Prop :=
  ∀ i < n, (bitcpy m n src srcBit dst dstBit).val.bit (8 * dst + dstBit + i) =
    m.bit (8 * src + srcBit + i)

/-- The calls that take no defective branch. -/
def ExactWhen (n src srcBit dst dstBit : Nat) : Prop :=
  n < 8 ∨ (src = dst ∧ srcBit < dstBit + n ∧ dstBit < srcBit + n) ∨
    (srcBit % 8 = 0 ∧ dstBit % 8 = 0) ∨
    (dstBit % 8 ≤ srcBit % 8 ∧ n < headBits (dstBit % 8) + 64)

instance (n src srcBit dst dstBit : Nat) :
    Decidable (ExactWhen n src srcBit dst dstBit) :=
  inferInstanceAs (Decidable (n < 8 ∨ (src = dst ∧ srcBit < dstBit + n ∧
    dstBit < srcBit + n) ∨ (srcBit % 8 = 0 ∧ dstBit % 8 = 0) ∨
    (dstBit % 8 ≤ srcBit % 8 ∧ n < headBits (dstBit % 8) + 64)))

namespace Operands

variable {n src srcBit srcLen dst dstBit dstLen : Nat}
  (h : Operands n src srcBit srcLen dst dstBit dstLen)
include h

/-- Ranges that do not overlap inside one buffer do not meet at all. -/
theorem apart (hno : ¬ (src = dst ∧ srcBit < dstBit + n ∧ dstBit < srcBit + n)) :
    8 * src + srcBit + n ≤ 8 * dst + dstBit ∨
      8 * dst + dstBit + n ≤ 8 * src + srcBit := by
  have h₁ := h.src_in
  have h₂ := h.dst_in
  rcases h.buffers with ⟨rfl, -⟩ | hb | hb <;> omega

/-- On these operands no sum of the dispatch wraps. -/
theorem bitcpy_val (m : Mem) (hn : 8 ≤ n) :
    (bitcpy m n src srcBit dst dstBit).val =
      if src = dst ∧ srcBit = dstBit then m
      else if src = dst ∧ srcBit < dstBit + n ∧ dstBit < srcBit + n then
        (bitcpyOverlapFallback m n src srcBit dst dstBit).val
      else bitcpyFast ⟨n, src + srcBit / 8, dst + dstBit / 8, m⟩ (srcBit % 8)
        (dstBit % 8) := by
  have h₁ := h.src_in
  have h₂ := h.dst_in
  have h₃ := h.src_size
  have h₄ := h.dst_size
  rw [Runtime.bitcpy_val, if_neg (by omega), add64_of_lt (by omega),
    add64_of_lt (by omega)]
  simp only [show ¬ n < 8 by omega, false_or]

/-- Below eight bits the fallback copies, also between two buffers. -/
theorem short_bits (m : Mem) (hsmall : n < 8) :
    (bitcpy m n src srcBit dst dstBit).val.bit =
      copyRange ⟨n, 8 * dst + dstBit, 8 * src + srcBit⟩ m.bit := by
  have h₁ := h.src_in
  have h₂ := h.dst_in
  have h₃ := h.src_size
  have h₄ := h.dst_size
  -- two buffers keep the ranges apart, so the direction does not matter
  have hdir : src = dst ∨ 8 * src + srcBit + n ≤ 8 * dst + dstBit ∨
      8 * dst + dstBit + n ≤ 8 * src + srcBit := by
    rcases h.buffers with ⟨hb, -⟩ | hb | hb <;> omega
  rw [Runtime.bitcpy_val]
  split
  · next h0 => rw [h0, copyRange_zero]
  · split
    · next heq => rw [heq.1, heq.2, copyRange_self]
    · rw [if_pos (Or.inl hsmall)]
      exact fallback_bits (by omega) (by omega) hdir

/-- **Exact on the sound branches.** The copy is the copy of the range, with
everything else unchanged. -/
theorem bitcpy_bits (m : Mem) (hex : ExactWhen n src srcBit dst dstBit) :
    (bitcpy m n src srcBit dst dstBit).val.bit =
      copyRange ⟨n, 8 * dst + dstBit, 8 * src + srcBit⟩ m.bit := by
  rcases Nat.lt_or_ge n 8 with hsmall | hn
  · exact h.short_bits m hsmall
  have h₁ := h.src_in
  have h₂ := h.dst_in
  have h₃ := h.src_size
  have h₄ := h.dst_size
  rw [h.bitcpy_val m hn]
  split
  · next heq => rw [heq.1, heq.2, copyRange_self]
  · split
    · next hover => exact fallback_bits (by omega) (by omega) (Or.inl hover.1)
    · next hno =>
        have hapart := h.apart hno
        have hbits := fast_bits (s := srcBit % 8) (d := dstBit % 8)
          (c := ⟨n, src + srcBit / 8, dst + dstBit / 8, m⟩) (Nat.mod_lt _ (by decide))
          (Nat.mod_lt _ (by decide)) hn (by simp only; omega)
          ((hex.resolve_left (by omega)).resolve_left hno)
        rw [hbits]
        simp only
        congr 2 <;> omega

/-- Off the sound branches one destination bit comes from a wrong position,
whatever the memory holds. -/
theorem bitcpy_displaced (hex : ¬ ExactWhen n src srcBit dst dstBit) :
    ∃ i < n, ∃ k, k ≠ i ∧ (dstBit % 8 = 0 → k = i + 56) ∧ ∀ m : Mem,
      (bitcpy m n src srcBit dst dstBit).val.bit (8 * dst + dstBit + i) =
        m.bit (8 * src + srcBit + k) := by
  unfold ExactWhen at hex
  obtain ⟨hsmall, hno, hfast⟩ : ¬ n < 8 ∧ ¬ (src = dst ∧ srcBit < dstBit + n ∧
      dstBit < srcBit + n) ∧ ¬ ((srcBit % 8 = 0 ∧ dstBit % 8 = 0) ∨
      (dstBit % 8 ≤ srcBit % 8 ∧ n < headBits (dstBit % 8) + 64)) := by
    simpa only [not_or] using hex
  have hapart := h.apart hno
  obtain ⟨i, hi, k, hk, h56, hbit⟩ := fast_displaced (s := srcBit % 8) (d := dstBit % 8)
    (c := ⟨n, src + srcBit / 8, dst + dstBit / 8, fun _ => 0⟩)
    (Nat.mod_lt _ (by decide)) (Nat.mod_lt _ (by decide)) (by simp only; omega)
    (by simp only; omega) hfast
  refine ⟨i, hi, k, hk, h56, fun m => ?_⟩
  have hm := hbit m
  simp only at hm
  rw [h.bitcpy_val m (by omega), if_neg (by omega), if_neg hno,
    show 8 * dst + dstBit + i = 8 * (dst + dstBit / 8) + dstBit % 8 + i by omega, hm]
  congr 1
  omega

end Operands

/-- **Exactly when `bitcpy` copies.** For operands in range, the destination
holds the old source bits for every content of memory if and only if the call
takes none of the defective branches. -/
theorem bitcpy_exact_iff {n src srcBit srcLen dst dstBit dstLen : Nat}
    (h : Operands n src srcBit srcLen dst dstBit dstLen) :
    (∀ m, ExactCopy m n src srcBit dst dstBit) ↔ ExactWhen n src srcBit dst dstBit := by
  constructor
  · intro hall
    by_contra hex
    obtain ⟨i, hi, k, hk, -, hbit⟩ := h.bitcpy_displaced hex
    -- the memory that tells the two source positions apart
    have hcopy := hall (Mem.ofBits fun p => decide (p = 8 * src + srcBit + k)) i hi
    rw [hbit, Mem.bit_ofBits, Mem.bit_ofBits] at hcopy
    simp only [decide_true, Nat.add_left_cancel_iff] at hcopy
    exact hk (by simpa using hcopy.symm : i = k).symm
  · intro hex m i hi
    rw [h.bitcpy_bits m hex]
    exact copyRange_dst ⟨n, 8 * dst + dstBit, 8 * src + srcBit⟩ m.bit hi

/-- Sixteen aligned bits inside one buffer are copied. -/
theorem bitcpy_exact_iff_aligned :
    Operands 16 0 0 8 0 32 8 ∧ ∀ m, ExactCopy m 16 0 0 0 32 :=
  have h : Operands 16 0 0 8 0 32 8 :=
    ⟨by decide, by decide, by decide, by decide, by decide⟩
  ⟨h, (bitcpy_exact_iff h).mpr (by decide)⟩

/-- Two bytes `FF 00` and three zero bytes behind them. -/
def displacedMem : Mem := fun i => if i = 0 then 0xFF else 0

/-- Sixteen bits copied from bit 0 of the two bytes to bit 1 of the three: the
first destination bit is 0 and should be 1. -/
theorem bitcpy_not_exact :
    Operands 16 0 0 2 2 1 3 ∧ ¬ ExactCopy displacedMem 16 0 0 2 1 := by
  refine ⟨⟨by decide, by decide, by decide, by decide, by decide⟩, ?_⟩
  intro hcopy
  have hfirst := hcopy 0 (by decide)
  revert hfirst
  decide

/-! ## The fallback by itself -/

/-- **The overlap fallback is a memmove on bits.** Inside one buffer whose bits
a `size_t` can number, the destination gets the old bits of the source, however
the two ranges lie, and nothing else changes. -/
theorem bitcpyOverlapFallback_moves {n buf srcBit dstBit B : Nat}
    (hs : srcBit + n ≤ 8 * B) (hd : dstBit + n ≤ 8 * B) (hsize : 8 * B ≤ 2 ^ 64)
    (m : Mem) :
    (∀ i < n, (bitcpyOverlapFallback m n buf srcBit buf dstBit).val.bit
        (8 * buf + dstBit + i) = m.bit (8 * buf + srcBit + i)) ∧
      ∀ p, p ∉ Set.Ico (8 * buf + dstBit) (8 * buf + dstBit + n) →
        (bitcpyOverlapFallback m n buf srcBit buf dstBit).val.bit p = m.bit p := by
  rw [fallback_bits (hd.trans hsize) (hs.trans hsize) (Or.inl rfl)]
  constructor
  · intro i hi
    exact copyRange_dst ⟨n, 8 * buf + dstBit, 8 * buf + srcBit⟩ m.bit hi
  · intro p hp
    exact copyRange_of_notMem _ hp

/-- Twelve bits moved up by five inside four bytes. -/
theorem bitcpyOverlapFallback_moves_up :
    (∀ i < 12, (bitcpyOverlapFallback displacedMem 12 0 3 0 8).val.bit (8 * 0 + 8 + i) =
        displacedMem.bit (8 * 0 + 3 + i)) ∧
      ∀ p, p ∉ Set.Ico (8 * 0 + 8) (8 * 0 + 8 + 12) →
        (bitcpyOverlapFallback displacedMem 12 0 3 0 8).val.bit p = displacedMem.bit p :=
  bitcpyOverlapFallback_moves (B := 4) (by decide) (by decide) (by decide) displacedMem

end SpaceVerifier.Runtime
