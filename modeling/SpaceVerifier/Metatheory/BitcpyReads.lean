import SpaceVerifier.Metatheory.BitcpyExact

/-!
# The bytes `bitcpy` reads

The trace of a copy is the list of byte addresses it loads, so the bytes read
on each path are computed exactly. The word loops load a second word in every
round, and a shifted byte is merged from two neighbours: in the last round
either may lie behind the source range, and nothing keeps it inside the buffer.
-/

namespace SpaceVerifier.Runtime

open Foundation Foundation.Traced

/-! ## The steps -/

theorem mem_trace_load {m : Mem} {i e : Nat} : e ∈ (load m i).trace ↔ e = i :=
  List.mem_singleton

theorem mem_trace_mergeBytes {left : Nat} {m : Mem} {p e : Nat} :
    e ∈ (mergeBytes left m p).trace ↔ e = p ∨ e = p + 1 := by
  unfold mergeBytes
  simp only [mem_trace_bind, mem_trace_load, trace_pure, List.not_mem_nil, or_false]

theorem mem_trace_moveBytes {c : Cursor} {e : Nat} :
    e ∈ (moveBytes c).trace ↔ c.src ≤ e ∧ e < c.src + c.nBits / 8 := by
  unfold moveBytes
  simp only
  split
  · simp only [mem_trace_bind, memmove, List.mem_range'_1, trace_pure, List.not_mem_nil,
      or_false]
  · next h0 =>
      simp only [trace_pure, List.not_mem_nil, false_iff]
      omega

theorem mem_trace_writeTail {c : Cursor} {value : Mem → Nat → Traced Nat Byte} {e : Nat} :
    e ∈ (writeTail c value).trace ↔
      c.nBits ≠ 0 ∧ (e = c.dst ∨ e ∈ (value c.mem c.src).trace) := by
  unfold writeTail
  by_cases h0 : c.nBits = 0
  · simp [h0]
  · rw [if_pos h0]
    simp only [mem_trace_bind, mem_trace_load, trace_pure, List.not_mem_nil, or_false, h0,
      not_false_eq_true, true_and, ne_eq]

theorem mem_trace_keepBits {m : Mem} {p e : Nat} {k : Byte} :
    e ∈ (do
      let v ← load m p
      return v &&& k : Traced Nat Byte).trace ↔ e = p := by
  simp only [mem_trace_bind, mem_trace_load, trace_pure, List.not_mem_nil, or_false]

theorem mem_trace_writeHead {c : Cursor} {dstMod step : Nat}
    {value : Mem → Nat → Traced Nat Byte} {e : Nat} :
    e ∈ (writeHead c dstMod value step).trace ↔
      e ∈ (value c.mem c.src).trace ∨ e = c.dst := by
  unfold writeHead
  simp only [mem_trace_bind, mem_trace_load, trace_pure, List.not_mem_nil, or_false]

/-! ## The loops -/

/-- A round that writes `w` bytes and reads the window of `2 * w` bytes behind
its source pointer. -/
structure Window (w : Nat) (body : Cursor → Traced Nat Cursor) : Prop where
  reads : ∀ c e, e ∈ (body c).trace ↔ c.src ≤ e ∧ e < c.src + 2 * w
  nBits : ∀ c, (body c).val.nBits = c.nBits - 8 * w
  src : ∀ c, (body c).val.src = c.src + w
  dst : ∀ c, (body c).val.dst = c.dst + w

theorem window_sameOffsetWord (srcMod : Nat) : Window 8 (sameOffsetWord srcMod) := by
  refine ⟨?_, fun _ => rfl, fun _ => rfl, fun _ => rfl⟩
  intro c e
  unfold sameOffsetWord
  simp only [mem_trace_bind, load64, List.mem_range'_1, trace_pure, List.not_mem_nil, or_false]
  omega

theorem window_slidingWord (left : Nat) : Window 8 (slidingWord left) := by
  refine ⟨?_, fun _ => rfl, fun _ => rfl, fun _ => rfl⟩
  intro c e
  unfold slidingWord
  simp only [mem_trace_bind, load64, List.mem_range'_1, trace_pure, List.not_mem_nil, or_false]
  omega

theorem window_slidingByte (left : Nat) : Window 1 (slidingByte left) := by
  refine ⟨?_, fun _ => rfl, fun _ => rfl, fun _ => rfl⟩
  intro c e
  unfold slidingByte
  simp only [mem_trace_bind, mem_trace_mergeBytes, trace_pure, List.not_mem_nil, or_false]
  omega

/-- What a loop of such rounds reads, and where it leaves the cursor. -/
theorem Window.loop {w : Nat} {body : Cursor → Traced Nat Cursor} (hb : Window w body)
    (hw : 0 < w) {fuel : Nat} {c : Cursor} (hfuel : c.nBits ≤ fuel) :
    (∀ e, e ∈ (whileLoop (fun c => decide (8 * w ≤ c.nBits)) body fuel c).trace ↔
      8 * w ≤ c.nBits ∧ c.src ≤ e ∧ e < c.src + w * (c.nBits / (8 * w)) + w) ∧
    (whileLoop (fun c => decide (8 * w ≤ c.nBits)) body fuel c).val.nBits =
      c.nBits % (8 * w) ∧
    (whileLoop (fun c => decide (8 * w ≤ c.nBits)) body fuel c).val.src =
      c.src + w * (c.nBits / (8 * w)) ∧
    (whileLoop (fun c => decide (8 * w ≤ c.nBits)) body fuel c).val.dst =
      c.dst + w * (c.nBits / (8 * w)) := by
  induction fuel generalizing c with
  | zero =>
      have h0 : c.nBits = 0 := by omega
      simp only [whileLoop, trace_pure, val_pure, h0, List.not_mem_nil, false_iff,
        Nat.zero_div, Nat.zero_mod, Nat.mul_zero, Nat.add_zero, and_self, and_true]
      intro e
      omega
  | succ fuel ih =>
      by_cases hc : 8 * w ≤ c.nBits
      · -- one round, then the loop on the rest
        obtain ⟨hreads, hbits, hsrc, hdst⟩ := ih (c := (body c).val) (by
          rw [hb.nBits]
          omega)
        have hdiv : c.nBits / (8 * w) = (c.nBits - 8 * w) / (8 * w) + 1 :=
          Nat.div_eq_sub_div (by omega) hc
        have hmod : c.nBits % (8 * w) = (c.nBits - 8 * w) % (8 * w) :=
          Nat.mod_eq_sub_mod hc
        rw [hb.nBits] at hreads hbits hsrc hdst
        rw [hb.src] at hreads hsrc
        rw [hb.dst] at hdst
        rw [hdiv, hmod, Nat.mul_succ]
        have hcond : decide (8 * w ≤ c.nBits) = true := by simpa using hc
        simp only [whileLoop, hcond, if_true, val_bind]
        refine ⟨?_, hbits, ?_, ?_⟩
        · intro e
          rw [mem_trace_bind, hb.reads, hreads]
          rcases Nat.lt_or_ge (c.nBits - 8 * w) (8 * w) with hlast | hmore
          · rw [Nat.div_eq_of_lt hlast, Nat.mul_zero]
            omega
          · have hk : w ≤ w * ((c.nBits - 8 * w) / (8 * w)) :=
              Nat.le_mul_of_pos_right w (Nat.div_pos hmore (by omega))
            omega
        · rw [hsrc]
          omega
        · rw [hdst]
          omega
      · have hcond : decide (8 * w ≤ c.nBits) = false := by simpa using hc
        have hdiv : c.nBits / (8 * w) = 0 := Nat.div_eq_of_lt (by omega)
        have hmod : c.nBits % (8 * w) = c.nBits := Nat.mod_eq_of_lt (by omega)
        rw [hdiv, hmod]
        simp only [whileLoop, hcond, Bool.false_eq_true, if_false, trace_pure, val_pure,
          List.not_mem_nil, false_iff, Nat.mul_zero, Nat.add_zero, and_self, and_true]
        intro e
        omega

theorem Window.wordLoop {body : Cursor → Traced Nat Cursor} (hb : Window 8 body)
    (c : Cursor) :
    (∀ e, e ∈ (whileLoop (fun c => decide (64 ≤ c.nBits)) body c.nBits c).trace ↔
      64 ≤ c.nBits ∧ c.src ≤ e ∧ e < c.src + 8 * (c.nBits / 64) + 8) ∧
    (whileLoop (fun c => decide (64 ≤ c.nBits)) body c.nBits c).val.nBits = c.nBits % 64 ∧
    (whileLoop (fun c => decide (64 ≤ c.nBits)) body c.nBits c).val.src =
      c.src + 8 * (c.nBits / 64) ∧
    (whileLoop (fun c => decide (64 ≤ c.nBits)) body c.nBits c).val.dst =
      c.dst + 8 * (c.nBits / 64) :=
  hb.loop (by decide) le_rfl

theorem Window.byteLoop {body : Cursor → Traced Nat Cursor} (hb : Window 1 body)
    (c : Cursor) :
    (∀ e, e ∈ (whileLoop (fun c => decide (8 ≤ c.nBits)) body c.nBits c).trace ↔
      8 ≤ c.nBits ∧ c.src ≤ e ∧ e < c.src + c.nBits / 8 + 1) ∧
    (whileLoop (fun c => decide (8 ≤ c.nBits)) body c.nBits c).val.nBits = c.nBits % 8 ∧
    (whileLoop (fun c => decide (8 ≤ c.nBits)) body c.nBits c).val.src =
      c.src + c.nBits / 8 ∧
    (whileLoop (fun c => decide (8 ≤ c.nBits)) body c.nBits c).val.dst =
      c.dst + c.nBits / 8 := by
  have h := hb.loop (by decide) (le_refl c.nBits)
  simpa only [Nat.mul_one, Nat.one_mul] using h

/-! ## The paths -/

theorem mem_trace_aligned {c : Cursor} {e : Nat} :
    e ∈ (bitcpyAligned c).trace ↔ (c.src ≤ e ∧ e < c.src + c.nBits / 8) ∨
      (c.nBits % 8 ≠ 0 ∧ (e = c.dst + c.nBits / 8 ∨ e = c.src + c.nBits / 8)) := by
  obtain ⟨hbits, hsrc, hdst⟩ := moveBytes_cursor c
  unfold bitcpyAligned
  rw [mem_trace_bind, mem_trace_moveBytes, mem_trace_writeTail, mem_trace_load, hbits, hsrc,
    hdst]

/-- `bitcpySameOffset` from the 64-bit loop on, with its reads. -/
def sameBody (srcMod : Nat) (c : Cursor) : Traced Nat Mem := do
  let c ← whileLoop (fun c => decide (64 ≤ c.nBits)) (sameOffsetWord srcMod) c.nBits c
  bitcpyAligned c

/-- `bitcpyDiffOffset` from the 64-bit loop on, with its reads. -/
def diffBody (left : Nat) (c : Cursor) : Traced Nat Mem := do
  let c ← whileLoop (fun c => decide (64 ≤ c.nBits)) (slidingWord left) c.nBits c
  let c ← whileLoop (fun c => decide (8 ≤ c.nBits)) (slidingByte left) c.nBits c
  writeTail c (mergeBytes left)

theorem mem_trace_sameBody {srcMod : Nat} {c : Cursor} {e : Nat} :
    e ∈ (sameBody srcMod c).trace ↔
      (64 ≤ c.nBits ∧ c.src ≤ e ∧ e < c.src + 8 * (c.nBits / 64) + 8) ∨
      (c.src + 8 * (c.nBits / 64) ≤ e ∧
        e < c.src + 8 * (c.nBits / 64) + c.nBits % 64 / 8) ∨
      (c.nBits % 64 % 8 ≠ 0 ∧ (e = c.dst + 8 * (c.nBits / 64) + c.nBits % 64 / 8 ∨
        e = c.src + 8 * (c.nBits / 64) + c.nBits % 64 / 8)) := by
  obtain ⟨hreads, hbits, hsrc, hdst⟩ := (window_sameOffsetWord srcMod).wordLoop c
  unfold sameBody
  rw [mem_trace_bind, mem_trace_aligned, hreads, hbits, hsrc, hdst]

theorem mem_trace_diffBody {left : Nat} {c : Cursor} {e : Nat} :
    e ∈ (diffBody left c).trace ↔
      (64 ≤ c.nBits ∧ c.src ≤ e ∧ e < c.src + 8 * (c.nBits / 64) + 8) ∨
      (8 ≤ c.nBits % 64 ∧ c.src + 8 * (c.nBits / 64) ≤ e ∧
        e < c.src + 8 * (c.nBits / 64) + c.nBits % 64 / 8 + 1) ∨
      (c.nBits % 64 % 8 ≠ 0 ∧ (e = c.dst + 8 * (c.nBits / 64) + c.nBits % 64 / 8 ∨
        e = c.src + 8 * (c.nBits / 64) + c.nBits % 64 / 8 ∨
        e = c.src + 8 * (c.nBits / 64) + c.nBits % 64 / 8 + 1)) := by
  obtain ⟨hreads, hbits, hsrc, hdst⟩ := (window_slidingWord left).wordLoop c
  obtain ⟨hreads', hbits', hsrc', hdst'⟩ := (window_slidingByte left).byteLoop
    (whileLoop (fun c : Cursor => decide (64 ≤ c.nBits)) (slidingWord left) c.nBits c).val
  unfold diffBody
  rw [mem_trace_bind, mem_trace_bind, mem_trace_writeTail, mem_trace_mergeBytes, hreads,
    hreads', hbits', hsrc', hdst', hbits, hsrc, hdst]

/-! ## How far the reads go -/

/-- The byte behind the source range is read although no bit of it is copied;
`left` is the offset of the source bits and `n` their number. -/
def PeeksAt (left n : Nat) : Prop :=
  (64 ≤ n ∧ left + n % 64 ≤ 56) ∨ (0 < left ∧ n % 8 ≠ 0 ∧ left + n % 8 ≤ 8)

instance (left n : Nat) : Decidable (PeeksAt left n) :=
  inferInstanceAs (Decidable (_ ∨ _))

/-- The bytes read: those of the two ranges and, after a peek, some behind the
source range, `8 * src + left + n` being its end. -/
def ReadsUpTo (left : Nat) (c : Cursor) (e : Nat) : Prop :=
  (c.src ≤ e ∧ 8 * e < 8 * c.src + left + c.nBits) ∨
  (c.dst ≤ e ∧ 8 * e < 8 * c.dst + c.nBits) ∨
  (PeeksAt left c.nBits ∧ 8 * c.src + left + c.nBits ≤ 8 * e ∧
    (8 * e < 8 * c.src + left + c.nBits + 8 ∨
      (64 ≤ c.nBits ∧ 8 * e < 8 * c.src + left + c.nBits + 64)))

theorem sameBody_reads {srcMod : Nat} {c : Cursor} {e : Nat}
    (he : e ∈ (sameBody srcMod c).trace) : ReadsUpTo 0 c e := by
  rw [mem_trace_sameBody] at he
  unfold ReadsUpTo PeeksAt
  omega

theorem sameBody_peeks {srcMod : Nat} {c : Cursor} (h : PeeksAt 0 c.nBits) :
    (8 * c.src + c.nBits + 7) / 8 ∈ (sameBody srcMod c).trace := by
  rw [mem_trace_sameBody]
  unfold PeeksAt at h
  omega

section Diff

variable {left : Nat} (h0 : 0 < left) (h8 : left < 8)
include h0 h8

theorem diffBody_reads {c : Cursor} {e : Nat} (he : e ∈ (diffBody left c).trace) :
    ReadsUpTo left c e := by
  rw [mem_trace_diffBody] at he
  unfold ReadsUpTo PeeksAt
  omega

theorem diffBody_peeks {c : Cursor} (h : PeeksAt left c.nBits) :
    (8 * c.src + left + c.nBits + 7) / 8 ∈ (diffBody left c).trace := by
  rw [mem_trace_diffBody]
  unfold PeeksAt at h
  omega

end Diff

/-! ## Behind the overlap check -/

/-- The reads of the fast path go behind the source range. -/
def Peeks (srcMod dstMod n : Nat) : Prop :=
  ¬ (srcMod = 0 ∧ dstMod = 0) ∧
    PeeksAt (if srcMod = dstMod then 0 else leftShift srcMod dstMod) (n - headBits dstMod)

instance (srcMod dstMod n : Nat) : Decidable (Peeks srcMod dstMod n) :=
  inferInstanceAs (Decidable (_ ∧ _))

/-- The bytes the fast path may read: those of the two ranges and, after a peek,
some behind the source range. -/
def CallReads (s d : Nat) (c : Cursor) (e : Nat) : Prop :=
  (c.src ≤ e ∧ 8 * e < 8 * c.src + s + c.nBits) ∨
  (c.dst ≤ e ∧ 8 * e < 8 * c.dst + d + c.nBits) ∨
  (Peeks s d c.nBits ∧ 8 * c.src + s + c.nBits ≤ 8 * e ∧
    (8 * e < 8 * c.src + s + c.nBits + 8 ∨
      (64 ≤ c.nBits ∧ 8 * e < 8 * c.src + s + c.nBits + 64)))

/-- What a cursor behind the head reads is what the whole call may read. -/
theorem ReadsUpTo.behind_head {s d left : Nat} {c c₁ : Cursor} {e : Nat}
    (h : ReadsUpTo left c₁ e) (hleft : left = if s = d then 0 else leftShift s d)
    (h0 : ¬ (s = 0 ∧ d = 0)) (hbits : c₁.nBits = c.nBits - headBits d)
    (hhead : headBits d ≤ c.nBits)
    (hsrc : 8 * c₁.src + left = 8 * c.src + s + headBits d)
    (hdst : 8 * c₁.dst = 8 * c.dst + d + headBits d) (hle : c.src ≤ c₁.src)
    (hle' : c.dst ≤ c₁.dst) :
    CallReads s d c e := by
  rcases h with h | h | ⟨hpeek, hfrom, hto⟩
  · left
    omega
  · right; left
    omega
  · right; right
    rw [hbits, hleft] at hpeek
    exact ⟨⟨h0, hpeek⟩, by omega, by omega⟩

section Fast

variable {s d : Nat} (hs : s < 8) (hd : d < 8) {c : Cursor} (hn : 8 ≤ c.nBits)
include hs hd hn

omit hs in
/-- The same-offset path is its head and `sameBody`. -/
theorem bitcpySameOffset_eq (h0 : 0 < d) : ∃ c₁ : Cursor,
    (∀ e, e ∈ (bitcpySameOffset c d d).trace ↔
      (e = c.src ∨ e = c.dst) ∨ e ∈ (sameBody d c₁).trace) ∧
    c₁.nBits = c.nBits - headBits d ∧ c₁.src = c.src + 1 ∧ c₁.dst = c.dst + 1 := by
  have hb : headBits d = 8 - d := if_neg (by omega)
  obtain ⟨hbits, hsrc, hdst⟩ := writeHead_cursor (c := c) (fun m p => do
    let v ← load m p
    return v &&& keepLo d) 1 (show 8 - d ≤ c.nBits by omega)
  refine ⟨_, ?_, hbits.trans (by rw [hb]), hsrc, hdst⟩
  intro e
  unfold bitcpySameOffset
  rw [if_pos (by omega), mem_trace_bind, mem_trace_writeHead, mem_trace_keepBits]
  exact Iff.rfl

/-- The different-offset path is its head, if there is one, and `diffBody`. -/
theorem bitcpyDiffOffset_eq (hne : s ≠ d) : ∃ c₁ : Cursor,
    (∀ e, e ∈ (bitcpyDiffOffset c s d).trace ↔
      (d ≠ 0 ∧ (e = c.src ∨ e = c.src + 1 ∨ e = c.dst)) ∨
        e ∈ (diffBody (leftShift s d) c₁).trace) ∧
    c₁.nBits = c.nBits - headBits d ∧
    8 * c₁.src + leftShift s d = 8 * c.src + s + headBits d ∧
    8 * c₁.dst = 8 * c.dst + d + headBits d ∧ c.src ≤ c₁.src ∧ c.dst ≤ c₁.dst := by
  by_cases h0 : d = 0
  · subst h0
    refine ⟨c, ?_, rfl, ?_, rfl, le_rfl, le_rfl⟩
    · intro e
      simp only [ne_eq, not_true_eq_false, false_and, false_or]
      exact Iff.rfl
    · rw [leftShift, if_pos (by omega)]
      rfl
  · have hb : headBits d = 8 - d := if_neg h0
    obtain ⟨hbits, hsrc, hdst⟩ := writeHead_cursor (c := c) (mergeBytes (leftShift s d))
      (if s > d then 1 else 0) (show 8 - d ≤ c.nBits by omega)
    refine ⟨_, ?_, hbits.trans (by rw [hb]), ?_, ?_, ?_, ?_⟩
    · intro e
      unfold bitcpyDiffOffset
      simp only [if_pos h0]
      rw [mem_trace_bind, mem_trace_writeHead, mem_trace_mergeBytes]
      simp only [h0, ne_eq, not_false_eq_true, true_and, or_assoc]
      exact Iff.rfl
    · rw [hsrc, leftShift, hb]
      split <;> omega
    · rw [hdst, hb]
      omega
    · rw [hsrc]
      exact Nat.le_add_right _ _
    · rw [hdst]
      exact Nat.le_add_right _ _

theorem fastPath_reads {e : Nat} (he : e ∈ (fastPath c s d).trace) :
    CallReads s d c e := by
  have hhead : headBits d ≤ 8 := by unfold headBits; split <;> omega
  unfold fastPath at he
  by_cases h0 : s = 0 ∧ d = 0
  · rw [if_pos h0, mem_trace_aligned] at he
    unfold CallReads
    omega
  rw [if_neg h0] at he
  by_cases heq : s = d
  · subst heq
    rw [if_pos rfl] at he
    have hb : headBits s = 8 - s := if_neg (by omega)
    obtain ⟨c₁, hreads, hbits, hsrc, hdst⟩ := bitcpySameOffset_eq hd hn (c := c) (by omega)
    rcases (hreads e).mp he with he | he
    · unfold CallReads
      omega
    · exact (sameBody_reads he).behind_head (if_pos rfl).symm h0 hbits (by omega) (by omega)
        (by omega) (by omega) (by omega)
  · rw [if_neg heq] at he
    obtain ⟨hl0, hl8⟩ := leftShift_bounds hs hd heq
    obtain ⟨c₁, hreads, hbits, hsrc, hdst, hle, hle'⟩ := bitcpyDiffOffset_eq hs hd hn heq
    rcases (hreads e).mp he with ⟨hd0, rfl | rfl | rfl⟩ | he
    · left
      omega
    · -- the second byte of the head's merge
      by_cases hin : 8 * (c.src + 1) < 8 * c.src + s + c.nBits
      · left
        omega
      · right; right
        have hb : headBits d = 8 - d := if_neg hd0
        refine ⟨⟨h0, ?_⟩, by omega, by omega⟩
        rw [if_neg heq, leftShift, if_neg (by omega), hb]
        unfold PeeksAt
        omega
    · right; left
      omega
    · exact (diffBody_reads hl0 hl8 he).behind_head (if_neg heq).symm h0 hbits (by omega) hsrc
        hdst hle hle'

/-- The byte behind the source range is read. -/
theorem fastPath_peeks (h : Peeks s d c.nBits) :
    (8 * c.src + s + c.nBits + 7) / 8 ∈ (fastPath c s d).trace := by
  have hhead : headBits d ≤ 8 := by unfold headBits; split <;> omega
  obtain ⟨h0, hpeek⟩ := h
  unfold fastPath
  rw [if_neg h0]
  by_cases heq : s = d
  · subst heq
    have hb : headBits s = 8 - s := if_neg (by omega)
    obtain ⟨c₁, hreads, hbits, hsrc, hdst⟩ := bitcpySameOffset_eq hd hn (c := c) (by omega)
    rw [if_pos rfl] at hpeek ⊢
    rw [hreads, show (8 * c.src + s + c.nBits + 7) / 8 = (8 * c₁.src + c₁.nBits + 7) / 8 by
      congr 1
      omega]
    right
    apply sameBody_peeks
    rw [hbits]
    exact hpeek
  · obtain ⟨hl0, hl8⟩ := leftShift_bounds hs hd heq
    obtain ⟨c₁, hreads, hbits, hsrc, hdst, -, -⟩ := bitcpyDiffOffset_eq hs hd hn heq
    rw [if_neg heq] at hpeek ⊢
    rw [hreads, show (8 * c.src + s + c.nBits + 7) / 8 =
        (8 * c₁.src + leftShift s d + c₁.nBits + 7) / 8 by
      congr 1
      omega]
    right
    apply diffBody_peeks hl0 hl8
    rw [hbits]
    exact hpeek

end Fast

/-! ## All calls -/

/-- Bit by bit, only bytes that hold a bit of one of the ranges are read. -/
theorem fallback_reads {m : Mem} {n src srcBit dst dstBit : Nat} (hs : srcBit + n < 2 ^ 64)
    (hd : dstBit + n < 2 ^ 64) :
    (bitcpyOverlapFallback m n src srcBit dst dstBit).All fun e =>
      ∃ i < n, e = src + (srcBit + i) / 8 ∨ e = dst + (dstBit + i) / 8 := by
  have hbody : ∀ i < n, ∀ m : Mem,
      (do
        let v ← bitGetPtr m src (add64 srcBit i)
        bitSetPtr m dst (add64 dstBit i) v : Traced Nat Mem).All fun e =>
          ∃ i < n, e = src + (srcBit + i) / 8 ∨ e = dst + (dstBit + i) / 8 := by
    intro i hi m e he
    rw [add64_of_lt (by omega), add64_of_lt (by omega), mem_trace_bind] at he
    refine ⟨i, hi, ?_⟩
    rcases he with he | he
    · left
      unfold bitGetPtr at he
      simpa only [mem_trace_bind, mem_trace_load, trace_pure, List.not_mem_nil,
        or_false] using he
    · right
      unfold bitSetPtr at he
      simpa only [mem_trace_bind, mem_trace_load, trace_pure, List.not_mem_nil,
        or_false] using he
  unfold bitcpyOverlapFallback
  simp only
  split
  · exact forUp_all hbody
  · exact forDown_all hbody

/-- Byte `i` holds a bit of the source range or of the destination range. -/
def HoldsOperandBit (n srcBit dstBit i : Nat) : Prop :=
  ∃ p, p / 8 = i ∧ (p ∈ Set.Ico srcBit (srcBit + n) ∨ p ∈ Set.Ico dstBit (dstBit + n))

/-- Every byte that the call reads lies in the buffer of `B` bytes and holds a
bit of one of its two ranges. -/
def ReadsOperands (m : Mem) (n buf srcBit dstBit B : Nat) : Prop :=
  ∀ e ∈ (bitcpy m n buf srcBit buf dstBit).trace, ∃ i < B, e = buf + i ∧
    HoldsOperandBit n srcBit dstBit i

/-- The calls inside one buffer that never look at a foreign byte: the bitwise
ones, those without a peek, and those whose destination begins in the very byte
that is peeked at. -/
def StaysInside (n srcBit dstBit : Nat) : Prop :=
  n < 8 ∨ (srcBit < dstBit + n ∧ dstBit < srcBit + n) ∨
    ¬ Peeks (srcBit % 8) (dstBit % 8) n ∨
    (srcBit + n ≤ dstBit ∧ dstBit < 8 * ((srcBit + n - 1) / 8 + 2))

instance (n srcBit dstBit : Nat) : Decidable (StaysInside n srcBit dstBit) :=
  inferInstanceAs (Decidable (_ ∨ _ ∨ _ ∨ _))

/-- A byte that starts before the end of a range and does not end before its
beginning holds a bit of it. -/
theorem byte_meets {lo len i : Nat} (hlo : lo / 8 ≤ i) (hhi : 8 * i < lo + len)
    (hlen : 0 < len) : ∃ p, p / 8 = i ∧ p ∈ Set.Ico lo (lo + len) := by
  refine ⟨max lo (8 * i), ?_, ?_⟩
  · omega
  · rw [Set.mem_Ico]
    omega

theorem holds_source {n srcBit dstBit i : Nat} (hlo : srcBit / 8 ≤ i)
    (hhi : 8 * i < srcBit + n) (hn : 0 < n) : HoldsOperandBit n srcBit dstBit i := by
  obtain ⟨p, hp, hmem⟩ := byte_meets hlo hhi hn
  exact ⟨p, hp, Or.inl hmem⟩

theorem holds_destination {n srcBit dstBit i : Nat} (hlo : dstBit / 8 ≤ i)
    (hhi : 8 * i < dstBit + n) (hn : 0 < n) : HoldsOperandBit n srcBit dstBit i := by
  obtain ⟨p, hp, hmem⟩ := byte_meets hlo hhi hn
  exact ⟨p, hp, Or.inr hmem⟩

section Buffer

variable {n buf srcBit dstBit B : Nat} (h : Operands n buf srcBit B buf dstBit B)
include h

theorem Operands.fallback_inside {m : Mem} {e : Nat}
    (he : e ∈ (bitcpyOverlapFallback m n buf srcBit buf dstBit).trace) :
    ∃ i < B, e = buf + i ∧ HoldsOperandBit n srcBit dstBit i := by
  have h₁ := h.src_in
  have h₂ := h.dst_in
  have h₃ := h.src_size
  obtain ⟨i, hi, he | he⟩ := fallback_reads (by omega) (by omega) e he
  · exact ⟨_, by omega, he, srcBit + i, rfl, Or.inl ⟨by omega, by omega⟩⟩
  · exact ⟨_, by omega, he, dstBit + i, rfl, Or.inr ⟨by omega, by omega⟩⟩

/-- Behind the two early exits the overlap check decides the path. -/
theorem Operands.bitcpy_path (m : Mem) (hn : 8 ≤ n) (hne : srcBit ≠ dstBit) :
    bitcpy m n buf srcBit buf dstBit =
      if srcBit < dstBit + n ∧ dstBit < srcBit + n then
        bitcpyOverlapFallback m n buf srcBit buf dstBit
      else fastPath ⟨n, buf + srcBit / 8, buf + dstBit / 8, m⟩ (srcBit % 8) (dstBit % 8) := by
  have h₁ := h.src_in
  have h₂ := h.dst_in
  have h₃ := h.src_size
  rw [bitcpy_eq, if_neg (by omega), if_neg (by omega), add64_of_lt (by omega),
    add64_of_lt (by omega)]
  simp only [show ¬ n < 8 by omega, false_or, true_and]

theorem Operands.reads_inside (hin : StaysInside n srcBit dstBit) (m : Mem) :
    ReadsOperands m n buf srcBit dstBit B := by
  intro e he
  have h₁ := h.src_in
  have h₂ := h.dst_in
  by_cases hsmall : n < 8
  · rw [bitcpy_eq] at he
    split at he
    · exact absurd he List.not_mem_nil
    · split at he
      · exact absurd he List.not_mem_nil
      · rw [if_pos (Or.inl hsmall)] at he
        exact h.fallback_inside he
  have hn : 8 ≤ n := by omega
  by_cases heq : srcBit = dstBit
  · rw [bitcpy_eq, if_neg (by omega), if_pos ⟨rfl, heq⟩] at he
    exact absurd he List.not_mem_nil
  rw [h.bitcpy_path m hn heq] at he
  by_cases hover : srcBit < dstBit + n ∧ dstBit < srcBit + n
  · rw [if_pos hover] at he
    exact h.fallback_inside he
  rw [if_neg hover] at he
  have hreads := fastPath_reads (Nat.mod_lt srcBit (by decide)) (Nat.mod_lt dstBit (by decide))
    hn he
  simp only [CallReads] at hreads
  -- the byte as an index into the buffer
  obtain ⟨i, rfl⟩ : ∃ i, e = buf + i := ⟨e - buf, by omega⟩
  rcases hreads with hr | hr | ⟨hpeek, hfrom, hto⟩
  · exact ⟨i, by omega, rfl, holds_source (by omega) (by omega) (by omega)⟩
  · exact ⟨i, by omega, rfl, holds_destination (by omega) (by omega) (by omega)⟩
  · -- a peek is harmless only in front of the destination
    have hnear := ((hin.resolve_left hsmall).resolve_left hover).resolve_left
      (not_not.mpr hpeek)
    exact ⟨i, by omega, rfl, holds_destination (by omega) (by omega) (by omega)⟩

theorem Operands.reads_outside (hout : ¬ StaysInside n srcBit dstBit) (m : Mem) :
    ¬ ReadsOperands m n buf srcBit dstBit B := by
  intro hreads
  simp only [StaysInside, not_or, not_not] at hout
  obtain ⟨hsmall, hover, hpeek, hfar⟩ := hout
  have h₁ := h.src_in
  have h₂ := h.dst_in
  have hmem := fastPath_peeks (Nat.mod_lt srcBit (by decide)) (Nat.mod_lt dstBit (by decide))
    (c := ⟨n, buf + srcBit / 8, buf + dstBit / 8, m⟩) (Nat.not_lt.mp hsmall) hpeek
  have hpath := h.bitcpy_path m (by omega) (by omega)
  rw [if_neg hover] at hpath
  rw [← hpath] at hmem
  obtain ⟨i, -, hi, p, hp, hrange⟩ := hreads _ hmem
  simp only [Set.mem_Ico] at hi hrange
  omega

end Buffer

/-- **Exactly when `bitcpy` reads only its operands.** Inside one buffer, every
byte the call reads lies in the buffer and holds a bit of one of the two ranges
if and only if the call looks at no foreign byte behind its source. -/
theorem bitcpy_reads_iff {n buf srcBit dstBit B : Nat}
    (h : Operands n buf srcBit B buf dstBit B) (m : Mem) :
    ReadsOperands m n buf srcBit dstBit B ↔ StaysInside n srcBit dstBit := by
  constructor
  · intro hreads
    by_contra hout
    exact h.reads_outside hout m hreads
  · intro hin
    exact h.reads_inside hin m

/-- Ten bits from bit 3 to bit 69 of a buffer of sixteen bytes. -/
theorem bitcpy_reads_iff_small : Operands 10 0 3 16 0 69 16 ∧ ∀ m,
    ReadsOperands m 10 0 3 69 16 :=
  have h : Operands 10 0 3 16 0 69 16 :=
    ⟨by decide, by decide, by decide, by decide, by decide⟩
  ⟨h, fun m => (bitcpy_reads_iff h m).mpr (by decide)⟩

/-- The last eight bits of a buffer of sixteen bytes, copied to bit 1: the head
merges the byte behind the buffer. -/
theorem bitcpy_reads_behind :
    Operands 8 0 120 16 0 1 16 ∧ ¬ ReadsOperands (fun _ => 0) 8 0 120 1 16 := by
  refine ⟨⟨by decide, by decide, by decide, by decide, by decide⟩, ?_⟩
  intro hreads
  obtain ⟨i, hi, heq, -⟩ := hreads 16 (by decide)
  omega

end SpaceVerifier.Runtime
