import SpaceVerifier.Runtime.Space
import Mathlib.Data.Nat.Log
import Mathlib.Tactic.Ring

/-!
# What `vm_init` promises

The widths and the layout of an accepted machine are computed once. `Wf`
collects what every later argument uses: exact products and sums (none of them
has wrapped), byte alignment, and the place of each MMIO register.
-/

namespace SpaceVerifier.Runtime

open Foundation

/-! ## `ceil_log2_u64` -/

/-- Once the power has wrapped to zero the loop does not end. -/
theorem ceilLog2Loop_zero {x : Nat} (hx : 0 < x) (fuel k : Nat) :
    ceilLog2Loop x fuel k 0 = none := by
  induction fuel generalizing k with
  | zero => rfl
  | succ fuel ih =>
      rw [ceilLog2Loop, if_pos hx]
      exact ih (k + 1)

theorem shiftLeft_one_mod {p k : Nat} (h : p = 2 ^ k % 2 ^ 64) :
    (p <<< 1) % 2 ^ 64 = 2 ^ (k + 1) % 2 ^ 64 := by
  rw [h, Nat.shiftLeft_eq, pow_one, Nat.mod_mul_mod, ← pow_succ]

/-- The loop from `p = 2^k` on: it stops at the least sufficient power, or it
runs past `2^63` and never stops. -/
theorem ceilLog2Loop_eq {x fuel k : Nat} (hk : k ≤ Nat.clog 2 x)
    (hfuel : 65 < fuel + k) :
    ceilLog2Loop x fuel k (2 ^ k % 2 ^ 64) =
      if Nat.clog 2 x < 64 then some (Nat.clog 2 x) else none := by
  induction fuel generalizing k with
  | zero =>
      rw [ceilLog2Loop, if_neg (by omega)]
  | succ fuel ih =>
      rw [ceilLog2Loop, shiftLeft_one_mod rfl]
      rcases Nat.lt_or_ge k 64 with hk64 | hk64
      · -- the word still holds the power itself
        rw [Nat.mod_eq_of_lt (Nat.pow_lt_pow_right (by decide) hk64)]
        rcases Nat.lt_or_ge (2 ^ k) x with hlt | hle
        · rw [if_pos hlt]
          exact ih ((Nat.lt_clog_iff_pow_lt (by decide)).mpr hlt) (by omega)
        · have hclog : Nat.clog 2 x ≤ k := Nat.clog_le_of_le_pow hle
          rw [if_neg (by omega), if_pos (by omega), Nat.le_antisymm hclog hk]
      · -- the power has left the word: `p` is zero from here on
        have hx : 0 < x := by
          by_contra hx
          rw [show x = 0 by omega, Nat.clog_zero_right] at hk
          omega
        have hzero : 2 ^ k % 2 ^ 64 = 0 :=
          Nat.mod_eq_zero_of_dvd (Nat.pow_dvd_pow 2 hk64)
        have hzero' : 2 ^ (k + 1) % 2 ^ 64 = 0 :=
          Nat.mod_eq_zero_of_dvd (Nat.pow_dvd_pow 2 (by omega))
        rw [hzero, hzero', if_pos hx, ceilLog2Loop_zero hx, if_neg (by omega)]

theorem ceilLog2U64_eq (x : Nat) :
    ceilLog2U64 x = if Nat.clog 2 x < 64 then some (Nat.clog 2 x) else none :=
  ceilLog2Loop_eq (Nat.zero_le _) (by decide)

theorem ceilLog2U64_eq_some {x raw : Nat} (h : ceilLog2U64 x = some raw) :
    raw = Nat.clog 2 x ∧ raw < 64 := by
  rw [ceilLog2U64_eq] at h
  split at h
  · next hlt =>
      obtain rfl := Option.some.inj h
      exact ⟨rfl, hlt⟩
  · cases h

theorem roundUpTo8_eq {x : Nat} (h : x < 64) : roundUpTo8 x = (x + 7) / 8 * 8 := by
  unfold roundUpTo8
  simp only [show (x + 7) % 2 ^ 32 = x + 7 by omega]
  omega

/-! ## Well-formed geometry -/

/-- The address width the runtime derives for a space of `spaceBits` bits. -/
def addrWidth (spaceBits : Nat) : Nat := max 8 ((Nat.clog 2 spaceBits + 7) / 8 * 8)

theorem le_two_pow_addrWidth (spaceBits : Nat) :
    spaceBits ≤ 2 ^ addrWidth spaceBits := by
  have hclog : Nat.clog 2 spaceBits ≤ addrWidth spaceBits := by
    unfold addrWidth
    omega
  exact (Nat.clog_le_iff_le_pow (by decide)).mp hclog

/-- The addresses of the MMIO registers behind a processor area of `p` bits,
with fields of `a` bits. -/
def mmioAt (p a : Nat) : MmioLayout :=
  { base := p, inReq := p, inDone := p + 1, inEof := p + 2, inErr := p + 3
    inDst := p + 4, inLen := p + 4 + a, inGot := p + 4 + 2 * a
    outReq := p + 4 + 3 * a, outDone := p + 5 + 3 * a, outErr := p + 6 + 3 * a
    outSrc := p + 7 + 3 * a, outLen := p + 7 + 4 * a, outGot := p + 7 + 5 * a
    halt := p + 7 + 6 * a, endBit := p + 8 + 6 * a }

/-- The geometry of an accepted machine. -/
structure VmGeometry.Wf (g : VmGeometry) : Prop where
  spaceBits_eq : g.spaceBits = 8 * g.spaceBytes
  spaceBits_le : g.spaceBits ≤ 2 ^ 63
  processorN_pos : 0 < g.processorN
  processorN_lt : g.processorN < 2 ^ 32
  addrBits_eq : g.addrBits = addrWidth g.spaceBits
  addrBits_le : g.addrBits ≤ 64
  nBits_eq : g.nBits = g.addrBits
  instrBits_eq : g.instrBits = 3 * g.addrBits
  processorStart_eq : g.processorStart = 0
  processorBits_eq : g.processorBits = g.processorN * (3 * g.addrBits)
  offN_eq : g.offN = 0
  offDst_eq : g.offDst = g.addrBits
  offSrc_eq : g.offSrc = 2 * g.addrBits
  mmio_eq : g.mmio = mmioAt g.processorBits g.addrBits
  workspaceBase_eq : g.workspaceBase = g.processorBits + 8 + 6 * g.addrBits
  workspaceBase_le : g.workspaceBase ≤ g.spaceBits

namespace VmGeometry.Wf

variable {g : VmGeometry} (h : g.Wf)
include h

theorem dvd_addrBits : 8 ∣ g.addrBits := by
  rw [h.addrBits_eq, addrWidth]
  omega

theorem addrBits_ge : 8 ≤ g.addrBits := by
  rw [h.addrBits_eq, addrWidth]
  omega

theorem spaceBits_le_pow : g.spaceBits ≤ 2 ^ g.addrBits := by
  rw [h.addrBits_eq]
  exact le_two_pow_addrWidth g.spaceBits

theorem dvd_processorBits : 24 ∣ g.processorBits := by
  obtain ⟨k, hk⟩ := h.dvd_addrBits
  rw [h.processorBits_eq, hk]
  exact ⟨g.processorN * k, by ring⟩

/-- One slot fits into the processor area. -/
theorem instrBits_le_processorBits : 3 * g.addrBits ≤ g.processorBits := by
  rw [h.processorBits_eq]
  exact Nat.le_mul_of_pos_left _ h.processorN_pos

/-- Slot `i` lies inside the processor area. -/
theorem slot_le {i : Nat} (hi : i < g.processorN) :
    i * (3 * g.addrBits) + 3 * g.addrBits ≤ g.processorBits := by
  rw [h.processorBits_eq, ← Nat.succ_mul]
  exact Nat.mul_le_mul_right _ hi

theorem processorBits_le : g.processorBits ≤ g.workspaceBase := by
  have hbase := h.workspaceBase_eq
  omega

end VmGeometry.Wf

/-- Every register of a layout lies in `[lo, hi)`; the fields have `a` bits. -/
structure MmioLayout.Within (l : MmioLayout) (a lo hi : Nat) : Prop where
  inReq : lo ≤ l.inReq ∧ l.inReq < hi
  inDone : lo ≤ l.inDone ∧ l.inDone < hi
  inEof : lo ≤ l.inEof ∧ l.inEof < hi
  inErr : lo ≤ l.inErr ∧ l.inErr < hi
  inDst : lo ≤ l.inDst ∧ l.inDst + a ≤ hi
  inLen : lo ≤ l.inLen ∧ l.inLen + a ≤ hi
  inGot : lo ≤ l.inGot ∧ l.inGot + a ≤ hi
  outReq : lo ≤ l.outReq ∧ l.outReq < hi
  outDone : lo ≤ l.outDone ∧ l.outDone < hi
  outErr : lo ≤ l.outErr ∧ l.outErr < hi
  outSrc : lo ≤ l.outSrc ∧ l.outSrc + a ≤ hi
  outLen : lo ≤ l.outLen ∧ l.outLen + a ≤ hi
  outGot : lo ≤ l.outGot ∧ l.outGot + a ≤ hi
  halt : lo ≤ l.halt ∧ l.halt < hi

/-- The registers lie between the processor area and the workspace. -/
theorem VmGeometry.Wf.within {g : VmGeometry} (h : g.Wf) :
    g.mmio.Within g.addrBits g.processorBits g.workspaceBase := by
  rw [h.mmio_eq, h.workspaceBase_eq]
  constructor <;> (simp only [mmioAt]; omega)

/-! ## The layout computation -/

theorem vmComputeMmioLayout_eq {g : VmGeometry} (hn : g.nBits = g.addrBits)
    (ha : g.addrBits ≤ 64) (hdvd : 8 ∣ g.addrBits) (hp : g.processorBits ≤ 2 ^ 63)
    (hpdvd : 8 ∣ g.processorBits) :
    vmComputeMmioLayout g =
      { g with mmio := mmioAt g.processorBits g.addrBits
               workspaceBase := g.processorBits + 8 + 6 * g.addrBits } := by
  have hadd : ∀ {a b : Nat}, a + b ≤ 2 ^ 63 + 400 → add64 a b = a + b :=
    fun hab => add64_of_lt (by omega)
  unfold vmComputeMmioLayout mmioAt
  simp (disch := omega) only [hn, hadd]
  congr 2 <;> omega

/-- No product or sum of the width computation wraps. -/
theorem vmDeriveWidths_eq {S P raw a : Nat} (hS : 8 * S < 2 ^ 64)
    (hP : P < 2 ^ 32) (hraw : raw < 64) (ha : a = max 8 ((raw + 7) / 8 * 8)) :
    vmDeriveWidths S P raw =
      { VmGeometry.zero with
        spaceBytes := S, spaceBits := 8 * S, processorN := P
        addrBits := a, nBits := a, instrBits := 3 * a
        instrBytes := 3 * a / 8, processorStart := 0
        processorBits := P * (3 * a)
        offN := 0, offDst := a, offSrc := 2 * a } := by
  have ha64 : a ≤ 64 := by omega
  have haddr : (if roundUpTo8 raw < 8 then 8 else roundUpTo8 raw) = a := by
    rw [roundUpTo8_eq hraw, ha]
    split <;> omega
  have hbits : S * 8 % 2 ^ 64 = 8 * S := by
    rw [Nat.mul_comm, Nat.mod_eq_of_lt hS]
  have hinstr : 3 * a % 2 ^ 32 = 3 * a := Nat.mod_eq_of_lt (by omega)
  have hproc : P * (3 * a) % 2 ^ 64 = P * (3 * a) := by
    refine Nat.mod_eq_of_lt ?_
    calc P * (3 * a) ≤ 2 ^ 32 * (3 * 64) := Nat.mul_le_mul hP.le (by omega)
      _ < 2 ^ 64 := by decide
  have hoff : (a + a) % 2 ^ 32 = 2 * a := by
    rw [Nat.mod_eq_of_lt (by omega)]
    omega
  unfold vmDeriveWidths
  simp only [haddr, hbits, hinstr, hproc, hoff]

/-! ## Accepted machines -/

/-- `vm_init` was called with a `size_t` and an `unsigned` and returned 0. -/
structure Accepted (calloc : Nat → Bool) (S P : Nat) (vm : Vm) : Prop where
  spaceBytes_lt : S < 2 ^ 64
  processorN_lt : P < 2 ^ 32
  init : vmInit calloc S P = some (0, vm)

/-- The host has fewer than `limit` bytes to give away. -/
def CallocLimit (calloc : Nat → Bool) (limit : Nat) : Prop :=
  ∀ bytes, limit ≤ bytes → calloc bytes = false

/-- The branches of `vm_init` that lead to the result 0. -/
theorem vmInit_eq_some_zero {calloc : Nat → Bool} {S P : Nat} {vm : Vm}
    (h : vmInit calloc S P = some (0, vm)) :
    0 < P ∧ calloc S = true ∧
    ∃ raw, ceilLog2U64 (S * 8 % 2 ^ 64) = some raw ∧
      (vmDeriveWidths S P raw).processorBits ≤ S * 8 % 2 ^ 64 ∧
      (vmComputeMmioLayout (vmDeriveWidths S P raw)).mmio.endBit ≤
        S * 8 % 2 ^ 64 ∧
      vm = { Vm.zero with
        toVmGeometry := vmComputeMmioLayout (vmDeriveWidths S P raw)
        space := some fun _ => 0 } := by
  unfold vmInit at h
  by_cases hS : S = 0
  · simp [hS] at h
  by_cases hP : P = 0
  · simp [hS, hP] at h
  cases hc : calloc S with
  | false => simp [hS, hP, hc] at h
  | true =>
      cases hraw : ceilLog2U64 (S * 8 % 2 ^ 64) with
      | none =>
          simp only [hS, hP, hc, hraw, if_false, Bool.not_true,
            Bool.false_eq_true] at h
          cases h
      | some raw =>
          simp only [hS, hP, hc, hraw, if_false, Bool.not_true,
            Bool.false_eq_true] at h
          split at h
          · simp at h
          · next hfit =>
              split at h
              · simp at h
              · next hend =>
                  obtain ⟨-, rfl⟩ := Prod.mk.inj (Option.some.inj h)
                  exact ⟨Nat.pos_of_ne_zero hP, rfl, raw, rfl,
                    not_lt.mp hfit, not_lt.mp hend, rfl⟩

/-- **An accepted machine is well formed**, provided the host cannot give away
so many bytes that their number of bits overflows. -/
theorem Accepted.wf {calloc : Nat → Bool} {S P : Nat} {vm : Vm}
    (h : Accepted calloc S P vm) (hlimit : CallocLimit calloc (2 ^ 61)) :
    vm.toVmGeometry.Wf ∧ vm.spaceBytes = S ∧ vm.processorN = P := by
  obtain ⟨hP, hc, raw, hraw, hfit, hend, rfl⟩ := vmInit_eq_some_zero h.init
  have hS : S < 2 ^ 61 := by
    by_contra hge
    rw [hlimit S (not_lt.mp hge)] at hc
    cases hc
  rw [show S * 8 % 2 ^ 64 = 8 * S by omega] at hraw hfit hend
  obtain ⟨hclog, hraw64⟩ := ceilLog2U64_eq_some hraw
  have hle : 8 * S ≤ 2 ^ 63 :=
    (Nat.clog_le_iff_le_pow (by decide)).mp (by omega)
  have ha : addrWidth (8 * S) = max 8 ((raw + 7) / 8 * 8) := by
    rw [addrWidth, hclog]
  have ha64 : addrWidth (8 * S) ≤ 64 := by omega
  have hdvd : 8 ∣ addrWidth (8 * S) := by omega
  rw [vmDeriveWidths_eq (by omega) h.processorN_lt hraw64 ha] at hfit hend ⊢
  have hpdvd : 8 ∣ P * (3 * addrWidth (8 * S)) :=
    (hdvd.mul_left 3).mul_left P
  rw [vmComputeMmioLayout_eq rfl ha64 hdvd (hfit.trans hle) hpdvd] at hend ⊢
  refine ⟨?_, rfl, rfl⟩
  exact
    { spaceBits_eq := rfl
      spaceBits_le := hle
      processorN_pos := hP
      processorN_lt := h.processorN_lt
      addrBits_eq := rfl
      addrBits_le := ha64
      nBits_eq := rfl
      instrBits_eq := rfl
      processorStart_eq := rfl
      processorBits_eq := rfl
      offN_eq := rfl
      offDst_eq := rfl
      offSrc_eq := rfl
      mmio_eq := rfl
      workspaceBase_eq := rfl
      workspaceBase_le := hend }

theorem CallocLimit.mono {calloc : Nat → Bool} {l l' : Nat}
    (h : CallocLimit calloc l) (hl : l ≤ l') : CallocLimit calloc l' :=
  fun bytes hb => h bytes (hl.trans hb)

/-! ## The smallest machines

Sixteen bytes of space and one slot: 24 bits of code, 56 bits of MMIO and a
workspace of 48 bits. -/

/-- A host with 2^48 bytes. -/
def hostCalloc (bytes : Nat) : Bool := decide (bytes < 2 ^ 48)

theorem hostCalloc_limit : CallocLimit hostCalloc (2 ^ 48) := by
  intro bytes hb
  simpa [hostCalloc] using hb

def smallGeometry : VmGeometry :=
  { spaceBytes := 16, spaceBits := 128, processorN := 1, addrBits := 8, nBits := 8
    instrBits := 24, instrBytes := 3, processorStart := 0, processorBits := 24
    offN := 0, offDst := 8, offSrc := 16, mmio := mmioAt 24 8, workspaceBase := 80 }

def smallVm : Vm :=
  { Vm.zero with toVmGeometry := smallGeometry, space := some fun _ => 0 }

theorem smallVm_accepted : Accepted hostCalloc 16 1 smallVm :=
  ⟨by decide, by decide, rfl⟩

/-- Thirty-two bytes of space and `P` slots of 24 bits. -/
def bootVm (P : Nat) : Vm :=
  { Vm.zero with
    toVmGeometry :=
      { smallGeometry with
        spaceBytes := 32, spaceBits := 256, processorN := P, processorBits := P * 24
        mmio := mmioAt (P * 24) 8, workspaceBase := P * 24 + 56 }
    space := some fun _ => 0 }

theorem bootVm_accepted : Accepted hostCalloc 32 2 (bootVm 2) ∧
    Accepted hostCalloc 32 3 (bootVm 3) :=
  ⟨⟨by decide, by decide, rfl⟩, ⟨by decide, by decide, rfl⟩⟩

end SpaceVerifier.Runtime
