import SpaceVerifier.Foundation.Interval
import SpaceVerifier.Metatheory.Geometry

/-!
# `vm_init` establishes the layout or leaves nothing behind

`InitLayout` states the layout by what it is for: the least sufficient address
width, and the processor area and the registers one behind the other without a
gap. `vm_init` computes it from running offsets, and refuses exactly when it
cannot be had.
-/

namespace SpaceVerifier.Runtime

open Foundation

/-! ## The layout -/

/-- The MMIO registers in the order of their declaration, with their widths. -/
def VmGeometry.registers (g : VmGeometry) : List (Nat × Nat) :=
  [(g.mmio.inReq, 1), (g.mmio.inDone, 1), (g.mmio.inEof, 1), (g.mmio.inErr, 1),
    (g.mmio.inDst, g.addrBits), (g.mmio.inLen, g.nBits), (g.mmio.inGot, g.nBits),
    (g.mmio.outReq, 1), (g.mmio.outDone, 1), (g.mmio.outErr, 1),
    (g.mmio.outSrc, g.addrBits), (g.mmio.outLen, g.nBits), (g.mmio.outGot, g.nBits),
    (g.mmio.halt, 1)]

/-- The processor area and the registers behind it. -/
def VmGeometry.areas (g : VmGeometry) : List (Nat × Nat) :=
  (g.processorStart, g.processorBits) :: g.registers

/-- The widths that address a space of `spaceBits` bits in whole bytes. -/
def AddressWidths (spaceBits : Nat) : Set Nat :=
  {a | 8 ∣ a ∧ 8 ≤ a ∧ spaceBits ≤ 2 ^ a}

/-- The layout of a machine with `S` bytes and `P` slots. -/
structure InitLayout (S P : Nat) (g : VmGeometry) : Prop where
  spaceBits : g.spaceBits = 8 * S
  addrBits : IsLeast (AddressWidths (8 * S)) g.addrBits
  nBits : g.nBits = g.addrBits
  processorStart : g.processorStart = 0
  processorBits : g.processorBits = 3 * g.addrBits * P
  processorBits_lt : g.processorBits < 2 ^ g.nBits
  contiguous : Contiguous g.areas
  disjoint : g.areas.Pairwise fun r r' => Disjoint (fieldSpan r) (fieldSpan r')
  workspaceBase : g.workspaceBase = g.mmio.endBit
  endBit_dvd : 8 ∣ g.mmio.endBit
  endBit_ge : g.mmio.halt + 1 ≤ g.mmio.endBit
  endBit_lt : g.mmio.endBit < g.mmio.halt + 1 + 8
  fits : g.mmio.endBit ≤ g.spaceBits

/-- `vm_init` comes to its `calloc` and the host grants the block. -/
def Allocates (calloc : Nat → Bool) (S P : Nat) : Prop :=
  S ≠ 0 ∧ P ≠ 0 ∧ calloc S = true

/-! ## The least address width -/

theorem isLeast_addrWidth (spaceBits : Nat) :
    IsLeast (AddressWidths spaceBits) (addrWidth spaceBits) := by
  constructor
  · refine ⟨?_, ?_, le_two_pow_addrWidth spaceBits⟩
    · unfold addrWidth
      omega
    · unfold addrWidth
      omega
  · rintro a ⟨hdvd, hge, hpow⟩
    have hclog : Nat.clog 2 spaceBits ≤ a := Nat.clog_le_of_le_pow hpow
    unfold addrWidth
    omega

/-! ## The layout in closed form -/

theorem contiguous_areas {g : VmGeometry} (hn : g.nBits = g.addrBits)
    (hstart : g.processorStart = 0) (hmmio : g.mmio = mmioAt g.processorBits g.addrBits) :
    Contiguous g.areas := by
  unfold Contiguous VmGeometry.areas VmGeometry.registers
  simp only [List.isChain_cons_cons, List.isChain_singleton, hn, hstart, hmmio, mmioAt,
    and_true, true_and]
  omega

/-- A well-formed geometry is the layout. -/
theorem VmGeometry.Wf.initLayout {g : VmGeometry} (hg : g.Wf) :
    InitLayout g.spaceBytes g.processorN g := by
  have hproc := hg.processorBits_eq
  have hbase := hg.workspaceBase_eq
  have hfit := hg.workspaceBase_le
  have hpow := hg.spaceBits_le_pow
  have hcontiguous := contiguous_areas hg.nBits_eq hg.processorStart_eq hg.mmio_eq
  have hend : g.mmio.endBit = g.workspaceBase := by
    rw [hg.mmio_eq, hbase, mmioAt]
  have hhalt : g.mmio.halt + 1 = g.workspaceBase := by
    rw [hg.mmio_eq, hbase]
    simp only [mmioAt]
    omega
  have hdvd : 8 ∣ g.workspaceBase := by
    obtain ⟨k, hk⟩ := hg.dvd_processorBits
    obtain ⟨l, hl⟩ := hg.dvd_addrBits
    omega
  exact
    { spaceBits := hg.spaceBits_eq
      addrBits := by
        rw [hg.addrBits_eq, hg.spaceBits_eq]
        exact isLeast_addrWidth _
      nBits := hg.nBits_eq
      processorStart := hg.processorStart_eq
      processorBits := by rw [hproc, Nat.mul_comm]
      processorBits_lt := by
        rw [hg.nBits_eq]
        omega
      contiguous := hcontiguous
      disjoint := hcontiguous.pairwise_disjoint
      workspaceBase := hend.symm
      endBit_dvd := hend ▸ hdvd
      endBit_ge := by omega
      endBit_lt := by omega
      fits := by omega }

/-- Where every such layout ends. -/
theorem InitLayout.endBit_eq {S P : Nat} {g : VmGeometry} (h : InitLayout S P g) :
    g.mmio.endBit = P * (3 * addrWidth (8 * S)) + 8 + 6 * addrWidth (8 * S) := by
  have haddr : g.addrBits = addrWidth (8 * S) := h.addrBits.unique (isLeast_addrWidth _)
  have hchain := h.contiguous
  have hproc : g.processorBits = P * (3 * addrWidth (8 * S)) := by
    rw [h.processorBits, haddr, Nat.mul_comm]
  obtain ⟨k, hk⟩ := h.addrBits.1.1
  have hdvd : 8 ∣ g.processorBits := by
    rw [h.processorBits, hk]
    exact ((Nat.dvd_mul_right 8 k).mul_left 3).mul_right P
  have hend := h.endBit_dvd
  have hge := h.endBit_ge
  have hlt := h.endBit_lt
  unfold Contiguous VmGeometry.areas VmGeometry.registers at hchain
  simp only [List.isChain_cons_cons, List.isChain_singleton, and_true, h.nBits,
    h.processorStart] at hchain
  rw [← haddr] at hproc ⊢
  omega

/-! ## `vm_init` -/

/-- A granted block: the two sanity checks decide, and they are one. -/
theorem vmInit_allocated {calloc : Nat → Bool} {S P : Nat} (h : Allocates calloc S P)
    (hS : S < 2 ^ 60) (hP : P < 2 ^ 32) :
    (8 * S < P * (3 * addrWidth (8 * S)) + 8 + 6 * addrWidth (8 * S) →
        vmInit calloc S P = some (-1, Vm.zero)) ∧
      (P * (3 * addrWidth (8 * S)) + 8 + 6 * addrWidth (8 * S) ≤ 8 * S →
        ∃ vm, vmInit calloc S P = some (0, vm)) := by
  obtain ⟨hS0, hP0, hgrant⟩ := h
  have hclog : Nat.clog 2 (8 * S) ≤ 63 := Nat.clog_le_of_le_pow (by omega)
  have hraw : ceilLog2U64 (S * 8 % 2 ^ 64) = some (Nat.clog 2 (8 * S)) := by
    rw [show S * 8 % 2 ^ 64 = 8 * S by omega, ceilLog2U64_eq, if_pos (by omega)]
  have ha : addrWidth (8 * S) = max 8 ((Nat.clog 2 (8 * S) + 7) / 8 * 8) := rfl
  have hdvd : 8 ∣ addrWidth (8 * S) := (isLeast_addrWidth _).1.1
  have hpdvd : 8 ∣ P * (3 * addrWidth (8 * S)) := (hdvd.mul_left 3).mul_left P
  have hpsize : P * (3 * addrWidth (8 * S)) ≤ 2 ^ 63 :=
    calc P * (3 * addrWidth (8 * S)) ≤ 2 ^ 32 * (3 * 64) :=
          Nat.mul_le_mul hP.le (by omega)
      _ ≤ 2 ^ 63 := by decide
  have hwidths := vmDeriveWidths_eq (S := S) (P := P) (by omega) hP
    (show Nat.clog 2 (8 * S) < 64 by omega) ha
  have hlayout := vmComputeMmioLayout_eq (g := vmDeriveWidths S P (Nat.clog 2 (8 * S)))
    (by rw [hwidths]) (by rw [hwidths]; simp only; omega) (by rw [hwidths]; exact hdvd)
    (by rw [hwidths]; exact hpsize) (by rw [hwidths]; exact hpdvd)
  unfold vmInit
  simp only [if_neg hS0, if_neg hP0, hgrant, Bool.not_true, Bool.false_eq_true, if_false,
    hraw, hlayout]
  rw [hwidths]
  simp only [mmioAt, gt_iff_lt]
  constructor
  · intro hsmall
    simp only [hsmall, if_true]
    split
    · rfl
    · rfl
  · intro hfit
    have hproc : ¬ 8 * S < P * (3 * addrWidth (8 * S)) := by omega
    simp only [hproc, not_lt.mpr hfit, if_false]
    exact ⟨_, rfl⟩

/-- A block that is not asked for or not granted leaves the zeroed machine. -/
theorem vmInit_refused {calloc : Nat → Bool} {S P : Nat} (h : ¬ Allocates calloc S P) :
    vmInit calloc S P = some (-1, Vm.zero) := by
  unfold vmInit
  by_cases hS : S = 0
  · simp only [if_pos hS]
  · by_cases hP : P = 0
    · simp only [if_neg hS, if_pos hP]
    · have hgrant : calloc S = false := by
        rw [← Bool.not_eq_true]
        exact fun hc => h ⟨hS, hP, hc⟩
      simp only [if_neg hS, if_neg hP, hgrant, Bool.not_false, if_true]

/-- **`vm_init` establishes the layout or leaves nothing behind.** It returns
-1 with a zeroed machine or 0 with the layout; and it returns 0 whenever the
allocation succeeds and such a layout fits into the space. -/
theorem vmInit_layout {calloc : Nat → Bool} {S P : Nat} (hS : S < 2 ^ 64)
    (hP : P < 2 ^ 32) (hlimit : CallocLimit calloc (2 ^ 48)) :
    (vmInit calloc S P = some (-1, Vm.zero) ∨
        ∃ vm, vmInit calloc S P = some (0, vm) ∧ InitLayout S P vm.toVmGeometry) ∧
      (Allocates calloc S P → (∃ g, InitLayout S P g) →
        ∃ vm, vmInit calloc S P = some (0, vm)) := by
  by_cases halloc : Allocates calloc S P
  · have hsmall : S < 2 ^ 60 := by
      by_contra hge
      have hgrant := halloc.2.2
      rw [hlimit S (by omega)] at hgrant
      cases hgrant
    obtain ⟨hrefuse, haccept⟩ := vmInit_allocated halloc hsmall hP
    constructor
    · rcases Nat.lt_or_ge (8 * S)
        (P * (3 * addrWidth (8 * S)) + 8 + 6 * addrWidth (8 * S)) with hlt | hle
      · exact Or.inl (hrefuse hlt)
      · right
        obtain ⟨vm, hvm⟩ := haccept hle
        obtain ⟨hg, rfl, rfl⟩ := Accepted.wf ⟨hS, hP, hvm⟩ (hlimit.mono (by decide))
        exact ⟨vm, hvm, hg.initLayout⟩
    · rintro - ⟨g, hg⟩
      apply haccept
      rw [← hg.endBit_eq, ← hg.spaceBits]
      exact hg.fits
  · exact ⟨Or.inl (vmInit_refused halloc), fun h => absurd h halloc⟩

theorem vmInit_layout_small :
    (vmInit hostCalloc 16 1 = some (-1, Vm.zero) ∨
        ∃ vm, vmInit hostCalloc 16 1 = some (0, vm) ∧ InitLayout 16 1 vm.toVmGeometry) ∧
      (Allocates hostCalloc 16 1 → (∃ g, InitLayout 16 1 g) →
        ∃ vm, vmInit hostCalloc 16 1 = some (0, vm)) :=
  vmInit_layout (by decide) (by decide) hostCalloc_limit

end SpaceVerifier.Runtime
