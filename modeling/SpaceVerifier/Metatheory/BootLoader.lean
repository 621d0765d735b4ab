import SpaceVerifier.Metatheory.BootLayer
import SpaceVerifier.Metatheory.Rounds

/-!
# One tick of the boot layer

The no-ops are skipped, the patch copies the destination field of slot 0 into
the source field of the load, and the load, fetched after that, replaces the
code that runs. The layer at the pointer is loaded exactly when slot 0 still
holds the pointer, the layer lies inside the space, and the load takes a sound
branch of `bitcpy`.
-/

namespace SpaceVerifier.Runtime

open Foundation Foundation.Traced

/-! ## What the layer is for -/

/-- No transfer is requested and the machine is not halted. -/
structure Idle (g : VmGeometry) (m : Mem) : Prop where
  inReq : m.bit g.mmio.inReq = false
  outReq : m.bit g.mmio.outReq = false
  halt : m.bit g.mmio.halt = false

/-- The status bits lie behind the processor area. -/
theorem Idle.congr {g : VmGeometry} (hg : g.Wf) {m m' : Mem}
    (h : ∀ p, g.processorBits ≤ p → m'.bit p = m.bit p) (hidle : Idle g m) :
    Idle g m' := by
  have hin := hg.within
  exact ⟨(h _ hin.inReq.1).trans hidle.inReq, (h _ hin.outReq.1).trans hidle.outReq,
    (h _ hin.halt.1).trans hidle.halt⟩

/-- The memory when the last slot of a tick is fetched. -/
def atLastFetch (w : World) : Mem :=
  let w := (mmioPhase w).val
  (execSlots (w.vm.processorN - 1) 0
    (w.note w.vm.hooks.tickBegin (.tickBegin w.vm.processorN))).val.2.vm.mem

/-- The promise of the builder for the machine of `w`: the layer is written
into the processor area only, its next tick loads the processor area from
`ptr`, and a refused pointer leaves the memory alone. -/
structure BootsFrom (ptr : Nat) (w : World) (r : Int × Vm) : Prop where
  outside : r.1 = 0 → ∀ p, w.vm.processorBits ≤ p → r.2.mem.bit p = w.vm.mem.bit p
  loads : r.1 = 0 → Idle r.2.toVmGeometry r.2.mem →
    (vmTick (w.withVm r.2)).val.1 = .ok ∧
      ∀ i < w.vm.processorBits, (vmTick (w.withVm r.2)).val.2.vm.mem.bit i =
        (atLastFetch (w.withVm r.2)).bit (ptr + i)
  refused : r.1 = -1 → r.2.mem = w.vm.mem

/-- The builder keeps its promise for this machine and this pointer, whatever
the memory holds. -/
def LoadsLayer (vm : Vm) (ptr : Nat) : Prop :=
  ∀ w : World, w.vm.toVmGeometry = vm.toVmGeometry → w.vm.space.isSome →
    BootsFrom ptr w (vmBuildBootLoaderLayer w.vm ptr).val

/-! ## The slot loop on the layer -/

/-- Slots without a copy leave the machine as it is. -/
theorem beforeSlot_nops {vm : Vm} {k : Nat} (hnop : ∀ j < k, (fetched vm j).n = 0) :
    vm.beforeSlot k = vm := by
  induction k with
  | zero => rfl
  | succ k ih =>
      have hk := ih fun j hj => hnop j (Nat.lt_succ_of_lt hj)
      rw [Vm.beforeSlot, hk]
      exact if_pos (hnop k (Nat.lt_succ_self k))

/-- Where the load reads: with two slots the patch stands in slot 0 itself. -/
def loadSource (g : VmGeometry) (ptr : Nat) : Nat :=
  if g.processorN = 2 then 5 * g.addrBits else ptr

/-- The memory after the patch. -/
def patchedMem (g : VmGeometry) (ptr : Nat) (m : Mem) : Mem :=
  (bitcpy (bootMem g ptr m) (patchInst g).n 0 (patchInst g).src 0
    (patchInst g).dst).val

section Layer

variable {g : VmGeometry} (hg : g.Wf) (hP : 2 ≤ g.processorN) {ptr : Nat}
  (hptr : ptr < 2 ^ g.addrBits) (m : Mem)
include hg hP

theorem patchedMem_bits :
    (patchedMem g ptr m).bit = copyRange ⟨g.addrBits,
      (g.processorN - 1) * (3 * g.addrBits) + 2 * g.addrBits, g.addrBits⟩
      (bootMem g ptr m).bit := by
  obtain ⟨-, hload⟩ := patchSlot_eq hP hg.processorN_lt
  obtain ⟨-, -, hfit⟩ := boot_fields_lt hg hP
  have hslot := hg.instrBits_le_processorBits
  have hbase := hg.processorBits_le.trans hg.workspaceBase_le
  have h8 := hg.dvd_addrBits
  have h8' : 8 ∣ (g.processorN - 1) * (3 * g.addrBits) := (h8.mul_left 3).mul_left _
  have hbits := (operands_space hg (n := g.addrBits) (s := g.addrBits)
    (d := (g.processorN - 1) * (3 * g.addrBits) + 2 * g.addrBits) (by omega)
    (by omega)).bitcpy_bits (bootMem g ptr m) (Or.inr (Or.inr (Or.inl (by omega))))
  simp only [Nat.mul_zero, Nat.zero_add] at hbits
  unfold patchedMem patchInst
  rw [hload]
  exact hbits

/-- Behind the processor area the patched memory is the memory built on. -/
theorem patchedMem_outside {p : Nat} (hp : g.processorBits ≤ p) :
    (patchedMem g ptr m).bit p = m.bit p := by
  obtain ⟨-, -, hfit⟩ := boot_fields_lt hg hP
  rw [patchedMem_bits hg hP, copyRange_of_notMem, bootMem_outside m hg hP hp]
  simp only [Move.dstSpan, Set.mem_Ico]
  omega

include hptr

theorem slot_zero_dst : (slotInst g (bootMem g ptr m) 0).dst = loadSource g ptr := by
  obtain ⟨-, hload⟩ := patchSlot_eq hP hg.processorN_lt
  rw [slotInst_bootMem m hg hP hptr (by omega), if_neg (by omega), loadSource]
  by_cases h2 : g.processorN = 2
  · rw [if_pos (by omega), if_pos h2, patchInst, hload, h2]
    simp only
    omega
  · rw [if_neg (by omega), if_pos rfl, if_neg h2]

/-- The load as it is fetched. -/
theorem load_fetched :
    slotInst g (patchedMem g ptr m) (g.processorN - 1) =
      ⟨g.processorBits, 0, loadSource g ptr⟩ := by
  have hslot := slotInst_bootMem m hg hP hptr (i := g.processorN - 1) (by omega)
  rw [if_pos rfl] at hslot
  have hdst := slot_zero_dst hg hP hptr m
  have hbits : (patchedMem g ptr m).bit = _ := patchedMem_bits hg hP m
  unfold slotInst instAt at hslot hdst ⊢
  obtain ⟨hn, hd, -⟩ := VmInst.mk.inj hslot
  rw [Nat.zero_mul, Nat.zero_add] at hdst
  simp only at hdst
  -- the fields in front of the one that the patch writes
  have hkeep : ∀ pos, pos + g.addrBits ≤
      (g.processorN - 1) * (3 * g.addrBits) + 2 * g.addrBits →
      uintAt (patchedMem g ptr m).bit pos g.addrBits =
        uintAt (bootMem g ptr m).bit pos g.addrBits := by
    intro pos hpos
    apply uintAt_congr
    intro i hi
    rw [hbits]
    apply copyRange_of_notMem
    simp only [Move.dstSpan, Set.mem_Ico]
    omega
  congr 1
  · rw [← hn]
    exact hkeep _ (by omega)
  · rw [← hd]
    exact hkeep _ (by omega)
  · rw [← hdst]
    refine uintAt_congr fun i hi => ?_
    rw [hbits]
    exact copyRange_dst ⟨g.addrBits, (g.processorN - 1) * (3 * g.addrBits) +
      2 * g.addrBits, g.addrBits⟩ _ hi

variable {w : World} (hw : Ready g w) (hm : w.vm.mem = bootMem g ptr m)
include hw hm

/-- Slot 0 and the cleared slots are skipped. -/
theorem boot_nops {i : Nat} (hi : i ≤ g.processorN - 2) : w.vm.beforeSlot i = w.vm := by
  apply beforeSlot_nops
  intro j hj
  rw [fetched, fetch_val hg hw (by omega), hm, slotInst_bootMem m hg hP hptr (by omega),
    if_neg (by omega), if_neg (by omega)]
  split <;> rfl

theorem boot_patch : slotIns w.vm (g.processorN - 2) = patchInst g := by
  rw [slotIns_eq hg hw (by omega), boot_nops hg hP hptr m hw hm le_rfl, hm,
    slotInst_bootMem m hg hP hptr (by omega), if_neg (by omega), if_pos rfl]

theorem boot_patched : (w.vm.beforeSlot (g.processorN - 1)).mem = patchedMem g ptr m := by
  have ha8 := hg.addrBits_ge
  have hn : (patchInst g).n ≠ 0 := by
    show g.addrBits ≠ 0
    omega
  rw [show g.processorN - 1 = g.processorN - 2 + 1 by omega,
    mem_beforeSlot_succ (boot_patch hg hP hptr m hw hm) hn,
    boot_nops hg hP hptr m hw hm le_rfl, hm]
  rfl

/-- The last slot is fetched after the patch has been carried out. -/
theorem boot_load :
    slotIns w.vm (g.processorN - 1) = ⟨g.processorBits, 0, loadSource g ptr⟩ := by
  rw [slotIns_eq hg hw (by omega), boot_patched hg hP hptr m hw hm,
    load_fetched hg hP hptr m]

/-- The only slot that can fail is the load, by its source. -/
theorem boot_bad_iff (ha : g.addrBits ≤ 56) {i : Nat} (hi : i < g.processorN) :
    BadSlot w.vm i ↔
      i = g.processorN - 1 ∧ g.spaceBits < loadSource g ptr + g.processorBits := by
  obtain ⟨-, hload⟩ := patchSlot_eq hP hg.processorN_lt
  obtain ⟨-, -, hfit⟩ := boot_fields_lt hg hP
  have hbase := hg.processorBits_le.trans hg.workspaceBase_le
  have hslot := hg.instrBits_le_processorBits
  have ha8 := hg.addrBits_ge
  obtain ⟨hsrc, hdst⟩ := slotIns_add64 hg ha hw hi
  unfold BadSlot VmInst.OutOfBounds
  rw [hsrc, hdst, hw.geometry]
  rcases Nat.lt_or_ge i (g.processorN - 2) with hlt | hge
  · have hnop : (slotIns w.vm i).n = 0 := by
      rw [slotIns_eq hg hw hi, boot_nops hg hP hptr m hw hm hlt.le, hm,
        slotInst_bootMem m hg hP hptr hi, if_neg (by omega), if_neg (by omega)]
      split <;> rfl
    exact iff_of_false (fun h => h.1 hnop) (by omega)
  · rcases Nat.eq_or_lt_of_le hge with rfl | hgt
    · rw [boot_patch hg hP hptr m hw hm, patchInst, hload]
      simp only
      omega
    · obtain rfl : i = g.processorN - 1 := by omega
      rw [boot_load hg hP hptr m hw hm]
      simp only [true_and]
      omega

/-! ## The tick -/

/-- **The next tick**: it loads from `loadSource`, or fails. -/
theorem boot_tick (ha : g.addrBits ≤ 56) (hidle : Idle g w.vm.mem) :
    atLastFetch w = patchedMem g ptr m ∧
      (vmTick w).val.1 =
        (if loadSource g ptr + g.processorBits > g.spaceBits then .err else .ok) ∧
      (loadSource g ptr + g.processorBits ≤ g.spaceBits →
        (vmTick w).val.2.vm.mem =
          (bitcpy (patchedMem g ptr m) g.processorBits 0 (loadSource g ptr) 0 0).val) := by
  have hslot := hg.instrBits_le_processorBits
  have ha8 := hg.addrBits_ge
  -- the device is idle, so the slots start from the memory built
  have hserved : served w = w.withVm w.vm.resetErr :=
    served_idle (by rw [hw.geometry]; exact hidle.outReq)
      (by rw [hw.geometry]; exact hidle.inReq)
  have hgeo : (served w).vm.toVmGeometry = g := hw.served.geometry
  have hm₁ : (served w).vm.mem = bootMem g ptr m := by
    rw [hserved]
    exact hm
  have hbad := fun i hi => @boot_bad_iff g hg hP ptr hptr m (served w) hw.served hm₁ ha i hi
  have hpatched := boot_patched hg hP hptr m hw.served hm₁
  have hload := boot_load hg hP hptr m hw.served hm₁
  refine ⟨?_, ?_⟩
  · have hgood : ∀ j, 0 ≤ j → j < 0 + (g.processorN - 1) → ¬ BadSlot (begun w).vm j := by
      intro j _ hj
      rw [vm_begun, hbad j (by omega)]
      omega
    have hrun := (execSlots_ok hgood).1
    rw [World.beforeSlot_zero, Nat.zero_add] at hrun
    show (execSlots ((served w).vm.processorN - 1) 0 (begun w)).val.2.vm.mem = _
    rw [hgeo, hrun, World.vm_beforeSlot, vm_begun, hpatched]
  · obtain ⟨r, t, htick, hshape⟩ := vmTick_shape hw.space
    rw [htick]
    cases hshape with
    | halt hhalt =>
        rw [hgeo, hserved] at hhalt
        cases hhalt.symm.trans hidle.halt
    | ok _ hgood =>
        rw [hgeo] at hgood
        have hle : ¬ loadSource g ptr + g.processorBits > g.spaceBits := fun hgt =>
          hgood (g.processorN - 1) (by omega) ((hbad _ (by omega)).mpr ⟨rfl, hgt⟩)
        refine ⟨(if_neg hle).symm, fun _ => ?_⟩
        show ((begun w).vm.beforeSlot (served w).vm.processorN).mem = _
        rw [vm_begun, hgeo, show g.processorN = g.processorN - 1 + 1 by omega,
          mem_beforeSlot_succ hload (by simp only; omega), hpatched]
    | @err j _ hfirst =>
        have hj := hfirst.1.1
        rw [hgeo] at hj
        obtain ⟨-, hgt⟩ := (hbad j hj).mp hfirst.1.2
        refine ⟨(if_pos hgt).symm, fun hle => ?_⟩
        omega

end Layer

/-! ## The promise, in terms of the patched memory -/

section Promise

variable {vm : Vm} (hg : vm.toVmGeometry.Wf) (ha : vm.addrBits ≤ 56)
  (hP : 2 ≤ vm.processorN) {ptr : Nat} (hptr : ptr < 2 ^ vm.addrBits)
include hg ha hptr

/-- What the builder leaves of the machine of `w`, and its next tick. -/
theorem build_tick {w : World} (hw : Ready vm.toVmGeometry w) :
    (vmBuildBootLoaderLayer w.vm ptr).val =
        (0, w.vm.withMem (bootMem vm.toVmGeometry ptr w.vm.mem)) ∧
      Ready vm.toVmGeometry
        (w.withVm (w.vm.withMem (bootMem vm.toVmGeometry ptr w.vm.mem))) := by
  have hgeo := hw.geometry
  have hg' : w.vm.toVmGeometry.Wf := by rw [hgeo]; exact hg
  have hbuild := build_val ptr hg' hw.space (by rw [hgeo]; exact ha)
    (by rw [hgeo]; exact hptr)
  rw [hw.geometry] at hbuild
  exact ⟨hbuild, ⟨hw.geometry, rfl⟩⟩

include hP

/-- The promise for one world: if the machine is idle, the load is in range and
copies. -/
theorem bootsFrom_iff_copy {w : World} (hw : Ready vm.toVmGeometry w) :
    BootsFrom ptr w (vmBuildBootLoaderLayer w.vm ptr).val ↔
      (Idle vm.toVmGeometry w.vm.mem →
        loadSource vm.toVmGeometry ptr + vm.processorBits ≤ vm.spaceBits ∧
        ∀ i < vm.processorBits,
          (bitcpy (patchedMem vm.toVmGeometry ptr w.vm.mem) vm.processorBits 0
            (loadSource vm.toVmGeometry ptr) 0 0).val.bit i =
          (patchedMem vm.toVmGeometry ptr w.vm.mem).bit (ptr + i)) := by
  -- the builder does not touch the status bits, so idle means idle before and after
  have hout : ∀ p, vm.processorBits ≤ p →
      (bootMem vm.toVmGeometry ptr w.vm.mem).bit p = w.vm.mem.bit p :=
    fun p hp => bootMem_outside w.vm.mem hg hP hp
  obtain ⟨hbuild, hready⟩ := build_tick hg ha hptr hw
  rw [hbuild]
  constructor
  · intro hboots hidle
    have hidle' : Idle (w.vm.withMem (bootMem vm.toVmGeometry ptr w.vm.mem)).toVmGeometry
        (bootMem vm.toVmGeometry ptr w.vm.mem) := by
      rw [Vm.toVmGeometry_withMem, hw.geometry]
      exact hidle.congr hg hout
    obtain ⟨hrc, hbits⟩ := hboots.loads rfl hidle'
    obtain ⟨hlast, hrc', hmem⟩ := boot_tick hg hP hptr w.vm.mem hready rfl ha
      (hidle.congr hg hout)
    have hle : loadSource vm.toVmGeometry ptr + vm.processorBits ≤ vm.spaceBits := by
      by_contra hgt
      rw [if_pos (by omega)] at hrc'
      rw [hrc'] at hrc
      cases hrc
    refine ⟨hle, fun i hi => ?_⟩
    have hbit := hbits i (by rw [hw.geometry]; exact hi)
    rwa [hmem hle, hlast] at hbit
  · intro hall
    constructor
    · intro _ p hp
      rw [hw.geometry] at hp
      exact hout p hp
    · intro _ hidle
      simp only [Vm.toVmGeometry_withMem, Vm.mem_withMem, hw.geometry] at hidle
      obtain ⟨hle, hcopy⟩ := hall (hidle.congr hg fun p hp => (hout p hp).symm)
      obtain ⟨hlast, hrc, hmem⟩ := boot_tick hg hP hptr w.vm.mem hready rfl ha hidle
      rw [hw.geometry]
      refine ⟨?_, fun i hi => ?_⟩
      · rw [hrc, if_neg (by omega)]
      · rw [hmem hle, hlast, hcopy i hi]
    · intro h
      cases h

theorem loadsLayer_iff_copy :
    LoadsLayer vm ptr ↔ ∀ m, Idle vm.toVmGeometry m →
      loadSource vm.toVmGeometry ptr + vm.processorBits ≤ vm.spaceBits ∧
        ∀ i < vm.processorBits,
          (bitcpy (patchedMem vm.toVmGeometry ptr m) vm.processorBits 0
            (loadSource vm.toVmGeometry ptr) 0 0).val.bit i =
          (patchedMem vm.toVmGeometry ptr m).bit (ptr + i) := by
  constructor
  · intro hall m
    have hw : Ready vm.toVmGeometry (bareWorld (vm.withMem m)) := ⟨rfl, rfl⟩
    exact (bootsFrom_iff_copy hg ha hP hptr hw).mp (hall _ hw.geometry hw.space)
  · intro hall w hgeo hspace
    exact (bootsFrom_iff_copy hg ha hP hptr ⟨hgeo, hspace⟩).mpr (hall w.vm.mem)

end Promise

/-! ## Memories that tell two positions apart -/

section Apart

variable {g : VmGeometry} (hg : g.Wf) (hP : 2 ≤ g.processorN) {ptr : Nat}
include hg hP

/-- Inside the processor area the patched memory does not depend on the memory
built on. -/
theorem patchedMem_inside (m m' : Mem) {p : Nat} (hp : p < g.processorBits) :
    (patchedMem g ptr m).bit p = (patchedMem g ptr m').bit p := by
  have hslot := hg.instrBits_le_processorBits
  rw [patchedMem_bits hg hP, patchedMem_bits hg hP]
  simp only [copyRange, Move.covers, decide_eq_true_eq]
  split
  · exact bootMem_inside m m' ptr (by omega)
  · exact bootMem_inside m m' ptr hp

/-- A position behind the code, other than the three status bits, that agrees
with another position for every memory is that position. -/
theorem eq_of_same_bits {a b : Nat} (hsame : ∀ m, Idle g m →
      (patchedMem g ptr m).bit a = (patchedMem g ptr m).bit b)
    (ha : g.processorBits ≤ a) (hin : a ≠ g.mmio.inReq) (hout : a ≠ g.mmio.outReq)
    (hhalt : a ≠ g.mmio.halt) : a = b := by
  by_contra hne
  -- two memories that differ in bit `a` only
  have hzero := hsame (Mem.ofBits fun _ => false) (by constructor <;> simp)
  have hone := hsame (Mem.ofBits fun p => decide (p = a)) (by
    constructor <;> simp [hin.symm, hout.symm, hhalt.symm])
  have hb : (patchedMem g ptr (Mem.ofBits fun p => decide (p = a))).bit b =
      (patchedMem g ptr (Mem.ofBits fun _ => false)).bit b := by
    rcases Nat.lt_or_ge b g.processorBits with hlt | hge
    · exact patchedMem_inside hg hP _ _ hlt
    · rw [patchedMem_outside hg hP _ hge, patchedMem_outside hg hP _ hge,
        Mem.bit_ofBits, Mem.bit_ofBits, decide_eq_false (Ne.symm hne)]
  rw [hb, ← hzero, patchedMem_outside hg hP _ ha, patchedMem_outside hg hP _ ha,
    Mem.bit_ofBits, Mem.bit_ofBits] at hone
  simp at hone

omit hP in
/-- The load copies its range when that is aligned or overlaps the code. -/
theorem load_bits {t : Nat} (ht : t + g.processorBits ≤ g.spaceBits)
    (hex : 8 ∣ t ∨ t < g.processorBits) (m : Mem) {i : Nat} (hi : i < g.processorBits) :
    (bitcpy m g.processorBits 0 t 0 0).val.bit i = m.bit (t + i) := by
  have hwhen : ExactWhen g.processorBits 0 t 0 0 := by
    unfold ExactWhen
    omega
  have hbits := (operands_space hg (d := 0) ht (by omega)).bitcpy_bits m hwhen
  have hcopy := copyRange_dst ⟨g.processorBits, 8 * 0 + 0, 8 * 0 + t⟩ m.bit hi
  rw [hbits]
  simp only [Nat.mul_zero, Nat.zero_add] at hcopy ⊢
  exact hcopy

end Apart

/-! ## Exactly when the layer is loaded -/

section Exact

variable {vm : Vm} (hg : vm.toVmGeometry.Wf) (ha : vm.addrBits ≤ 56) {ptr : Nat}
  (hptr : ptr < 2 ^ vm.addrBits)
include hg ha hptr

theorem loads_of_source (hP : 2 ≤ vm.processorN)
    (hsource : loadSource vm.toVmGeometry ptr = ptr)
    (hle : ptr + vm.processorBits ≤ vm.spaceBits)
    (hex : 8 ∣ ptr ∨ ptr < vm.processorBits) : LoadsLayer vm ptr := by
  rw [loadsLayer_iff_copy hg ha hP hptr, hsource]
  exact fun m _ => ⟨hle, fun i hi => load_bits hg hle hex _ hi⟩

/-- With two slots the layer at `5 * addr_bits` is loaded, whatever the pointer. -/
theorem pointer_of_loads_two (hP : vm.processorN = 2) (hloads : LoadsLayer vm ptr) :
    ptr = 5 * vm.addrBits := by
  rw [loadsLayer_iff_copy hg ha hP.ge hptr] at hloads
  have hsource : loadSource vm.toVmGeometry ptr = 5 * vm.addrBits := if_pos hP
  have ha8 := hg.addrBits_ge
  have hcode : vm.processorBits = 6 * vm.addrBits := by
    rw [hg.processorBits_eq, hP]
    omega
  -- the bit loaded from `in_done`, the first free bit behind the code
  have heq : 5 * vm.addrBits + (vm.addrBits + 1) = ptr + (vm.addrBits + 1) := by
    have hsame : ∀ m, Idle vm.toVmGeometry m →
        (patchedMem vm.toVmGeometry ptr m).bit (5 * vm.addrBits + (vm.addrBits + 1)) =
          (patchedMem vm.toVmGeometry ptr m).bit (ptr + (vm.addrBits + 1)) := by
      intro m hidle
      obtain ⟨hle, hcopy⟩ := hloads m hidle
      rw [hsource] at hle hcopy
      rw [← hcopy _ (by omega), load_bits hg hle (Or.inr (by omega)) _ (by omega)]
    refine eq_of_same_bits hg hP.ge hsame (by omega) ?_ ?_ ?_
    all_goals
      rw [hg.mmio_eq]
      simp only [mmioAt]
      omega
  omega

/-- With three slots or more the layer must be inside the space and aligned,
unless it overlaps the code. -/
theorem conditions_of_loads (hP : 3 ≤ vm.processorN) (hloads : LoadsLayer vm ptr) :
    ptr + vm.processorBits ≤ vm.spaceBits ∧ (8 ∣ ptr ∨ ptr < vm.processorBits) := by
  have hP' : 2 ≤ vm.processorN := by omega
  rw [loadsLayer_iff_copy hg ha hP' hptr] at hloads
  have hsource : loadSource vm.toVmGeometry ptr = ptr := if_neg (by omega)
  rw [hsource] at hloads
  have ha8 := hg.addrBits_ge
  have hdvd := hg.dvd_addrBits
  have hcode := hg.slot_le (i := 2) (by omega)
  have hdvd' := hg.dvd_processorBits
  obtain ⟨hle, -⟩ := hloads (Mem.ofBits fun _ => false) (by constructor <;> simp)
  refine ⟨hle, ?_⟩
  by_contra hno
  have hwhen : ¬ ExactWhen vm.processorBits 0 ptr 0 0 := by
    unfold ExactWhen headBits
    simp only [Nat.zero_mod, if_true]
    omega
  obtain ⟨i, hi, k, -, hk, hbit⟩ :=
    (operands_space hg (d := 0) hle (by omega)).bitcpy_displaced hwhen
  obtain rfl := hk (Nat.zero_mod 8)
  have hsame : ∀ m, Idle vm.toVmGeometry m →
      (patchedMem vm.toVmGeometry ptr m).bit (ptr + (i + 56)) =
        (patchedMem vm.toVmGeometry ptr m).bit (ptr + i) := by
    intro m hidle
    have hcopy := (hloads m hidle).2 i hi
    have hdisp := hbit (patchedMem vm.toVmGeometry ptr m)
    simp only [Nat.mul_zero, Nat.zero_add] at hdisp
    rw [← hcopy, hdisp]
  -- one of the two positions is no status bit
  have h₁ := eq_of_same_bits hg hP' hsame (by omega)
  have h₂ := eq_of_same_bits hg hP' (fun m hm => (hsame m hm).symm) (by omega)
  rw [hg.mmio_eq] at h₁ h₂
  simp only [mmioAt] at h₁ h₂
  omega

/-- With one slot the patch is written behind the processor area. -/
theorem not_loads_one (hP : vm.processorN = 1) : ¬ LoadsLayer vm ptr := by
  intro hloads
  have hslots : patchSlot vm.toVmGeometry = 2 ^ 32 - 1 ∧ loadSlot vm.toVmGeometry = 0 := by
    unfold patchSlot loadSlot
    omega
  have hslot := hg.instrBits_le_processorBits
  have hpow := hg.spaceBits_le_pow
  have hbase := hg.processorBits_le.trans hg.workspaceBase_le
  have ha8 := hg.addrBits_ge
  have hcode : vm.processorBits = 3 * vm.addrBits := by
    rw [hg.processorBits_eq, hP, Nat.one_mul]
  obtain ⟨m, hm⟩ : ∃ m : Mem, ∀ p, m.bit p = false :=
    ⟨Mem.ofBits fun _ => false, fun p => Mem.bit_ofBits _ p⟩
  -- the patch is there
  have hpatch : slotInst vm.toVmGeometry (bootMem vm.toVmGeometry ptr m)
      (patchSlot vm.toVmGeometry) = patchInst vm.toVmGeometry := by
    unfold bootMem
    rw [slotInst_writeInst_ne _ (by omega)]
    refine slotInst_writeInst_self _ _ Nat.lt_two_pow_self ?_ Nat.lt_two_pow_self
    rw [patchInst, hslots.2, Nat.zero_mul, Nat.zero_add]
    show 2 * vm.addrBits < 2 ^ vm.addrBits
    omega
  -- and should not be
  have hw : Ready vm.toVmGeometry (bareWorld (vm.withMem m)) := ⟨rfl, rfl⟩
  have hboots := hloads _ hw.geometry hw.space
  rw [(build_tick hg ha hptr hw).1] at hboots
  have hzero : slotInst vm.toVmGeometry (bootMem vm.toVmGeometry ptr m)
      (patchSlot vm.toVmGeometry) = ⟨0, 0, 0⟩ := by
    refine slotInst_of_zero fun p hp _ => (hboots.outside rfl p ?_).trans (hm p)
    show vm.processorBits ≤ p
    rw [hslots.1] at hp
    omega
  rw [hpatch] at hzero
  have hn : vm.addrBits = 0 := congrArg VmInst.n hzero
  omega

end Exact

/-- **Exactly when the boot layer does its work.** For an accepted machine the
builder keeps its promise, for every memory, if and only if it refuses the
pointer, or the machine has three slots or more and the layer lies inside the
space, aligned or overlapping the code, or the machine has two slots and the
pointer is the one place its load reads. -/
theorem loadsLayer_iff {calloc : Nat → Bool} {S P : Nat} {vm : Vm}
    (h : Accepted calloc S P vm) (hlimit : CallocLimit calloc (2 ^ 53)) (ptr : Nat) :
    LoadsLayer vm ptr ↔ 2 ^ vm.addrBits ≤ ptr ∨
      (3 ≤ P ∧ ptr + vm.processorBits ≤ vm.spaceBits ∧
        (8 ∣ ptr ∨ ptr < vm.processorBits)) ∨
      (P = 2 ∧ ptr = 5 * vm.addrBits) := by
  obtain ⟨hg, ha⟩ := addrBits_le_of_limit h hlimit
  obtain ⟨-, -, rfl⟩ := h.wf (hlimit.mono (by decide))
  by_cases hptr : 2 ^ vm.addrBits ≤ ptr
  · refine iff_of_true (fun w hgeo _ => ?_) (Or.inl hptr)
    rw [build_refused (by rw [hgeo]; exact ha) (by rw [hgeo]; exact hptr)]
    constructor
    · intro h
      cases h
    · intro h
      cases h
    · exact fun _ => rfl
  rw [not_le] at hptr
  have hpos := hg.processorN_pos
  constructor
  · intro hloads
    rcases Nat.lt_or_ge vm.processorN 3 with hlt | hge
    · rcases (by omega : vm.processorN = 1 ∨ vm.processorN = 2) with h1 | h2
      · exact absurd hloads (not_loads_one hg ha hptr h1)
      · exact Or.inr (Or.inr ⟨h2, pointer_of_loads_two hg ha hptr h2 hloads⟩)
    · exact Or.inr (Or.inl ⟨hge, conditions_of_loads hg ha hptr hge hloads⟩)
  · rintro (hbig | ⟨hge, hle, hex⟩ | ⟨h2, heq⟩)
    · omega
    · exact loads_of_source hg ha hptr (by omega)
        (if_neg (by omega : ¬ vm.processorN = 2)) hle hex
    · have hcode := hg.processorBits_eq
      have hbase := hg.workspaceBase_eq
      have hle := hg.workspaceBase_le
      have ha8 := hg.addrBits_ge
      rw [h2] at hcode
      exact loads_of_source hg ha hptr h2.ge ((if_pos h2).trans heq.symm) (by omega)
        (Or.inr (by omega))

theorem loadsLayer_iff_three : LoadsLayer (bootVm 3) 128 :=
  (loadsLayer_iff bootVm_accepted.2 (hostCalloc_limit.mono (by decide)) 128).mpr
    (Or.inr (Or.inl ⟨by decide, by decide, Or.inl (by decide)⟩))

/-- A memory with bit 49 set, which is `in_done` of the two-slot machine. -/
def doneMem : Mem := Mem.ofBits fun p => decide (p = 49)

/-- There the boot layer for the pointer 128 loads from bit 40 instead. -/
theorem not_bootsFrom_two : Accepted hostCalloc 32 2 (bootVm 2) ∧
    ¬ BootsFrom 128 (bareWorld ((bootVm 2).withMem doneMem))
      (vmBuildBootLoaderLayer ((bootVm 2).withMem doneMem) 128).val := by
  refine ⟨bootVm_accepted.1, fun hboots => ?_⟩
  obtain ⟨hg, ha⟩ := addrBits_le_of_limit bootVm_accepted.1
    (hostCalloc_limit.mono (by decide))
  have hm : ∀ p, doneMem.bit p = decide (p = 49) := Mem.bit_ofBits _
  have hP : 2 ≤ (bootVm 2).processorN := le_rfl
  have hw : Ready (bootVm 2).toVmGeometry (bareWorld ((bootVm 2).withMem doneMem)) :=
    ⟨rfl, rfl⟩
  obtain ⟨hle, hcopy⟩ := (bootsFrom_iff_copy hg ha hP (by decide) hw).mp hboots (by
    constructor <;> exact (hm _).trans (by decide))
  have hbit := hcopy 9 (by decide)
  rw [load_bits hg hle (by decide) _ (by decide), patchedMem_outside hg hP _ (by decide),
    patchedMem_outside hg hP _ (by decide)] at hbit
  have hbit' : doneMem.bit 49 = doneMem.bit 137 := hbit
  rw [hm, hm] at hbit'
  cases hbit'

end SpaceVerifier.Runtime
