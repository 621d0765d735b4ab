import SpaceVerifier.Metatheory.TickSafety

/-!
# The layer `vm_build_boot_loader_layer` writes

The function leaves one memory, `bootMem`: a cleared processor area, the
pointer in slot 0, and the patch and the load in the slots whose numbers are
computed in `unsigned`. With two slots or more this is three slots of code and
no-ops, except that with exactly two the patch replaces the pointer.
-/

namespace SpaceVerifier.Runtime

open Foundation Foundation.Traced

/-! ## Clearing -/

/-- The first `n` bits cleared. -/
def clearedMem (m : Mem) (n : Nat) : Mem :=
  Mem.ofBits fun p => if p < n then false else m.bit p

theorem bit_clearedMem (m : Mem) (n p : Nat) :
    (clearedMem m n).bit p = if p < n then false else m.bit p :=
  Mem.bit_ofBits _ p

theorem clearedMem_zero (m : Mem) : clearedMem m 0 = m := by
  apply Mem.ext_bit
  intro p
  rw [bit_clearedMem, if_neg (by omega)]

/-- A NOP without operands is a run of zeros. -/
theorem bit_writeInst_zero (m : Mem) (ip a p : Nat) :
    (writeInst m ip a ⟨0, 0, 0⟩).bit p =
      if ip ≤ p ∧ p < ip + 3 * a then false else m.bit p := by
  unfold writeInst
  simp only [Mem.bit_writeField, Nat.zero_testBit]
  split_ifs <;> first | rfl | omega

theorem clearedMem_add (m : Mem) (ip a : Nat) :
    writeInst (clearedMem m ip) ip a ⟨0, 0, 0⟩ = clearedMem m (ip + 3 * a) := by
  apply Mem.ext_bit
  intro p
  rw [bit_writeInst_zero, bit_clearedMem, bit_clearedMem]
  split_ifs <;> first | rfl | omega

section Write

variable {vm : Vm} (hg : vm.toVmGeometry.Wf)
include hg

/-- An instruction written to a slot, wherever the slot is. -/
theorem writeSlot_val (m : Mem) (ins : VmInst) {slot : Nat} (hslot : slot < 2 ^ 32) :
    (vmWriteInst (vm.withMem m) (vmProcSlotIp (vm.withMem m) slot) ins).val =
      vm.withMem (writeInst m (slot * (3 * vm.addrBits)) vm.addrBits ins) := by
  have hg' : (vm.withMem m).toVmGeometry.Wf := hg
  have ha := hg.addrBits_le
  obtain ⟨hip, hlt⟩ := vmProcSlotIp_eq hg' hslot
  simp only [Vm.toVmGeometry_withMem] at hip hlt
  rw [hip, vmWriteInst_val hg' rfl _ (by simp only [Vm.toVmGeometry_withMem]; omega)]
  rfl

theorem clearProcessor_val (hs : vm.space.isSome) :
    (clearProcessor vm).val = vm.withMem (clearedMem vm.mem vm.processorBits) := by
  unfold clearProcessor
  rw [hg.processorBits_eq]
  refine forUp_inv (fun i vm' => vm' = vm.withMem
    (clearedMem vm.mem (i * (3 * vm.addrBits)))) ?_ ?_
  · rw [Nat.zero_mul, clearedMem_zero, Vm.withMem_mem hs]
  · rintro i hi _ rfl
    rw [writeSlot_val hg _ _ (hi.trans hg.processorN_lt), clearedMem_add, Nat.succ_mul i]

end Write

@[simp] theorem vmProcSlotFieldIp_withMem (vm : Vm) (m : Mem) (slot off : Nat) :
    vmProcSlotFieldIp (vm.withMem m) slot off = vmProcSlotFieldIp vm slot off := rfl

/-! ## The memory of the layer -/

/-- `vm->processor_n - 2` and `vm->processor_n - 1` as `unsigned`. -/
def patchSlot (g : VmGeometry) : Nat := (g.processorN + (2 ^ 32 - 2)) % 2 ^ 32

def loadSlot (g : VmGeometry) : Nat := (g.processorN + (2 ^ 32 - 1)) % 2 ^ 32

/-- Copies the destination field of slot 0 into the source field of the load. -/
def patchInst (g : VmGeometry) : VmInst :=
  { n := g.addrBits, dst := loadSlot g * (3 * g.addrBits) + 2 * g.addrBits
    src := g.addrBits }

def loadInst (g : VmGeometry) : VmInst := { n := g.processorBits, dst := 0, src := 0 }

/-- The memory after the pointer is stored, before the two copies are. -/
def metaMem (g : VmGeometry) (ptr : Nat) (m : Mem) : Mem :=
  writeInst (clearedMem m g.processorBits) 0 g.addrBits ⟨0, ptr, 0⟩

def bootMem (g : VmGeometry) (ptr : Nat) (m : Mem) : Mem :=
  writeInst
    (writeInst (metaMem g ptr m) (patchSlot g * (3 * g.addrBits)) g.addrBits
      (patchInst g))
    (loadSlot g * (3 * g.addrBits)) g.addrBits (loadInst g)

/-- The pointer check, when the shift is defined. -/
theorem pointer_limit {a : Nat} (ha : a ≤ 56) : (1 <<< a) % 2 ^ 64 = 2 ^ a := by
  rw [Nat.one_shiftLeft]
  exact Nat.mod_eq_of_lt (Nat.pow_lt_pow_right (by decide) (by omega))

/-- A pointer that does not fit leaves the machine as it was. -/
theorem build_refused {vm : Vm} {ptr : Nat} (ha : vm.addrBits ≤ 56)
    (hptr : 2 ^ vm.addrBits ≤ ptr) :
    (vmBuildBootLoaderLayer vm ptr).val = (-1, vm) := by
  unfold vmBuildBootLoaderLayer
  rw [pointer_limit ha, if_pos hptr]
  rfl

/-- **What the function writes**, for every number of slots. -/
theorem build_val {vm : Vm} (ptr : Nat) (hg : vm.toVmGeometry.Wf)
    (hs : vm.space.isSome) (ha : vm.addrBits ≤ 56) (hptr : ptr < 2 ^ vm.addrBits) :
    (vmBuildBootLoaderLayer vm ptr).val =
      (0, vm.withMem (bootMem vm.toVmGeometry ptr vm.mem)) := by
  have hload : loadSlot vm.toVmGeometry < 2 ^ 32 := Nat.mod_lt _ (by decide)
  obtain ⟨hip, hlt⟩ := vmProcSlotIp_eq hg hload
  have hsrc : vmProcSlotFieldIp vm (loadSlot vm.toVmGeometry) vm.offSrc =
      loadSlot vm.toVmGeometry * (3 * vm.addrBits) + 2 * vm.addrBits := by
    rw [vmProcSlotFieldIp, hip, hg.offSrc_eq, add64_of_lt (by omega)]
  have hdst : vmProcSlotFieldIp vm 0 vm.offDst = vm.addrBits := by
    rw [vmProcSlotFieldIp, (vmProcSlotIp_eq hg (by decide)).1, hg.offDst_eq,
      Nat.zero_mul, add64_of_lt (by omega), Nat.zero_add]
  unfold vmBuildBootLoaderLayer
  rw [pointer_limit ha, if_neg (by omega)]
  simp only [val_bind, val_pure]
  rw [clearProcessor_val hg hs, writeSlot_val hg _ _ (by decide), Nat.zero_mul,
    writeSlot_val hg _ _ (Nat.mod_lt _ (by decide)),
    writeSlot_val hg _ _ (Nat.mod_lt _ (by decide))]
  simp only [Vm.toVmGeometry_withMem, vmProcSlotFieldIp_withMem]
  rw [show (vm.processorN + (2 ^ 32 - 1)) % 2 ^ 32 = loadSlot vm.toVmGeometry from rfl,
    hsrc, hdst, hg.processorStart_eq]
  rfl

/-! ## Its slots -/

section Slots

variable {g : VmGeometry} (m : Mem)

theorem slotInst_writeInst_self {i : Nat} (ins : VmInst) (hn : ins.n < 2 ^ g.addrBits)
    (hdst : ins.dst < 2 ^ g.addrBits) (hsrc : ins.src < 2 ^ g.addrBits) :
    slotInst g (writeInst m (i * (3 * g.addrBits)) g.addrBits ins) i = ins :=
  instAt_writeInst m hn hdst hsrc

theorem slotInst_writeInst_ne {i j : Nat} (hij : i ≠ j) (ins : VmInst) :
    slotInst g (writeInst m (j * (3 * g.addrBits)) g.addrBits ins) i =
      slotInst g m i := by
  have hapart : ∀ {i j : Nat}, i < j →
      i * (3 * g.addrBits) + 3 * g.addrBits ≤ j * (3 * g.addrBits) := by
    intro i j hlt
    rw [← Nat.succ_mul]
    exact Nat.mul_le_mul_right _ hlt
  refine instAt_congr fun p hp hp' => bit_writeInst_of_notMem m ins ?_
  rcases Nat.lt_or_gt_of_ne hij with hlt | hlt
  · have := hapart hlt
    omega
  · have := hapart hlt
    omega

/-- A slot of zeros is a NOP without operands. -/
theorem slotInst_of_zero {m : Mem} {i : Nat}
    (h : ∀ p, i * (3 * g.addrBits) ≤ p →
      p < i * (3 * g.addrBits) + 3 * g.addrBits → m.bit p = false) :
    slotInst g m i = ⟨0, 0, 0⟩ := instAt_eq_zero h

variable (hg : g.Wf)
include hg

theorem slotInst_clearedMem {i : Nat} (hi : i < g.processorN) :
    slotInst g (clearedMem m g.processorBits) i = ⟨0, 0, 0⟩ := by
  have hfit := hg.slot_le hi
  refine slotInst_of_zero fun p _ hp => ?_
  rw [bit_clearedMem, if_pos (by omega)]

theorem slotInst_metaMem {ptr : Nat} (hptr : ptr < 2 ^ g.addrBits) {i : Nat}
    (hi : i < g.processorN) :
    slotInst g (metaMem g ptr m) i = if i = 0 then ⟨0, ptr, 0⟩ else ⟨0, 0, 0⟩ := by
  have hslot : metaMem g ptr m = writeInst (clearedMem m g.processorBits)
      (0 * (3 * g.addrBits)) g.addrBits ⟨0, ptr, 0⟩ := by
    rw [Nat.zero_mul]
    rfl
  rw [hslot]
  split
  · next h =>
      subst h
      exact slotInst_writeInst_self _ _ (Nat.two_pow_pos _) hptr (Nat.two_pow_pos _)
  · next h => rw [slotInst_writeInst_ne _ h, slotInst_clearedMem m hg hi]

/-- Every number the layer stores fits its field. -/
theorem boot_fields_lt (hP : 2 ≤ g.processorN) :
    g.addrBits < 2 ^ g.addrBits ∧ g.processorBits < 2 ^ g.addrBits ∧
      (g.processorN - 1) * (3 * g.addrBits) + 3 * g.addrBits ≤ g.processorBits := by
  have hfit := hg.slot_le (i := g.processorN - 1) (by omega)
  have hpow := hg.spaceBits_le_pow
  have hbase := hg.workspaceBase_eq
  have hle := hg.workspaceBase_le
  exact ⟨Nat.lt_two_pow_self, by omega, hfit⟩

variable (hP : 2 ≤ g.processorN)
include hP

omit hg in
theorem patchSlot_eq (hlt : g.processorN < 2 ^ 32) :
    patchSlot g = g.processorN - 2 ∧ loadSlot g = g.processorN - 1 := by
  unfold patchSlot loadSlot
  omega

/-- **The code of the layer.** -/
theorem slotInst_bootMem {ptr : Nat} (hptr : ptr < 2 ^ g.addrBits) {i : Nat}
    (hi : i < g.processorN) :
    slotInst g (bootMem g ptr m) i =
      if i = g.processorN - 1 then loadInst g
      else if i = g.processorN - 2 then patchInst g
      else if i = 0 then ⟨0, ptr, 0⟩ else ⟨0, 0, 0⟩ := by
  obtain ⟨hpatch, hload⟩ := patchSlot_eq hP hg.processorN_lt
  obtain ⟨ha, hp, hfit⟩ := boot_fields_lt hg hP
  have hpos := Nat.two_pow_pos g.addrBits
  unfold bootMem
  rw [hpatch, hload]
  split
  · next h =>
      subst h
      exact slotInst_writeInst_self _ _ hp hpos hpos
  · next hne =>
      rw [slotInst_writeInst_ne _ hne]
      split
      · next h =>
          subst h
          refine slotInst_writeInst_self _ _ ha ?_ ha
          rw [patchInst, hload]
          show _ + 2 * g.addrBits < _
          omega
      · next hne' =>
          rw [slotInst_writeInst_ne _ hne', slotInst_metaMem m hg hptr hi]

/-- Behind the processor area nothing is written. -/
theorem bootMem_outside {ptr p : Nat} (hp : g.processorBits ≤ p) :
    (bootMem g ptr m).bit p = m.bit p := by
  obtain ⟨hpatch, hload⟩ := patchSlot_eq hP hg.processorN_lt
  have h₀ := hg.slot_le (i := 0) (by omega)
  have h₁ := hg.slot_le (i := g.processorN - 2) (by omega)
  have h₂ := hg.slot_le (i := g.processorN - 1) (by omega)
  unfold bootMem metaMem
  rw [hpatch, hload, bit_writeInst_of_notMem _ _ (by omega),
    bit_writeInst_of_notMem _ _ (by omega), bit_writeInst_of_notMem _ _ (by omega),
    bit_clearedMem, if_neg (by omega)]

omit hg hP in
/-- Inside the processor area nothing of the old memory is left. -/
theorem bootMem_inside (m' : Mem) (ptr : Nat) {p : Nat} (hp : p < g.processorBits) :
    (bootMem g ptr m).bit p = (bootMem g ptr m').bit p := by
  unfold bootMem metaMem writeInst
  simp only [Mem.bit_writeField, bit_clearedMem, if_pos hp]

end Slots

end SpaceVerifier.Runtime
