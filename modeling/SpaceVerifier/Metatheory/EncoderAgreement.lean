import SpaceVerifier.Metatheory.Checkpoint
import SpaceVerifier.Metatheory.FixtureRoundTrip
import SpaceVerifier.Metatheory.HostSession

/-!
# Three encoders of a program

`make_fixture` builds an image for the verifier, a host writes the slots of a
machine with `vm_write_inst`, and `vm_build_boot_loader_layer` writes a program of
its own. The three are written in two languages, by shifting whole fields into
place and bit by bit; on a fresh machine they leave the same bytes.
-/

namespace SpaceVerifier.Verifier

open Foundation SpaceVerifier.Runtime

/-! ## Images as memories -/

theorem bytesAt_imageMem (data : List Byte) : bytesAt (imageMem data) 0 data.length = data := by
  refine List.ext_getElem (length_bytesAt _ _ _) fun i _ hi => ?_
  simp [bytesAt, imageMem, hi]

/-- The bits of a slot are those of its instruction. -/
theorem instAt_inj {b b' : Nat → Bool} {ip a : Nat} (h : instAt b ip a = instAt b' ip a) {p : Nat}
    (hlo : ip ≤ p) (hhi : p < ip + 3 * a) : b p = b' p := by
  simp only [instAt, VmInst.mk.injEq, uintAt_inj] at h
  obtain ⟨hn, hdst, hsrc⟩ := h
  rcases Nat.lt_or_ge p (ip + a) with hp | hp
  · have := hn (p - ip) (by omega)
    rwa [show ip + (p - ip) = p by omega] at this
  · rcases Nat.lt_or_ge p (ip + 2 * a) with hp' | hp'
    · have := hdst (p - (ip + a)) (by omega)
      rwa [show ip + a + (p - (ip + a)) = p by omega] at this
    · have := hsrc (p - (ip + 2 * a)) (by omega)
      rwa [show ip + 2 * a + (p - (ip + 2 * a)) = p by omega] at this

/-! ## Slot by slot -/

variable {U : Type}

/-- The calls of a host that writes a program into the slots from `slotIdx` on. -/
def slotWrites (vm : Vm) : (slotIdx : Nat) → List (Nat × Nat × Nat) → List (HostCall U)
  | _, [] => []
  | slotIdx, t :: rest =>
      .writeInst (vmProcSlotIp vm slotIdx) (instOf t) :: slotWrites vm (slotIdx + 1) rest

section Slots

variable {vm : Vm} (hg : vm.toVmGeometry.Wf)
include hg

/-- The machine and the image go through the same memories. -/
theorem session_slotWrites {slotIdx : Nat} {instrs : List (Nat × Nat × Nat)} {data : List Byte}
    (hdata : data.length = vm.spaceBytes) (hlen : slotIdx + instrs.length ≤ vm.processorN)
    {s : Host U} (hw : Ready vm.toVmGeometry s.world) (hmem : s.world.vm.mem = imageMem data) :
    Ready vm.toVmGeometry (session (slotWrites vm slotIdx instrs) s).2.world ∧
      (session (slotWrites vm slotIdx instrs) s).2.world.vm.mem =
        imageMem (fixtureSlots (3 * vm.addrBits) vm.spaceBytes slotIdx instrs data) := by
  induction instrs generalizing slotIdx data s with
  | nil => exact ⟨hw, hmem⟩
  | cons t rest ih =>
      rw [List.length_cons] at hlen
      have hfit := hg.slot_le (i := slotIdx) (by omega)
      have hcode := hg.processorBits_le.trans hg.workspaceBase_le
      have hspace := hg.spaceBits_eq
      have hle := hg.spaceBits_le
      have hlt := hg.processorN_lt
      obtain ⟨hip, -⟩ := vmProcSlotIp_eq hg (show slotIdx < 2 ^ 32 by omega)
      obtain ⟨data', hfixture, hdata', hmem'⟩ :=
        @fixtureSlots_cons vm.addrBits _ slotIdx data hdata (by omega) t rest
      have hgw : s.world.vm.toVmGeometry.Wf := by rwa [hw.geometry]
      have haddr : s.world.vm.addrBits = vm.addrBits := congrArg (·.addrBits) hw.geometry
      have hwrite : (vmWriteInst s.world.vm (vmProcSlotIp vm slotIdx) (instOf t)).val =
          s.world.vm.withMem (imageMem data') := by
        rw [vmWriteInst_val hgw hw.space _ (by omega), hip, hmem, hmem', haddr]
      rw [hfixture]
      refine ih hdata' (by omega) ?_ ?_
      · show Ready _ (s.world.withVm
          (vmWriteInst s.world.vm (vmProcSlotIp vm slotIdx) (instOf t)).val)
        rw [hwrite]
        exact hw.withMem _
      · show (vmWriteInst s.world.vm (vmProcSlotIp vm slotIdx) (instOf t)).val.mem = _
        rw [hwrite, Vm.mem_withMem]

/-! ## The boot layer -/

/-- The program of the builder, slot by slot. -/
def bootTriples (g : VmGeometry) (ptr : Nat) : List (Nat × Nat × Nat) :=
  (List.range g.processorN).map fun i =>
    if i = g.processorN - 1 then (g.processorBits, 0, 0)
    else if i = g.processorN - 2 then ((patchInst g).n, (patchInst g).dst, (patchInst g).src)
    else if i = 0 then (0, ptr, 0) else (0, 0, 0)

omit hg in
theorem getElem?_bootTriples {g : VmGeometry} {ptr i : Nat} (hi : i < g.processorN) :
    (bootTriples g ptr)[i]?.map instOf = some
      (if i = g.processorN - 1 then loadInst g
      else if i = g.processorN - 2 then patchInst g
      else if i = 0 then ⟨0, ptr, 0⟩ else ⟨0, 0, 0⟩) := by
  rw [bootTriples, List.getElem?_map, List.getElem?_range hi]
  simp only [Option.map_some, Option.some.injEq]
  split_ifs <;> rfl

/-- The builder on a fresh memory and `make_fixture` on its program. -/
theorem bootMem_eq_fixture (hP : 2 ≤ vm.processorN) {ptr : Nat} (hptr : ptr < 2 ^ vm.addrBits) :
    bootMem vm.toVmGeometry ptr (fun _ => 0) =
      imageMem (makeFixture (bootTriples vm.toVmGeometry ptr) (3 * vm.addrBits)
        vm.spaceBytes) := by
  have hlen : (bootTriples vm.toVmGeometry ptr).length = vm.processorN := by
    rw [bootTriples, List.length_map, List.length_range]
  have hcode := hg.processorBits_le.trans hg.workspaceBase_le
  have hbits := hg.processorBits_eq
  rw [hbits, hg.spaceBits_eq] at hcode
  obtain ⟨-, hslots, hframe⟩ := @fixtureSlots_spec vm.addrBits vm.spaceBytes 0
    (bootTriples vm.toVmGeometry ptr) _ (List.length_replicate ..)
    (by rw [hlen, Nat.zero_add]; exact hcode)
  rw [hlen, Nat.zero_add] at hframe
  refine Mem.ext_bit fun p => ?_
  rcases Nat.lt_or_ge p vm.processorBits with hp | hp
  · -- inside the code the bits are those of the slot around them
    have hpos : 0 < 3 * vm.addrBits := by
      have := hg.addrBits_ge
      omega
    have hi : p / (3 * vm.addrBits) < vm.processorN := by
      rw [Nat.div_lt_iff_lt_mul hpos, ← hbits]
      exact hp
    refine instAt_inj ?_ (Nat.div_mul_le_self p (3 * vm.addrBits)) (Nat.lt_div_mul_add hpos)
    obtain ⟨t, ht, hins⟩ := Option.map_eq_some_iff.mp (@getElem?_bootTriples _ ptr _ hi)
    have hboot := slotInst_bootMem (fun _ => 0) hg hP hptr hi
    obtain ⟨hn, hdst, hsrc⟩ := slotInst_lt vm.toVmGeometry
      (bootMem vm.toVmGeometry ptr fun _ => 0) (p / (3 * vm.addrBits))
    have hfixture := hslots _ t ht
    rw [hboot, ← hins] at hn hdst hsrc
    rw [Nat.zero_add, VmInst.truncate_eq hn hdst hsrc, hins, ← hboot] at hfixture
    exact hfixture.symm
  · rw [bootMem_outside _ hg hP hp, makeFixture, hframe p (Or.inr (hbits ▸ hp)),
      imageMem_replicate]

end Slots

/-- **The encoders agree.** On a fresh machine, writing any program slot by slot
leaves the image that `make_fixture` builds from it, and with two slots or more the
builder of the boot layer leaves the image of the instructions it writes. -/
theorem encoders_agree {calloc : Nat → Bool} {S P : Nat} {vm : Vm}
    (h : Accepted calloc S P vm) (hlimit : CallocLimit calloc (2 ^ 53)) :
    (∀ s : Host U, s.world.vm = vm → ∀ instrs, instrs.length ≤ P →
      (session (slotWrites vm 0 instrs) s).2.world.vm.dump =
        makeFixture instrs vm.instrBits S) ∧
    (2 ≤ P → ∀ ptr < 2 ^ vm.addrBits,
      (vmBuildBootLoaderLayer vm ptr).val.2.dump =
        makeFixture (bootTriples vm.toVmGeometry ptr) vm.instrBits S) := by
  obtain ⟨hg, ha⟩ := addrBits_le_of_limit h hlimit
  obtain ⟨-, hS, hN⟩ := h.wf (hlimit.mono (by decide))
  have hzero : vm.mem = fun _ => 0 := by
    obtain ⟨-, -, raw, -, -, -, rfl⟩ := vmInit_eq_some_zero h.init
    rfl
  -- a memory that is an image is dumped as that image
  have hdump : ∀ (v : Vm) (data : List Byte), v.toVmGeometry = vm.toVmGeometry →
      data.length = S → v.mem = imageMem data → v.dump = data := by
    intro v data hv hlen hmem
    rw [Vm.dump, hmem, hv, hS, ← hlen, bytesAt_imageMem]
  have hlength : ∀ instrs : List (Nat × Nat × Nat), instrs.length ≤ vm.processorN →
      (makeFixture instrs (3 * vm.addrBits) S).length = S := by
    intro instrs hlen
    have hcode := hg.processorBits_le.trans hg.workspaceBase_le
    rw [hg.processorBits_eq, hg.spaceBits_eq, hS] at hcode
    refine (fixtureSlots_spec (List.length_replicate ..) ?_).1
    rw [Nat.zero_add]
    exact (Nat.mul_le_mul_right _ hlen).trans hcode
  rw [hg.instrBits_eq]
  refine ⟨fun s hs instrs hlen => ?_, fun hP ptr hptr => ?_⟩
  · subst hs
    obtain ⟨hready, hmem⟩ := session_slotWrites hg (List.length_replicate ..)
      (by omega : 0 + instrs.length ≤ s.world.vm.processorN) ⟨rfl, h.space⟩
      (hzero.trans (imageMem_replicate _).symm)
    rw [hS] at hmem
    exact hdump _ _ hready.geometry (hlength instrs (by omega)) hmem
  · have hbuild := build_val ptr hg h.space ha hptr
    rw [hbuild]
    refine hdump _ _ rfl (hlength _ ?_) ?_
    · rw [bootTriples, List.length_map, List.length_range]
    · rw [Vm.mem_withMem, hzero, bootMem_eq_fixture hg (by omega) hptr, hS]

/-- The boot layer of three slots. -/
theorem encoders_agree_boot : (vmBuildBootLoaderLayer (bootVm 3) 128).val.2.dump =
    makeFixture [(0, 128, 0), (8, 64, 8), (72, 0, 0)] 24 32 :=
  (@encoders_agree Unit _ _ _ _ bootVm_accepted.2 (hostCalloc_limit.mono (by decide))).2
    (by decide) 128 (by decide)

end SpaceVerifier.Verifier
