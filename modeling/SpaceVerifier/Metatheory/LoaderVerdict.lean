import SpaceVerifier.Metatheory.LayerChain
import SpaceVerifier.Metatheory.Reverify

/-!
# The verifier and the loader convention

A layer that loads its successor copies over the whole code, and patches the
load inside that code. The two copies write common bits, so no image of such a
layer has ever status 0, whatever regions are configured and whether L1 runs or
not.
-/

namespace SpaceVerifier.Verifier

open Foundation SpaceVerifier.Runtime

/-- The last two slots patch and load, as in every layer that loads another. -/
structure SelfLoads (g : VmGeometry) (b : Nat → Bool) : Prop where
  patch : storedInst g b 0 (g.processorN - 2) = patchInst g
  load : (storedInst g b 0 (g.processorN - 1)).n = g.processorBits ∧
    (storedInst g b 0 (g.processorN - 1)).dst = 0

section Image

variable {g : VmGeometry} (hg : g.Wf) (hP : 2 ≤ g.processorN)
include hg hP

/-- The patch and the load both write the field that is patched. -/
theorem SelfLoads.not_conflictFree {m : Mem} (h : SelfLoads g m.bit) :
    ¬ ConflictFree (program m g.addrBits g.processorN) := by
  intro hfree
  obtain ⟨-, hload⟩ := patchSlot_eq hP hg.processorN_lt
  have hslot := hg.slot_le (i := g.processorN - 1) (by omega)
  have ha := hg.addrBits_ge
  have hget : ∀ i, (hi : i < g.processorN) →
      ((program m g.addrBits g.processorN).map Instruction.toMove)[i]? =
        some (storedInst g m.bit 0 i).toMove := by
    intro i hi
    rw [← slotInst_eq_stored]
    simp [program, hi, Instruction.ofInst, Instruction.toMove, VmInst.toMove, slotInst]
  obtain ⟨hlt₂, hpatch⟩ := List.getElem?_eq_some_iff.mp (hget (g.processorN - 2) (by omega))
  obtain ⟨hlt₁, hload'⟩ := List.getElem?_eq_some_iff.mp (hget (g.processorN - 1) (by omega))
  have hindep := List.pairwise_iff_getElem.mp hfree.indep _ _ hlt₂ hlt₁ (by omega)
  rw [hpatch, hload', h.patch] at hindep
  have hpatched : (patchInst g).dst ∈ (patchInst g).toMove.dstSpan := by
    simp only [Move.dstSpan, VmInst.toMove, patchInst, Set.mem_Ico]
    omega
  have hloaded : (patchInst g).dst ∈
      (storedInst g m.bit 0 (g.processorN - 1)).toMove.dstSpan := by
    simp only [Move.dstSpan, VmInst.toMove, Set.mem_Ico, h.load.1, h.load.2, patchInst, hload]
    omega
  exact Set.disjoint_left.mp hindep.1 hpatched hloaded

/-- What the builder leaves, dumped from the machine. -/
theorem boot_selfLoads {vm : Vm} (hgeo : vm.toVmGeometry = g) (m : Mem) {ptr : Nat}
    (hptr : ptr < 2 ^ g.addrBits) (hm : vm.mem = bootMem g ptr m) :
    SelfLoads g (imageMem vm.dump).bit := by
  subst hgeo
  have hbits : ∀ p < vm.processorBits, (imageMem vm.dump).bit (0 + p) =
      (bootMem vm.toVmGeometry ptr m).bit (0 + p) := by
    intro p hp
    have hcode := hg.processorBits_le.trans hg.workspaceBase_le
    rw [Nat.zero_add, bit_imageMem_dump hg (by omega), hm]
  have hslot : ∀ i < vm.processorN, storedInst vm.toVmGeometry (imageMem vm.dump).bit 0 i =
      slotInst vm.toVmGeometry (bootMem vm.toVmGeometry ptr m) i := by
    intro i hi
    rw [storedInst_congr hg hbits hi, slotInst_eq_stored]
  constructor
  · rw [hslot _ (by omega), slotInst_bootMem m hg hP hptr (by omega), if_neg (by omega),
      if_pos rfl]
  · rw [hslot _ (by omega), slotInst_bootMem m hg hP hptr (by omega), if_pos rfl]
    exact ⟨rfl, rfl⟩

end Image

/-- **No layer of the loader passes the verifier.** With a configuration of the
machine's sizes, no command line that names an image whose last two slots patch
and load has status 0; and the space is such an image after the boot layer has
been built in it, for every machine of two slots or more and every pointer. -/
theorem loader_unverifiable {calloc : Nat → Bool} {S P : Nat} {vm : Vm}
    (h : Accepted calloc S P vm) (hlimit : CallocLimit calloc (2 ^ 53))
    (hP : 2 ≤ vm.processorN) :
    (∀ (env : Env) (args : Args) (prot allowed : List Region),
      Config.init env args.config = .ok (Config.derived S P prot allowed) →
      ∀ path ∈ args.layerPaths env, ∀ data, env.file path = .file data →
        SelfLoads vm.toVmGeometry (imageMem data).bit → (main env args).status ≠ 0) ∧
    ∀ w, Ready vm.toVmGeometry w → ∀ ptr < 2 ^ vm.addrBits,
      ∃ booted, (vmBuildBootLoaderLayer w.vm ptr).val = (0, booted) ∧
        SelfLoads vm.toVmGeometry (imageMem booted.dump).bit := by
  obtain ⟨hg, ha⟩ := addrBits_le_of_limit h hlimit
  obtain ⟨-, hS, hN⟩ := h.wf (hlimit.mono (by decide))
  refine ⟨fun env args prot allowed hconfig path hpath data hdata hself hstatus => ?_,
    fun w hw ptr hptr => ?_⟩
  · obtain ⟨cfg, layers, hparse, -, hfree⟩ := clean_of_status hstatus
    obtain rfl := Except.ok.inj (hconfig.symm.trans hparse.config)
    obtain ⟨instrs, hinstrs, data', hfile, hread⟩ :=
      exists_right_of_forall₂ hparse.images hpath
    obtain rfl : data = data' := FileEntry.file.inj (hdata.symm.trans hfile)
    have hlong : S ≤ data.length := by
      have hlong := (read_ok_iff.mp ⟨instrs, hread⟩).long
      rw [show (Config.derived S P prot allowed).spaceBytes = .int S from rfl,
        PyVal.lt_int] at hlong
      have hnot := decide_eq_false_iff_not.mp (Except.ok.inj hlong)
      omega
    have haddr : addrWidth (8 * S) = vm.addrBits := by
      rw [hg.addrBits_eq, hg.spaceBits_eq, hS]
    have hfit := hg.processorBits_le.trans hg.workspaceBase_le
    have ha8 := hg.addrBits_ge
    rw [hg.processorBits_eq, hg.spaceBits_eq, hS, hN] at hfit
    have hread' : read (Config.derived S P prot allowed) data =
        .ok (program (imageMem data) vm.addrBits P) :=
      read_eq rfl rfl (by rw [← haddr]; rfl) (by omega) hg.addrBits_le hlong (by omega)
    obtain rfl := Except.ok.inj (hread.symm.trans hread')
    rw [← hN] at hinstrs
    exact hself.not_conflictFree hg hP (hfree _ hinstrs)
  · obtain ⟨hbuild, hready⟩ := build_tick hg ha hptr hw
    exact ⟨_, hbuild, boot_selfLoads hg hP hready.geometry w.vm.mem hptr (Vm.mem_withMem _ _)⟩

/-- The boot layer of three slots, on its own. -/
def bootImage : List Byte :=
  ((bootVm 3).withMem (bootMem (bootVm 3).toVmGeometry 128 fun _ => 0)).dump

def bootJson : String := "\x7b\"space_bytes\":32,\"processor_n\":3\x7d"

def bootEnv : Env :=
  { file := fun path =>
      if path = "boot.bin" then .file bootImage
      else if path = "vm.json" then .file (asciiBytes bootJson)
      else .missing
    glob := fun _ => []
    jsonLoad := jsonFile bootJson (.dict [("space_bytes", .int 32), ("processor_n", .int 3)])
    ceilLog2 := fun _ => 8
    host := sampleHost }

def bootArgs : Args :=
  { image := some "boot.bin", layers := none, config := some "vm.json", format := .text
    l2Only := true }

theorem loader_unverifiable_boot : (main bootEnv bootArgs).status ≠ 0 := by
  have hg := (addrBits_le_of_limit bootVm_accepted.2 (hostCalloc_limit.mono (by decide))).1
  have hwidth : addrWidth (8 * 32) = 8 := hg.addrBits_eq.symm
  refine (loader_unverifiable bootVm_accepted.2 (hostCalloc_limit.mono (by decide))
    (by decide)).1 bootEnv bootArgs [] [] ?_ "boot.bin" (List.mem_singleton_self _) bootImage rfl
    (boot_selfLoads hg (by decide) rfl _ (by decide) (Vm.mem_withMem _ _))
  unfold Config.derived
  rw [hwidth]
  rfl

end SpaceVerifier.Verifier
