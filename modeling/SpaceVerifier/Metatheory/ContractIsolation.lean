import SpaceVerifier.Metatheory.DrivenRun

/-!
# Isolation of contracts

A contract is a choice of instructions of an image. When nothing else in the
image writes where the contract reads or writes, the contract runs as if it had
the machine to itself: tick after tick its bits are what its own instructions
make of its own bits, whatever the image, the rest of the memory and the device
hold and whatever a host does elsewhere. An image that L2 accepts isolates every
choice of its instructions.
-/

namespace SpaceVerifier.Verifier

open Foundation SpaceVerifier.Runtime

/-! ## Rounds -/

theorem src_subset_footprint {instrs : List Instruction} {ins : Instruction}
    (hins : ins ∈ instrs) : ins.toMove.srcSpan ⊆ footprint instrs := by
  intro p hp
  have hn : 0 < ins.n := by
    obtain ⟨hlo, hhi⟩ := Set.mem_Ico.mp hp
    simp only [Instruction.toMove] at hlo hhi
    omega
  refine ⟨Set.Ico ins.src (ins.src + ins.n), mem_roundRanges.mpr ⟨ins, hins, hn, ?_⟩, hp⟩
  simp [Instruction.ranges]

theorem ConflictFree.perm {instrs instrs' : List Instruction} (h : ConflictFree instrs)
    (hp : instrs.Perm instrs') : ConflictFree instrs' := by
  unfold ConflictFree roundRanges at *
  exact h.perm ((hp.filter _).flatMap_right _) fun hd => hd.symm

/-- The other instructions do not write where the chosen ones read or write. -/
def Apart (own : Instruction → Bool) (instrs : List Instruction) : Prop :=
  ∀ ins ∈ instrs, own ins = false → Disjoint ins.toMove.dstSpan (footprint (instrs.filter own))

/-- A round without conflicts sets every choice of its instructions apart. -/
theorem ConflictFree.apart {instrs : List Instruction} (h : ConflictFree instrs)
    (own : Instruction → Bool) : Apart own instrs := by
  have hsplit : ConflictFree (instrs.filter own ++ instrs.filter fun ins => !own ins) :=
    h.perm (List.filter_append_perm own instrs).symm
  obtain ⟨-, -, hdisjoint⟩ := conflictFree_append_iff.mp hsplit
  intro ins hins hown
  have hother : ins ∈ instrs.filter fun ins => !own ins :=
    List.mem_filter.mpr ⟨hins, by rw [hown]; rfl⟩
  exact (hdisjoint.mono_right (dst_subset_footprint hother)).symm

/-- **One round.** On its own bits a contract that is set apart is the whole round. -/
theorem Apart.runRound {own : Instruction → Bool} {instrs : List Instruction}
    (h : Apart own instrs) {m m' : ℕ → Bool}
    (hm : Set.EqOn m m' (footprint (instrs.filter own))) :
    Set.EqOn (runRound instrs m) (runRound (instrs.filter own) m')
      (footprint (instrs.filter own)) := by
  rw [runRound_eq_copySeq, runRound_eq_copySeq]
  exact copySeq_filter_eqOn
    (fun ins hins hown => src_subset_footprint (List.mem_filter.mpr ⟨hins, hown⟩)) h hm

/-! ## Runs -/

/-- The bits that a contract lives on. -/
def ownBits (own : Instruction → Bool) (instrs : List Instruction) : Set ℕ :=
  footprint (instrs.filter own)

section Verified

variable {calloc : Nat → Bool} {S P : Nat} {vm : Vm} {prot allowed : List Region}
  {data : List Byte} {instrs : List Instruction}
  (h : Verified calloc S P vm prot allowed data instrs) {w : World} (hw : Loaded vm data w)
  (hrun : Runnable vm data instrs) {own : Instruction → Bool}
  (hoff : Disjoint (ownBits own instrs) (outRegs vm.toVmGeometry))
include h hw hrun hoff

/-- **One tick.** The device writes its registers only, and the rest of the tick
is the round. -/
theorem Verified.tick_apart (ha : vm.addrBits ≤ 56) (hapart : Apart own instrs) {v : World}
    (hv : Keeps vm.toVmGeometry w.vm.mem (keptBits vm.toVmGeometry prot) v) {m : ℕ → Bool}
    (hm : Set.EqOn v.vm.mem.bit m (ownBits own instrs)) :
    Set.EqOn (vmTick v).val.2.vm.mem.bit (runRound (instrs.filter own) m)
      (ownBits own instrs) := by
  have hserved : Set.EqOn (served v).vm.mem.bit m (ownBits own instrs) := by
    intro p hp
    exact (h.served_bit hw hv (Set.disjoint_left.mp hoff hp)).trans (hm hp)
  rw [h.tick_round hw hrun ha hv]
  exact hapart.runRound hserved

theorem Driven.apart (ha : vm.addrBits ≤ 56) (hapart : Apart own instrs) {n : Nat} {v : World}
    (hv : Driven vm.toVmGeometry (keptBits vm.toVmGeometry prot ∪ ownBits own instrs) w n v)
    {m : ℕ → Bool} (hm : Set.EqOn w.vm.mem.bit m (ownBits own instrs)) :
    Set.EqOn v.vm.mem.bit ((runRound (instrs.filter own))^[n] m) (ownBits own instrs) := by
  induction hv with
  | start => exact hm
  | host _ _ hbits ih => exact fun p hp => (hbits (Or.inr hp)).trans (ih hp)
  | tick hv ih =>
      have hkeeps := (hv.mono Set.subset_union_left).keeps h hw
      rw [Function.iterate_succ_apply']
      exact h.tick_apart hw hrun hoff ha hapart hkeeps ih

end Verified

/-! ## Two contracts -/

/-- The two-slot machine with two copies, from 120 to 112 and from 136 to 128. -/
def pairImage : List Byte :=
  [8, 112, 120, 8, 128, 136] ++ List.replicate 9 0 ++ [0x4F, 0, 0x4B] ++ List.replicate 14 0

def pairProgram : List Instruction :=
  [{ slot := 0, n := 8, dst := 112, src := 120 }, { slot := 1, n := 8, dst := 128, src := 136 }]

def pairRegion : Region := { name := .str "system", begin := .int 0, endBit := .int 104 }

/-- An image of the two-slot machine decodes byte by byte. -/
theorem program_bytes (data : List Byte) : program (imageMem data) 8 2 =
    (List.range 2).map fun i =>
      { slot := i, n := (data.getD (3 * i) 0).toNat, dst := (data.getD (3 * i + 1) 0).toNat
        src := (data.getD (3 * i + 2) 0).toNat } := by
  have hbyte : ∀ i, uintAt (imageMem data).bit (8 * i) 8 = (data.getD i 0).toNat :=
    uintAt_byte (imageMem data)
  refine List.map_congr_left fun i _ => ?_
  rw [← hbyte, ← hbyte, ← hbyte]
  simp only [instAt, Instruction.ofInst]
  congr 2 <;> omega

theorem pairRegion_verified {data : List Byte} {instrs : List Instruction}
    (hlen : data.length = 32) (hreq : (imageMem data).bit (bootVm 2).mmio.inReq = false)
    (hprog : program (imageMem data) 8 2 = instrs)
    (hcheck : checkLayer (Config.derived 32 2 [pairRegion] []) instrs 0 =
      .ok ⟨.pass, [], 2, 0⟩) :
    Verified hostCalloc 32 2 (bootVm 2) [pairRegion] [] data instrs := by
  have hg := (bootVm_accepted.1.wf (hostCalloc_limit.mono (by decide))).1
  exact
    { accepted := bootVm_accepted.1
      limit := hostCalloc_limit.mono (by decide)
      bounds := by
        intro r hr
        obtain rfl := List.mem_singleton.mp hr
        exact ⟨0, 104, rfl, rfl⟩
      covers := by
        intro p hp
        have hp' : p < 104 := hp
        exact ⟨pairRegion, List.mem_singleton_self _, 0, 104, rfl, rfl, by omega, by omega⟩
      length := hlen
      inReq := hreq
      passes := by
        refine ⟨_, 0, ⟨.pass, [], 2, 0⟩, resolve_ofSizes (by decide) 2 _ _, ?_, hcheck, rfl⟩
        have hspace : data.length = (bootVm 2).spaceBytes := hlen
        exact (read_machine hg hspace _ _).trans (congrArg Except.ok hprog) }

theorem pairImage_verified :
    Verified hostCalloc 32 2 (bootVm 2) [pairRegion] [] pairImage pairProgram :=
  pairRegion_verified rfl rfl (program_bytes pairImage) rfl

def pairWorld : World := bareWorld ((bootVm 2).withMem (imageMem pairImage))

end SpaceVerifier.Verifier
