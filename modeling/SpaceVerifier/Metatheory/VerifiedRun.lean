import SpaceVerifier.Metatheory.CodeImmutable
import SpaceVerifier.Metatheory.DecoderAgreement
import SpaceVerifier.Metatheory.ConflictFree
import SpaceVerifier.Metatheory.MemoryVerdict

/-!
# What L1 says about runs

A PASS of `check_layer`, with protected regions that cover everything below the
workspace, puts the destinations of all copies out of the protected bits. The
image is then a shielded memory, so its code and its protected bits survive
every run. What L1 does not look at is where the copies read.
-/

namespace SpaceVerifier.Verifier

open Foundation SpaceVerifier.Runtime

/-! ## Verified images -/

/-- The regions together contain every bit below `limit`. -/
def Covers (rs : List Region) (limit : Nat) : Prop :=
  ∀ p < limit, p ∈ protectedBits rs

/-- An image of the space of an accepted machine that L1 accepts under a
configuration with the same sizes and protected regions below the workspace;
its IN request is off. -/
structure Verified (calloc : Nat → Bool) (S P : Nat) (vm : Vm)
    (prot allowed : List Region) (data : List Byte) (instrs : List Instruction) :
    Prop where
  accepted : Accepted calloc S P vm
  limit : CallocLimit calloc (2 ^ 61)
  bounds : IntBounds prot
  covers : Covers prot vm.workspaceBase
  length : data.length = S
  inReq : (imageMem data).bit vm.mmio.inReq = false
  passes : ∃ cfg tick res,
    (Config.ofSizes S P prot allowed).resolve (Int.clog 2) = .ok cfg ∧
    read cfg data = .ok instrs ∧ checkLayer cfg instrs tick = .ok res ∧
    res.status = .pass

/-- A machine with this layout whose memory holds the image. Streams, hooks,
counters and the bytes behind the space are arbitrary. -/
structure Loaded (vm : Vm) (data : List Byte) (w : World) : Prop where
  geometry : w.vm.toVmGeometry = vm.toVmGeometry
  space : w.vm.space.isSome
  holds : Holds w.vm.mem data

theorem Loaded.keeps {vm : Vm} {data : List Byte} {w : World} (hw : Loaded vm data w)
    (K : Set Nat) : Keeps vm.toVmGeometry w.vm.mem K w :=
  ⟨⟨hw.geometry, hw.space⟩, fun _ _ => rfl⟩

section Verified

variable {calloc : Nat → Bool} {S P : Nat} {vm : Vm} {prot allowed : List Region}
  {data : List Byte} {instrs : List Instruction}
  (h : Verified calloc S P vm prot allowed data instrs)
include h

theorem Verified.wf : vm.toVmGeometry.Wf ∧ vm.spaceBytes = S ∧ vm.processorN = P :=
  h.accepted.wf h.limit

/-- The decoded program, and what L1 says about each of its copies. -/
theorem Verified.program_eq :
    instrs = program (imageMem data) vm.addrBits P ∧
      ∀ ins ∈ instrs, ins.n ≠ 0 → ins.dst + ins.n ≤ vm.spaceBits ∧
        ∀ p ∈ protectedBits prot, p ∉ Set.Ico ins.dst (ins.dst + ins.n) := by
  obtain ⟨hg, hS, hP⟩ := h.wf
  obtain ⟨cfg, tick, res, hcfg, hread, hcheck, hpass⟩ := h.passes
  have hcfg' := resolve_ofSizes (spaceBytes_pos hg) vm.processorN prot allowed
  rw [hS, hP, hcfg] at hcfg'
  obtain rfl := Except.ok.inj hcfg'
  have hread' := read_machine hg (h.length.trans hS.symm) prot allowed
  rw [hS, hP, hread] at hread'
  refine ⟨Except.ok.inj hread', ?_⟩
  intro ins hins hn
  obtain ⟨hle, hfirst⟩ := checkInstr_nil rfl hn
    (checkInstrs_nil (checkLayer_pass hcheck hpass) hins)
  rw [hg.spaceBits_eq, hS]
  exact ⟨hle, fun p hp => firstIntersecting_none h.bounds hfirst hp⟩

variable {w : World} (hw : Loaded vm data w)
include hw

/-- The code of the loaded memory is the decoded program. -/
theorem Verified.slot_eq {i : Nat} (hi : i < P) :
    instrs[i]? = some
      (Instruction.ofInst i (slotInst vm.toVmGeometry w.vm.mem i)) := by
  obtain ⟨hg, hS, hP⟩ := h.wf
  have hsame : slotInst vm.toVmGeometry w.vm.mem i =
      slotInst vm.toVmGeometry (imageMem data) i := by
    have hcode := hg.processorBits_le.trans hg.workspaceBase_le
    rw [hg.spaceBits_eq, hS, ← h.length] at hcode
    exact slotInst_congr hg (hP ▸ hi) fun p hp => hw.holds.bit_eq (by omega)
  rw [hsame, h.program_eq.1]
  simp [program, hi, slotInst]

/-- **A verified image is shielded**: its protected bits, up to the registers
of the OUT channel, are out of reach of its code. -/
theorem Verified.shielded :
    Shielded vm.toVmGeometry w.vm.mem
      (protectedBits prot \ outRegs vm.toVmGeometry) := by
  obtain ⟨hg, hS, hP⟩ := h.wf
  have hin := hg.within
  have hregs : ∀ p ∈ outRegs vm.toVmGeometry, vm.mmio.outReq ≤ p := by
    intro p hp
    simp only [outRegs, Set.mem_ofPred_eq, Set.mem_Ico, hg.mmio_eq, mmioAt] at hp ⊢
    omega
  have hbelow : ∀ p < vm.mmio.outReq,
      p ∈ protectedBits prot \ outRegs vm.toVmGeometry := by
    intro p hp
    refine ⟨h.covers p (hp.trans hin.outReq.2), fun hout => ?_⟩
    have := hregs p hout
    omega
  have hslot : ∀ i < vm.processorN, (slotInst vm.toVmGeometry w.vm.mem i).n ≠ 0 →
      _ := fun i hi hn =>
    h.program_eq.2 _ (List.mem_of_getElem? (h.slot_eq hw (hP ▸ hi))) hn
  have hoff : w.vm.mem.bit vm.mmio.inReq = false := by
    have hlt := hin.inReq.2.trans_le hg.workspaceBase_le
    rw [hg.spaceBits_eq, hS, ← h.length] at hlt
    rw [hw.holds.bit_eq hlt, h.inReq]
  exact
    { code := fun p hp => hbelow p (hp.trans_le hin.outReq.1)
      inReq := hbelow _ (by
        rw [hg.mmio_eq]
        simp only [mmioAt]
        omega)
      inReq_off := hoff
      out := fun p hp => hp.2
      dst_le := fun i hi hn => (hslot i hi hn).1
      dst_away := fun i hi hn p hp => (hslot i hi hn).2 p hp.1 }

/-- **Code and protected memory are immutable.** In every run of a verified
image, of any length and however it ends, every fetch yields the instruction
that the verifier decoded from the initial image, and no protected bit changes
but the registers of the OUT channel. -/
theorem verified_run_immutable (life : Nat) :
    ((vmRun life w).All fun e => ∀ slot ins, e = .fetch slot ins →
      instrs[slot]? = some (Instruction.ofInst slot ins)) ∧
    ∀ p ∈ protectedBits prot, p ∉ outRegs vm.toVmGeometry →
      (vmRun life w).val.2.vm.mem.bit p = w.vm.mem.bit p := by
  obtain ⟨hg, -, hP⟩ := h.wf
  obtain ⟨hkeep, hall⟩ := vmRun_keeps hg (h.shielded hw) (hw.keeps _) life
  refine ⟨hall.mono fun e he slot ins heq => ?_,
    fun p hp hout => hkeep.bits p ⟨hp, hout⟩⟩
  subst heq
  obtain ⟨hlt, rfl⟩ := he
  exact h.slot_eq hw (hP ▸ hlt)

/-- **When a verified image runs without error.** L1 and L2 leave one thing
open: no run fails if and only if the machine halts at once or every copy also
reads inside the space. -/
theorem verified_run_ne_err_iff :
    (∀ life, (vmRun life w).val.1 ≠ .err) ↔
      (imageMem data).bit vm.mmio.halt = true ∨
        ∀ ins ∈ instrs, ins.n ≠ 0 → add64 ins.src ins.n ≤ vm.spaceBits := by
  obtain ⟨hg, hS, hP⟩ := h.wf
  have hin := hg.within
  have hK : vm.mmio.halt ∈ protectedBits prot \ outRegs vm.toVmGeometry := by
    refine ⟨h.covers _ hin.halt.2, ?_⟩
    have ha := hg.addrBits_ge
    simp only [outRegs, Set.mem_ofPred_eq, Set.mem_Ico, hg.mmio_eq, mmioAt]
    omega
  have hhalt : w.vm.mem.bit vm.mmio.halt = (imageMem data).bit vm.mmio.halt := by
    have hlt := hin.halt.2.trans_le hg.workspaceBase_le
    rw [hg.spaceBits_eq, hS, ← h.length] at hlt
    exact hw.holds.bit_eq hlt
  rw [vmRun_ne_err_iff hg (h.shielded hw) hK (hw.keeps _), hhalt, hP]
  refine or_congr Iff.rfl ⟨fun hall ins hins hn => ?_, fun hall i hi hout => ?_⟩
  · obtain ⟨i, hi⟩ := List.mem_iff_getElem?.mp hins
    have hlt : i < P := by
      by_contra hge
      rw [h.program_eq.1, program, List.getElem?_eq_none (by simpa using hge)] at hi
      cases hi
    have heq := Option.some.inj (hi.symm.trans (h.slot_eq hw hlt))
    have hsafe := hall i hlt
    rw [heq] at hn ⊢
    exact not_lt.mp fun hout => hsafe ⟨hn, hout⟩
  · have hmem := List.mem_of_getElem? (h.slot_eq hw hi)
    exact absurd hout.2 (not_lt.mpr (hall _ hmem hout.1))

end Verified

/-! ## One small image

`copy(8, 80, src)` in the sixteen-byte machine: L1 and L2 accept it whatever
`src` is, up to an overlap with the destination. -/

def smallRegion : Region := { name := .str "system", begin := .int 0, endBit := .int 80 }

theorem smallImage_program (src : Byte) :
    program (imageMem (smallImage 8 80 src)) 8 1 =
      [{ slot := 0, n := 8, dst := 80, src := src.toNat }] := by
  have hbyte := uintAt_byte (imageMem (smallImage 8 80 src))
  have hn := hbyte 0
  have hdst := hbyte 1
  have hsrc := hbyte 2
  simp only [program, List.range_one, List.map_cons, List.map_nil, Instruction.ofInst,
    instAt, Nat.zero_mul, Nat.zero_add]
  simp only [Nat.mul_zero, Nat.mul_one, Nat.reduceMul] at hn hdst hsrc ⊢
  rw [hn, hdst, hsrc]
  rfl

theorem smallImage_read (src : Byte) :
    read (Config.derived 16 1 [smallRegion] []) (smallImage 8 80 src) =
      .ok [{ slot := 0, n := 8, dst := 80, src := src.toNat }] := by
  have hg := (smallVm_accepted.wf (hostCalloc_limit.mono (by decide))).1
  have hlen : (smallImage 8 80 src).length = smallVm.spaceBytes := rfl
  rw [← smallImage_program]
  exact read_machine hg hlen _ _

theorem smallImage_verified (src : Byte) :
    Verified hostCalloc 16 1 smallVm [smallRegion] [] (smallImage 8 80 src)
      [{ slot := 0, n := 8, dst := 80, src := src.toNat }] where
  accepted := smallVm_accepted
  limit := hostCalloc_limit.mono (by decide)
  bounds := by
    intro r hr
    obtain rfl := List.mem_singleton.mp hr
    exact ⟨0, 80, rfl, rfl⟩
  covers := by
    intro p hp
    have hp' : p < 80 := hp
    exact ⟨smallRegion, List.mem_singleton_self _, 0, 80, rfl, rfl, by omega, by omega⟩
  length := rfl
  inReq := by
    show ((smallImage 8 80 src).getD 3 0).getMsbD 0 = false
    simp [smallImage]
  passes := ⟨_, 0, ⟨.pass, [], 1, 0⟩, resolve_ofSizes (by decide) 1 _ _,
    smallImage_read src, rfl, rfl⟩

theorem smallImage_loaded (src : Byte) :
    Loaded smallVm (smallImage 8 80 src)
      (bareWorld (smallVm.withMem (imageMem (smallImage 8 80 src)))) :=
  ⟨rfl, rfl, fun _ _ => rfl⟩

/-- The copy runs three times: each fetch yields the decoded instruction, and bits
0 to 79 stay but for the registers of the OUT channel. -/
theorem verified_run_immutable_small :
    ((vmRun 3 (bareWorld (smallVm.withMem (imageMem (smallImage 8 80 100))))).All fun e =>
      ∀ slot ins, e = .fetch slot ins →
        [⟨0, 8, 80, 100⟩][slot]? = some (Instruction.ofInst slot ins)) ∧
      ∀ p ∈ protectedBits [smallRegion], p ∉ outRegs smallGeometry →
        (vmRun 3 (bareWorld (smallVm.withMem (imageMem (smallImage 8 80 100))))).val.2.vm.mem.bit
          p = (imageMem (smallImage 8 80 100)).bit p :=
  verified_run_immutable (smallImage_verified 100) (smallImage_loaded 100) 3

theorem verified_run_ne_err_iff_small :
    Verified hostCalloc 16 1 smallVm [smallRegion] [] (smallImage 8 80 100)
        [{ slot := 0, n := 8, dst := 80, src := 100 }] ∧
      ∀ life, (vmRun life (bareWorld (smallVm.withMem
        (imageMem (smallImage 8 80 100))))).val.1 ≠ .err :=
  ⟨smallImage_verified 100,
    (verified_run_ne_err_iff (smallImage_verified 100) (smallImage_loaded 100)).mpr
      (Or.inr (by decide))⟩

/-- A verified image that fails in its first tick: the copy reads past the end
of the space, which neither level looks at. -/
theorem verified_run_fails :
    Verified hostCalloc 16 1 smallVm [smallRegion] [] (smallImage 8 80 250)
        [{ slot := 0, n := 8, dst := 80, src := 250 }] ∧
      checkTick [{ slot := 0, n := 8, dst := 80, src := 250 }] 0 = [] ∧
      ¬ ∀ life, (vmRun life (bareWorld (smallVm.withMem
        (imageMem (smallImage 8 80 250))))).val.1 ≠ .err := by
  refine ⟨smallImage_verified 250, by decide, fun hall => hall 1 ?_⟩
  rfl

end SpaceVerifier.Verifier
