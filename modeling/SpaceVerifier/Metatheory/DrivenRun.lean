import SpaceVerifier.Metatheory.VerifiedRounds

/-!
# A verified image and its host

Between ticks the memory belongs to the host: it fills the workspace, takes results
out of it, requests output. What L1 promises does not depend on the host doing
nothing, only on the host keeping the protected bits. Then every tick of every
interleaving of the two is a round of the verified program, on the memory it finds.
-/

namespace SpaceVerifier.Verifier

open Foundation SpaceVerifier.Runtime

/-- The states after `n` ticks from `w₀` on, with steps of a host in between that leave
the bits `K` of the memory alone. A host may change the streams, the hooks and the
diagnostics as well. -/
inductive Driven (g : VmGeometry) (K : Set Nat) (w₀ : World) : Nat → World → Prop
  | start : Driven g K w₀ 0 w₀
  | host {n : Nat} {w w' : World} (h : Driven g K w₀ n w) (hready : Ready g w')
      (hbits : Set.EqOn w'.vm.mem.bit w.vm.mem.bit K) : Driven g K w₀ n w'
  | tick {n : Nat} {w : World} (h : Driven g K w₀ n w) : Driven g K w₀ (n + 1) (vmTick w).val.2

theorem Driven.mono {g : VmGeometry} {K K' : Set Nat} (hK : K' ⊆ K) {w₀ : World} {n : Nat}
    {v : World} (hv : Driven g K w₀ n v) : Driven g K' w₀ n v := by
  induction hv with
  | start => exact .start
  | host _ hready hbits ih => exact ih.host hready (hbits.mono hK)
  | tick _ ih => exact ih.tick

section Verified

variable {calloc : Nat → Bool} {S P : Nat} {vm : Vm} {prot allowed : List Region}
  {data : List Byte} {instrs : List Instruction}
  (h : Verified calloc S P vm prot allowed data instrs) {w : World} (hw : Loaded vm data w)
include h hw

/-- The invariant: what the host leaves alone the program keeps as well. -/
theorem Driven.keeps {n : Nat} {v : World}
    (hv : Driven vm.toVmGeometry (keptBits vm.toVmGeometry prot) w n v) :
    Keeps vm.toVmGeometry w.vm.mem (keptBits vm.toVmGeometry prot) v := by
  obtain ⟨hg, -, -⟩ := h.wf
  induction hv with
  | start => exact hw.keeps _
  | host _ hready hbits ih => exact ⟨hready, fun p hp => (hbits hp).trans (ih.bits p hp)⟩
  | tick _ ih => exact (vmTick_keeps hg (h.shielded hw) ih).result

/-- The device of a verified image writes its registers only. -/
theorem Verified.served_bit {v : World}
    (hv : Keeps vm.toVmGeometry w.vm.mem (keptBits vm.toVmGeometry prot) v) {p : Nat}
    (hp : p ∉ outRegs vm.toVmGeometry) : (served v).vm.mem.bit p = v.vm.mem.bit p := by
  obtain ⟨hg, -, -⟩ := h.wf
  have hdevice := (serviceOut_serving hg hv.ready.reset.geometry hv.ready.reset.space).serves
  rw [(h.served_eq hw hv).1]
  exact hdevice.vm.bit_eq hp

/-- **Every interleaving of ticks and a host runs rounds.** However a host that keeps
the protected bits has driven the machine, these bits are as they were loaded, and the
next tick returns `VM_OK`, reads no input, sends at most the block the host has
requested, and leaves the round of the verified program on the memory it found, up to
the registers of the OUT channel; if L2 accepts the program, in any order of its
instructions. -/
theorem driven_rounds (hrun : Runnable vm data instrs) (hlimit : CallocLimit calloc (2 ^ 53))
    {n : Nat} {v : World}
    (hv : Driven vm.toVmGeometry (keptBits vm.toVmGeometry prot) w n v) :
    (∀ p ∈ keptBits vm.toVmGeometry prot, v.vm.mem.bit p = w.vm.mem.bit p) ∧
      (vmTick v).val.1 = .ok ∧ (vmTick v).val.2.inp = v.inp ∧
      (vmTick v).val.2.out.sent = v.out.sent ++ outBlock vm.toVmGeometry v ∧
      ∃ m, Set.EqOn m v.vm.mem.bit (outRegs vm.toVmGeometry)ᶜ ∧
        (vmTick v).val.2.vm.mem.bit = runRound instrs m ∧
        ∀ tick, checkTick instrs tick = [] → ∀ order : List Instruction, order.Perm instrs →
          (vmTick v).val.2.vm.mem.bit = runRound order m := by
  obtain ⟨hg, ha⟩ := addrBits_le_of_limit h.accepted hlimit
  have hkeeps := hv.keeps h hw
  have hround := h.tick_round hw hrun ha hkeeps
  obtain ⟨hinp, hout⟩ := (ranSlots hkeeps.ready.space).streams
  have hserved := (h.served_eq hw hkeeps).1
  refine ⟨hkeeps.bits, h.tick_ok hw hrun hkeeps, ?_, ?_, (served v).vm.mem.bit, ?_, hround, ?_⟩
  · rw [hinp, hserved]
    exact serviceOut_inp hg hkeeps.ready.reset
  · rw [hout, hserved]
    exact inWorld_sent hg ha hkeeps.ready
  · exact fun p hp => h.served_bit hw hkeeps hp
  · intro tick hpass order hp
    have hfree := checkTick_eq_nil.mp hpass
    rw [hround, hfree.runRound_perm (List.Perm.refl _), hfree.runRound_perm hp]

end Verified

/-! ## A host that sets a bit -/

/-- The machine of `smallImage` after a tick, and the source of its copy changed. -/
def pokedWorld : World :=
  let v := (vmTick (bareWorld (smallVm.withMem (imageMem (smallImage 8 80 100))))).val.2
  v.withVm (v.vm.withMem (v.vm.mem.setBit 100 true))

theorem poked_driven : Driven smallVm.toVmGeometry (keptBits smallVm.toVmGeometry [smallRegion])
    (bareWorld (smallVm.withMem (imageMem (smallImage 8 80 100)))) 1 pokedWorld := by
  have hready : Ready smallVm.toVmGeometry
      (vmTick (bareWorld (smallVm.withMem (imageMem (smallImage 8 80 100))))).val.2 :=
    vmTick_ready ⟨rfl, rfl⟩
  refine .host (.tick .start) (hready.withMem _) fun p hp => ?_
  obtain ⟨⟨r, hr, b, e, hb, he, -, hlt⟩, -⟩ := hp
  obtain rfl := List.mem_singleton.mp hr
  cases he
  show ((Vm.withMem _ _).mem).bit p = _
  rw [Vm.mem_withMem, Mem.bit_setBit, if_neg (by omega)]

theorem driven_rounds_small : (vmTick pokedWorld).val.1 = .ok :=
  (driven_rounds (smallImage_verified 100) (smallImage_loaded 100) smallImage_runnable
    (hostCalloc_limit.mono (by decide)) poked_driven).2.1

end SpaceVerifier.Verifier
