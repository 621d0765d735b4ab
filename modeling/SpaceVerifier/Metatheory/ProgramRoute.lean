import SpaceVerifier.Foundation.Routing
import SpaceVerifier.Metatheory.ContractIsolation

/-!
# What a verified program computes

Nothing: it moves bits. A run of a verified image composes the memory with the
route of its program, once a tick. So every bit of the result is one bit of the
start, always the same one, and two programs for one policy give the same results
on all contents that the policy leaves open, after any number of ticks, exactly
when their routes agree on one tick.
-/

namespace SpaceVerifier.Verifier

open Foundation SpaceVerifier.Runtime

/-- The bit that a round of the program puts into bit `p`. -/
def programRoute (instrs : List Instruction) : ℕ → ℕ := routeSeq (instrs.map Instruction.toMove)

theorem iterate_runRound_eq (instrs : List Instruction) (m : ℕ → Bool) (n : ℕ) :
    (runRound instrs)^[n] m = m ∘ (programRoute instrs)^[n] := by
  rw [programRoute, ← iterate_copySeq]
  congr 1
  exact funext (runRound_eq_copySeq instrs)

/-- The bits that are the same in all steady states: an OUT request has been served. -/
def pinnedBits (vm : Vm) (prot : List Region) : Set Nat :=
  keptBits vm.toVmGeometry prot ∪ {vm.mmio.outReq}

/-- The bits of the space that the policy leaves open. -/
def openBits (vm : Vm) (prot : List Region) : Set Nat :=
  {p | p < vm.spaceBits ∧ p ∉ pinnedBits vm prot}

theorem steady_iff {vm : Vm} {prot : List Region} {m₀ : Mem} {v : World}
    (hoff : m₀.bit vm.mmio.outReq = false) :
    Steady vm prot m₀ v ↔
      Ready vm.toVmGeometry v ∧ Set.EqOn v.vm.mem.bit m₀.bit (pinnedBits vm prot) := by
  constructor
  · rintro ⟨⟨hready, hbits⟩, hreq⟩
    refine ⟨hready, fun p hp => ?_⟩
    rcases hp with hp | rfl
    · exact hbits p hp
    · rw [hreq, hoff]
  · rintro ⟨hready, hbits⟩
    refine ⟨⟨hready, fun p hp => hbits (Or.inl hp)⟩, ?_⟩
    rw [hbits (Or.inr rfl), hoff]

/-! ## One program -/

section Verified

variable {calloc : Nat → Bool} {S P : Nat} {vm : Vm} {prot allowed : List Region}
  {data : List Byte} {instrs : List Instruction}
  (h : Verified calloc S P vm prot allowed data instrs)
include h

theorem Verified.route_protected {p : Nat} (hp : p ∈ protectedBits prot) :
    programRoute instrs p = p := by
  refine routeSeq_of_notMem fun mv hmv => ?_
  obtain ⟨ins, hins, rfl⟩ := List.mem_map.mp hmv
  by_cases hn : ins.n = 0
  · simp [Move.dstSpan, Instruction.toMove, hn]
  · exact (h.program_eq.2 ins hins hn).2 p hp

theorem Verified.route_pinned {p : Nat} (hp : p ∈ pinnedBits vm prot) :
    programRoute instrs p = p := by
  obtain ⟨hg, -, -⟩ := h.wf
  refine h.route_protected ?_
  rcases hp with hp | rfl
  · exact hp.1
  · exact h.covers _ hg.within.outReq.2

omit h in
/-- Sources are in the space, and so is what a route asks for. -/
theorem Runnable.route_mapsTo (hrun : Runnable vm data instrs) :
    Set.MapsTo (programRoute instrs) (Set.Iio vm.spaceBits) (Set.Iio vm.spaceBits) := by
  refine routeSeq_mapsTo fun mv hmv => ?_
  obtain ⟨ins, hins, rfl⟩ := List.mem_map.mp hmv
  rintro p ⟨hlo, hhi⟩
  have hlo' : ins.src ≤ p := hlo
  have hhi' : p < ins.src + ins.n := hhi
  exact hhi'.trans_le (hrun.src_le ins hins (by omega))

omit h in
theorem Runnable.route_open (hrun : Runnable vm data instrs) :
    Set.MapsTo (programRoute instrs) (openBits vm prot)
      (pinnedBits vm prot ∪ openBits vm prot) := by
  rintro p ⟨hspace, -⟩
  by_cases hpin : programRoute instrs p ∈ pinnedBits vm prot
  · exact Or.inl hpin
  · exact Or.inr ⟨hrun.route_mapsTo hspace, hpin⟩

variable {w : World} (hw : Loaded vm data w) (hrun : Runnable vm data instrs)
include hw hrun

theorem Verified.steady_routes (ha : vm.addrBits ≤ 56) {v : World}
    (hv : Steady vm prot w.vm.mem v) (n : Nat) :
    (vmRun n v).val.2.vm.mem.bit = v.vm.mem.bit ∘ (programRoute instrs)^[n] := by
  rw [(h.steady_run hw hrun ha hv n).2.1, iterate_runRound_eq]

/-- **A verified program moves bits.** From every state that keeps the protected bits
and has no OUT request pending, any number of ticks returns `VM_OK`, uses no stream
and leaves in every bit the bit of the start that the iterated route points at; the
route stays in the space and leaves the protected bits where they are. -/
theorem verified_run_routes (hlimit : CallocLimit calloc (2 ^ 53)) {v : World}
    (hv : Steady vm prot w.vm.mem v) (n : Nat) :
    (vmRun n v).val.1 = .ok ∧ (vmRun n v).val.2.inp = v.inp ∧ (vmRun n v).val.2.out = v.out ∧
      (∀ p, (vmRun n v).val.2.vm.mem.bit p = v.vm.mem.bit ((programRoute instrs)^[n] p)) ∧
      Set.MapsTo (programRoute instrs) (Set.Iio vm.spaceBits) (Set.Iio vm.spaceBits) ∧
      ∀ p ∈ protectedBits prot, programRoute instrs p = p := by
  obtain ⟨-, ha⟩ := addrBits_le_of_limit h.accepted hlimit
  obtain ⟨hrc, -, hinp, hout⟩ := h.steady_run hw hrun ha hv n
  refine ⟨hrc, hinp, hout, fun p => ?_, hrun.route_mapsTo, fun p => h.route_protected⟩
  rw [h.steady_routes hw hrun ha hv n]
  rfl

end Verified

/-- After three ticks bit 80 is what bit 100 was. -/
theorem verified_run_routes_small :
    (vmRun 3 (bareWorld (smallVm.withMem (imageMem (smallImage 8 80 100))))).val.2.vm.mem.bit 80 =
      (imageMem (smallImage 8 80 100)).bit 100 :=
  have hroutes := verified_run_routes (smallImage_verified 100) (smallImage_loaded 100)
    smallImage_runnable (hostCalloc_limit.mono (by decide))
    ⟨(smallImage_loaded 100).keeps _, rfl⟩ 3
  hroutes.2.2.2.1 80

/-! ## Two programs -/

/-- Machines that have the protected bits of `m` and of `m'` leave the same open bits,
from all contents of these bits and after any number of ticks. -/
def SameResults (vm : Vm) (prot : List Region) (m m' : Mem) : Prop :=
  ∀ v v', Steady vm prot m v → Steady vm prot m' v' →
    Set.EqOn v.vm.mem.bit v'.vm.mem.bit (openBits vm prot) →
    ∀ n, Set.EqOn (vmRun n v).val.2.vm.mem.bit (vmRun n v').val.2.vm.mem.bit (openBits vm prot)

section Pair

variable {calloc : Nat → Bool} {S P : Nat} {vm : Vm} {prot allowed allowed' : List Region}
  {data data' : List Byte} {instrs instrs' : List Instruction} {w w' : World}
  (h : Verified calloc S P vm prot allowed data instrs) (hw : Loaded vm data w)
  (hrun : Runnable vm data instrs) (hoff : w.vm.mem.bit vm.mmio.outReq = false)
  (h' : Verified calloc S P vm prot allowed' data' instrs') (hw' : Loaded vm data' w')
  (hrun' : Runnable vm data' instrs') (hoff' : w'.vm.mem.bit vm.mmio.outReq = false)
include h hw hrun hoff h' hw' hrun' hoff'

end Pair

/-! ## Two copies in either order -/

/-- `pairImage` with its two copies in the other order. -/
def swapImage : List Byte := [8, 128, 136, 8, 112, 120] ++ List.replicate 26 0

def swapProgram : List Instruction :=
  [{ slot := 0, n := 8, dst := 128, src := 136 }, { slot := 1, n := 8, dst := 112, src := 120 }]

theorem pair_route (p : Nat) : programRoute pairProgram p =
    if 112 ≤ p ∧ p < 120 ∨ 128 ≤ p ∧ p < 136 then p + 8 else p := by
  show (Move.mk 8 112 120).route ((Move.mk 8 128 136).route p) = _
  simp only [Move.route, Move.covers, decide_eq_true_eq]
  split_ifs <;> omega

theorem swap_route (p : Nat) : programRoute swapProgram p = programRoute pairProgram p := by
  rw [pair_route]
  show (Move.mk 8 128 136).route ((Move.mk 8 112 120).route p) = _
  simp only [Move.route, Move.covers, decide_eq_true_eq]
  split_ifs <;> omega

theorem pair_pinned_lt {p : Nat} (hp : p ∈ pinnedBits (bootVm 2) [pairRegion]) : p < 104 := by
  rcases hp with ⟨⟨r, hr, b, e, -, he, -, hlt⟩, -⟩ | rfl
  · obtain rfl := List.mem_singleton.mp hr
    cases he
    exact Int.ofNat_lt.mp hlt
  · decide

theorem pair_route_open {p : Nat} (hp : p ∈ openBits (bootVm 2) [pairRegion]) :
    programRoute pairProgram p ∈ openBits (bootVm 2) [pairRegion] := by
  rw [pair_route]
  split
  · next hmoved =>
      refine ⟨?_, fun hpin => ?_⟩
      · show p + 8 < 256
        omega
      · have := pair_pinned_lt hpin
        omega
  · exact hp

end SpaceVerifier.Verifier
