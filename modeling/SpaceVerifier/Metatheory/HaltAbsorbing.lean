import SpaceVerifier.Metatheory.Services

/-!
# HALT is absorbing

The device is served before the halt bit is tested, so the halting tick itself
may still write anywhere. What it cannot leave behind is a pending IN request:
from there on only the OUT service is left, which reaches neither the halt bit
nor the IN request, and which withdraws its own request the first time it runs.
-/

namespace SpaceVerifier.Runtime

open Foundation Foundation.Traced

/-! ## The invariant -/

/-- A machine that has halted: the bit is set and nothing can be read in. -/
structure Halted (g : VmGeometry) (w : World) : Prop where
  ready : Ready g w
  halt : w.vm.mem.bit g.mmio.halt = true
  inReq : w.vm.mem.bit g.mmio.inReq = false

/-- A halted machine without a pending output. -/
structure Quiet (g : VmGeometry) (w : World) : Prop extends Halted g w where
  outReq : w.vm.mem.bit g.mmio.outReq = false

/-- What a tick of a halted machine does. -/
structure HaltedTick (g : VmGeometry) (w : World) : Prop where
  rc : (vmTick w).val.1 = .halt
  noSlot : (vmTick w).All Event.NoSlot
  input : (vmTick w).val.2.inp = w.inp
  frame : ∀ p, p ∉ outRegs g → (vmTick w).val.2.vm.mem.bit p = w.vm.mem.bit p

/-! ## The OUT service of a halted machine -/

section Halt

variable {g : VmGeometry} (hg : g.Wf)
include hg

theorem halt_notMem_outRegs : g.mmio.halt ∉ outRegs g := by
  simp only [outRegs, hg.mmio_eq, mmioAt, Set.mem_ofPred_eq, Set.mem_Ico]
  omega

theorem inReq_notMem_outRegs : g.mmio.inReq ∉ outRegs g := by
  simp only [outRegs, hg.mmio_eq, mmioAt, Set.mem_ofPred_eq, Set.mem_Ico]
  omega

/-- The device phase of a halted machine is its OUT service. -/
theorem served_halted {w : World} (h : Halted g w) :
    served w = inWorld w ∧ Quiet g (served w) := by
  have hreset := h.ready.reset
  have hout := (serviceOut_serving hg hreset.geometry hreset.space).serves
  have hready := inWorld_ready h.ready
  have hinReq : (inWorld w).vm.mem.bit g.mmio.inReq = false :=
    (hout.vm.bit_eq (inReq_notMem_outRegs hg)).trans h.inReq
  have hserved : served w = inWorld w := by
    show (serviceIn (inWorld w)).val = _
    apply serviceIn_idle
    rw [hready.geometry, hinReq]
  refine ⟨hserved, ?_⟩
  rw [hserved]
  exact
    { ready := hready
      halt := (hout.vm.bit_eq (halt_notMem_outRegs hg)).trans h.halt
      inReq := hinReq
      outReq := serviceOut_outReq hg hreset }

/-! ## One tick of a halted machine -/

theorem vmTick_halted {w : World} (h : Halted g w) :
    vmTick w = ⟨(.halt, (served w).withVm (served w).vm.bump), headTrace w⟩ := by
  have hhalt : (served w).vm.mem.bit (served w).vm.mmio.halt = true := by
    rw [h.ready.served.geometry, (served_halted hg h).2.halt]
  obtain ⟨r, t, htick, hshape⟩ := vmTick_shape h.ready.space
  rw [htick]
  cases hshape with
  | halt => rfl
  | ok hrun =>
      rw [hhalt] at hrun
      cases hrun
  | err hrun =>
      rw [hhalt] at hrun
      cases hrun

/-- **The step.** A tick of a halted machine halts again, runs no slot, reads
nothing and writes OUT registers only; it leaves a quiet machine. -/
theorem Halted.tick {w : World} (h : Halted g w) :
    HaltedTick g w ∧ Quiet g (vmTick w).val.2 := by
  obtain ⟨hserved, hquiet⟩ := served_halted hg h
  have hreset := h.ready.reset
  have htick := vmTick_halted hg h
  constructor
  · refine ⟨?_, ?_, ?_, ?_⟩
    · rw [htick]
    · rw [htick]
      exact headTrace_noSlot h.ready.space
    · rw [htick]
      show (served w).inp = w.inp
      rw [hserved, inWorld, serviceOut_inp hg hreset]
      rfl
    · intro p hp
      rw [htick]
      show (served w).vm.mem.bit p = w.vm.mem.bit p
      rw [hserved]
      exact (serviceOut_serving hg hreset.geometry hreset.space).serves.vm.bit_eq hp
  · rw [htick]
    exact
      { ready := ⟨hquiet.ready.geometry, hquiet.ready.space⟩
        halt := hquiet.halt
        inReq := hquiet.inReq
        outReq := hquiet.outReq }

/-- A quiet machine emits nothing and keeps its memory. -/
theorem Quiet.tick {w : World} (h : Quiet g w) :
    (vmTick w).val.2.out = w.out ∧ (vmTick w).val.2.vm.mem = w.vm.mem := by
  have hidle : inWorld w = w.withVm w.vm.resetErr := by
    apply serviceOut_idle
    show w.vm.mem.bit w.vm.mmio.outReq = false
    rw [h.ready.geometry, h.outReq]
  rw [vmTick_halted hg h.toHalted, (served_halted hg h.toHalted).1, hidle]
  exact ⟨rfl, rfl⟩

/-- A tick that returns `VM_HALT` leaves a halted machine. -/
theorem halted_of_tick {w : World} (hw : Ready g w) (h : (vmTick w).val.1 = .halt) :
    Halted g (vmTick w).val.2 := by
  obtain ⟨r, t, htick, hshape⟩ := vmTick_shape hw.space
  rw [htick] at h ⊢
  cases hshape with
  | halt hhalt =>
      rw [hw.served.geometry] at hhalt
      exact ⟨⟨hw.served.geometry, hw.served.space⟩, hhalt, serviceIn_inReq hg (inWorld_ready hw)⟩
  | ok => cases h
  | err => cases h

/-! ## Every later tick -/

theorem Halted.ticks {w : World} (h : Halted g w) (k : Nat) :
    Halted g (ticks k w).val ∧ (0 < k → Quiet g (ticks k w).val) := by
  induction k generalizing w with
  | zero => exact ⟨h, fun hk => absurd hk (lt_irrefl 0)⟩
  | succ k ih =>
      obtain ⟨-, hquiet⟩ := h.tick hg
      obtain ⟨hhalted, hrest⟩ := ih hquiet.toHalted
      refine ⟨hhalted, ?_⟩
      intro _
      rcases Nat.eq_zero_or_pos k with rfl | hk
      · exact hquiet
      · exact hrest hk

end Halt

/-- **HALT is absorbing.** After a tick that returned `VM_HALT`, every later
tick returns it again, executes no slot, consumes no input and writes OUT
registers only; from the second one on nothing is emitted and the memory stays
as it is. -/
theorem halt_absorbing {calloc : Nat → Bool} {S P : Nat} {vm : Vm}
    (h : Accepted calloc S P vm) (hlimit : CallocLimit calloc (2 ^ 61)) {w : World}
    (hw : Ready vm.toVmGeometry w) (hhalt : (vmTick w).val.1 = .halt) (k : Nat) :
    HaltedTick vm.toVmGeometry (ticks k (vmTick w).val.2).val ∧
      (0 < k →
        (vmTick (ticks k (vmTick w).val.2).val).val.2.out =
          (ticks k (vmTick w).val.2).val.out ∧
        (vmTick (ticks k (vmTick w).val.2).val).val.2.vm.mem =
          (ticks k (vmTick w).val.2).val.vm.mem) := by
  obtain ⟨hg, -, -⟩ := h.wf hlimit
  obtain ⟨hhalted, hquiet⟩ := (halted_of_tick hg hw hhalt).ticks hg k
  exact ⟨(hhalted.tick hg).1, fun hk => (hquiet hk).tick hg⟩

/-- A machine that starts with its halt bit set. -/
theorem halt_absorbing_small :
    HaltedTick smallGeometry (ticks 3 (vmTick (bareWorld
      (smallVm.withMem fun _ => 0xFF))).val.2).val :=
  (halt_absorbing smallVm_accepted (hostCalloc_limit.mono (by decide))
    (w := bareWorld (smallVm.withMem fun _ => 0xFF)) ⟨rfl, rfl⟩ (by decide) 3).1

end SpaceVerifier.Runtime
