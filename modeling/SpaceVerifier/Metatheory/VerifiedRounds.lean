import SpaceVerifier.Metatheory.HaltAbsorbing
import SpaceVerifier.Metatheory.OutputHandshake
import SpaceVerifier.Metatheory.TraceCheck
import SpaceVerifier.Metatheory.VerifiedRun

/-!
# The rounds of a verified image

A run of an image that L1 accepts is an iteration of one round: the same code
in every tick, the OUT channel served at most once, the input never touched. If
L2 accepts the image too, the round settles: whatever the image has to compute
it has computed after its first tick. And what such a run records passes L2
again.
-/

namespace SpaceVerifier.Verifier

open Foundation SpaceVerifier.Runtime

/-- What neither level looks at: the image is not halted, its copies read inside
the space and take a sound branch of `bitcpy`. -/
structure Runnable (vm : Vm) (data : List Byte) (instrs : List Instruction) : Prop where
  halt : (imageMem data).bit vm.mmio.halt = false
  src_le : ∀ ins ∈ instrs, ins.n ≠ 0 → ins.src + ins.n ≤ vm.spaceBits
  exact : ∀ ins ∈ instrs, ins.Exact

/-- The bits that a verified image keeps. -/
def keptBits (g : VmGeometry) (prot : List Region) : Set Nat := protectedBits prot \ outRegs g

/-- The rest of a run of a verified image: no OUT request is left. -/
def Steady (vm : Vm) (prot : List Region) (m₀ : Mem) (v : World) : Prop :=
  Keeps vm.toVmGeometry m₀ (keptBits vm.toVmGeometry prot) v ∧
    v.vm.mem.bit vm.mmio.outReq = false

section Verified

variable {calloc : Nat → Bool} {S P : Nat} {vm : Vm} {prot allowed : List Region}
  {data : List Byte} {instrs : List Instruction}
  (h : Verified calloc S P vm prot allowed data instrs) {w : World} (hw : Loaded vm data w)
include h hw

/-! ## One tick -/

theorem Verified.slot_inst {v : World}
    (hv : Keeps vm.toVmGeometry w.vm.mem (keptBits vm.toVmGeometry prot) v) {i : Nat}
    (hi : i < P) :
    instrs[i]? = some (Instruction.ofInst i (slotIns (served v).vm i)) := by
  obtain ⟨hg, -, hP⟩ := h.wf
  have hkept := served_keeps hg (h.shielded hw) hv
  rw [hkept.slotIns_eq hg (h.shielded hw) (hP ▸ hi)]
  exact h.slot_eq hw hi

/-- The moves of a tick are those of the verified program. -/
theorem Verified.moves_eq {v : World}
    (hv : Keeps vm.toVmGeometry w.vm.mem (keptBits vm.toVmGeometry prot) v) :
    instrs.map Instruction.toMove =
      (List.range P).map fun i => (slotIns (served v).vm i).toMove := by
  have hlen : instrs.length = P := by
    rw [h.program_eq.1, program, List.length_map, List.length_range]
  refine List.ext_getElem? fun i => ?_
  rw [List.getElem?_map, List.getElem?_map]
  by_cases hi : i < P
  · rw [h.slot_inst hw hv hi, List.getElem?_range hi]
    rfl
  · rw [List.getElem?_eq_none (by omega), List.getElem?_eq_none (by simpa using hi)]
    rfl

omit hw in
/-- Control bits behind the code are no destination. -/
theorem Verified.control_notMem {p : Nat} (hp : p < vm.workspaceBase) :
    ∀ ins ∈ instrs, p ∉ Set.Ico ins.dst (ins.dst + ins.n) := by
  intro ins hins
  by_cases hn : ins.n = 0
  · simp [hn]
  · exact (h.program_eq.2 ins hins hn).2 p (h.covers p hp)

/-- The device of a verified image serves the OUT channel only. -/
theorem Verified.served_eq {v : World}
    (hv : Keeps vm.toVmGeometry w.vm.mem (keptBits vm.toVmGeometry prot) v) :
    served v = inWorld v ∧ (served v).vm.mem.bit vm.mmio.outReq = false := by
  obtain ⟨hg, -, -⟩ := h.wf
  have hshield := h.shielded hw
  have hready := inWorld_ready hv.ready
  have hout := (serviceOut_serving hg hv.ready.reset.geometry hv.ready.reset.space).serves
  have hinReq : (inWorld v).vm.mem.bit vm.mmio.inReq = false :=
    ((hout.vm.bit_eq (inReq_notMem_outRegs hg)).trans (hv.bits _ hshield.inReq)).trans
      hshield.inReq_off
  have hserved : served v = inWorld v := by
    show (serviceIn (inWorld v)).val = _
    apply serviceIn_idle
    rw [hready.geometry, hinReq]
  rw [hserved]
  exact ⟨rfl, serviceOut_outReq hg hv.ready.reset⟩

/-! ## One tick of a runnable image -/

variable (hrun : Runnable vm data instrs)
include hrun

theorem Verified.tick_ok {v : World}
    (hv : Keeps vm.toVmGeometry w.vm.mem (keptBits vm.toVmGeometry prot) v) :
    (vmTick v).val.1 = .ok := by
  obtain ⟨hg, hS, hP⟩ := h.wf
  have hin := hg.within
  have hhalt : vm.mmio.halt ∈ keptBits vm.toVmGeometry prot :=
    ⟨h.covers _ hin.halt.2, halt_notMem_outRegs hg⟩
  have hoff : w.vm.mem.bit vm.mmio.halt = false := by
    have hlt := hin.halt.2.trans_le hg.workspaceBase_le
    rw [hg.spaceBits_eq, hS, ← h.length] at hlt
    rw [hw.holds.bit_eq hlt, hrun.halt]
  obtain ⟨hhalts, herrs⟩ := vmTick_rc hg (h.shielded hw) hhalt hv
  cases hrc : (vmTick v).val.1 with
  | ok => rfl
  | halt =>
      have hset := hhalts.mp hrc
      rw [hoff] at hset
      cases hset
  | err =>
      obtain ⟨-, i, hi, hn, hsource⟩ := herrs.mp hrc
      have hmem := List.mem_of_getElem? (h.slot_eq hw (hP ▸ hi))
      have hle := hrun.src_le _ hmem hn
      have hspace := hg.spaceBits_le
      simp only [Instruction.ofInst] at hle
      rw [add64_of_lt (by omega)] at hsource
      omega

/-- **A tick of a verified image is one round** of its instructions, on the
memory that the OUT channel has left. -/
theorem Verified.tick_round (ha : vm.addrBits ≤ 56) {v : World}
    (hv : Keeps vm.toVmGeometry w.vm.mem (keptBits vm.toVmGeometry prot) v) :
    (vmTick v).val.2.vm.mem.bit = runRound instrs (served v).vm.mem.bit := by
  obtain ⟨hg, -, hP⟩ := h.wf
  have hslots : slotsRun v = P := by
    rw [((ranSlots hv.ready.space).ok.mp (h.tick_ok hw hrun hv)).2,
      hv.ready.served.processorN, hP]
  have hexact : ∀ i < slotsRun v, (slotIns (served v).vm i).Exact := by
    intro i hi
    exact hrun.exact _ (List.mem_of_getElem? (h.slot_inst hw hv (hslots ▸ hi)))
  rw [vmTick_moves hg ha hv.ready hexact, hslots, slotMoves_eq, ← h.moves_eq hw hv,
    copySeq_filter_nonempty, runRound_eq_copySeq]

theorem Verified.tick_steady (ha : vm.addrBits ≤ 56) {v : World}
    (hv : Keeps vm.toVmGeometry w.vm.mem (keptBits vm.toVmGeometry prot) v) :
    Steady vm prot w.vm.mem (vmTick v).val.2 := by
  obtain ⟨hg, -, -⟩ := h.wf
  refine ⟨(vmTick_keeps hg (h.shielded hw) hv).result, ?_⟩
  rw [h.tick_round hw hrun ha hv,
    runRound_of_notMem _ (h.control_notMem hg.within.outReq.2)]
  exact (h.served_eq hw hv).2

/-- A steady machine runs its round and nothing else. -/
theorem Verified.steady_round (ha : vm.addrBits ≤ 56) {v : World}
    (hv : Steady vm prot w.vm.mem v) :
    (vmTick v).val.2.vm.mem.bit = runRound instrs v.vm.mem.bit ∧
      (vmTick v).val.2.inp = v.inp ∧ (vmTick v).val.2.out = v.out := by
  have hidle : served v = v.withVm v.vm.resetErr := by
    rw [(h.served_eq hw hv.1).1]
    apply serviceOut_idle
    show v.vm.mem.bit v.vm.mmio.outReq = false
    rw [hv.1.ready.geometry, hv.2]
  obtain ⟨hinp, hout⟩ := (ranSlots hv.1.ready.space).streams
  rw [h.tick_round hw hrun ha hv.1, hinp, hout, hidle]
  exact ⟨rfl, rfl, rfl⟩

/-! ## Whole runs -/

/-- The steady part of a run iterates the round. -/
theorem Verified.steady_run (ha : vm.addrBits ≤ 56) {v : World}
    (hv : Steady vm prot w.vm.mem v) (life : Nat) :
    (vmRun life v).val.1 = .ok ∧
      (vmRun life v).val.2.vm.mem.bit = (runRound instrs)^[life] v.vm.mem.bit ∧
      (vmRun life v).val.2.inp = v.inp ∧ (vmRun life v).val.2.out = v.out := by
  have hstep : ∀ v, Steady vm prot w.vm.mem v →
      (vmTick v).val.1 = .ok ∧ Steady vm prot w.vm.mem (vmTick v).val.2 :=
    fun v hv => ⟨h.tick_ok hw hrun hv.1, h.tick_steady hw hrun ha hv.1⟩
  rw [vmRun_eq, runWhile_iterate hstep hv]
  refine ⟨rfl, ?_⟩
  induction life generalizing v with
  | zero => exact ⟨rfl, rfl, rfl⟩
  | succ life ih =>
      obtain ⟨hmem, hinp, hout⟩ := h.steady_round hw hrun ha hv
      rw [Function.iterate_succ_apply, Function.iterate_succ_apply, ← hmem, ← hinp, ← hout]
      exact ih (hstep v hv).2

/-- A run of at least one tick: the first one serves the OUT channel. -/
theorem Verified.run_eq (ha : vm.addrBits ≤ 56) (life : Nat) :
    (vmRun (life + 1) w).val.1 = .ok ∧
      (vmRun (life + 1) w).val.2.vm.mem.bit =
        (runRound instrs)^[life + 1] (served w).vm.mem.bit ∧
      (vmRun (life + 1) w).val.2.inp = (served w).inp ∧
      (vmRun (life + 1) w).val.2.out = (served w).out := by
  have hkeeps := hw.keeps (keptBits vm.toVmGeometry prot)
  have hok := h.tick_ok hw hrun hkeeps
  obtain ⟨hrc, hmem, hinp, hout⟩ :=
    h.steady_run hw hrun ha (h.tick_steady hw hrun ha hkeeps) life
  obtain ⟨hinp₁, hout₁⟩ := (ranSlots hw.space).streams
  have hrest : (vmRun (life + 1) w).val = (vmRun life (vmTick w).val.2).val := by
    rw [vmRun_eq, vmRun_eq, runWhile_succ, if_pos hok]
  rw [hrest, hmem, hinp, hout, h.tick_round hw hrun ha hkeeps, Function.iterate_succ_apply]
  exact ⟨hrc, rfl, hinp₁, hout₁⟩

/-- **A run of a verified image iterates its round.** With its sources in range
and its copies sound, every run returns `VM_OK` and leaves the round of the
verified program, applied once a tick to the memory that the first OUT service
leaves; it reads nothing and emits at most the block of that service. -/
theorem verified_run_rounds (hlimit : CallocLimit calloc (2 ^ 53)) (life : Nat) :
    (vmRun (life + 1) w).val.1 = .ok ∧
      (vmRun (life + 1) w).val.2.vm.mem.bit =
        (runRound instrs)^[life + 1] (served w).vm.mem.bit ∧
      (vmRun (life + 1) w).val.2.inp = w.inp ∧
      (vmRun (life + 1) w).val.2.out.sent =
        w.out.sent ++ outBlock vm.toVmGeometry w := by
  obtain ⟨hg, ha⟩ := addrBits_le_of_limit h.accepted hlimit
  have hready := (hw.keeps (keptBits vm.toVmGeometry prot)).ready
  obtain ⟨hrc, hmem, hinp, hout⟩ := h.run_eq hw hrun ha life
  obtain ⟨hserved, -⟩ := h.served_eq hw (hw.keeps _)
  refine ⟨hrc, hmem, ?_, ?_⟩
  · rw [hinp, hserved]
    exact serviceOut_inp hg hready.reset
  · rw [hout, hserved]
    exact inWorld_sent hg ha hready

/-- A verified image without conflicts has settled after its first tick. -/
theorem Verified.settles (hfree : ConflictFree instrs) {order : List Instruction}
    (hp : order.Perm instrs) (ha : vm.addrBits ≤ 56) (life : Nat) :
    (vmRun (life + 1) w).val.1 = .ok ∧
      (vmRun (life + 1) w).val.2.vm.mem.bit = runRound order (served w).vm.mem.bit := by
  obtain ⟨hrc, hmem⟩ := h.run_eq hw hrun ha life
  exact ⟨hrc, hmem.1.trans (hfree.iterate_runRound hp _ life)⟩

end Verified

theorem smallImage_runnable : Runnable smallVm (smallImage 8 80 100)
    [{ slot := 0, n := 8, dst := 80, src := 100 }] :=
  ⟨by decide, by decide, by decide⟩

/-- Eight bits from bit 100 to bit 80, four times. -/
theorem verified_run_rounds_small :
    (vmRun 4 (bareWorld (smallVm.withMem (imageMem (smallImage 8 80 100))))).val.1 = .ok :=
  (verified_run_rounds (smallImage_verified 100) (smallImage_loaded 100)
    smallImage_runnable (hostCalloc_limit.mono (by decide)) 3).1

/-! ## The trace of a verified image -/

section Trace

variable {calloc : Nat → Bool} {S P : Nat} {vm : Vm} {prot allowed : List Region}
  {data : List Byte} {instrs : List Instruction}
  (h : Verified calloc S P vm prot allowed data instrs) {w : World} (hw : Loaded vm data w)
include h hw

/-- The copies of a tick are copies of the verified program, also when the tick
stops at a bad slot. -/
theorem Verified.tickOps_sublist {v : World}
    (hv : Keeps vm.toVmGeometry w.vm.mem (keptBits vm.toVmGeometry prot) v) :
    ((batch (tickOps v)).map Instruction.toMove).Sublist (instrs.map Instruction.toMove) := by
  obtain ⟨-, -, hP⟩ := h.wf
  have hle : slotsRun v ≤ P := by
    have hran := slotsRun_le v
    rwa [hv.ready.served.processorN, hP] at hran
  rw [tickOps_moves, slotMoves_eq, h.moves_eq hw hv]
  exact List.filter_sublist.trans ((List.range_sublist.mpr hle).map _)

/-- **What a verified image records passes L2 again**: every run of an image
that both levels accept, however it ends, leaves a trace whose layers have no
conflict. -/
theorem verified_trace_passes {tick : Nat} (hpass : checkTick instrs tick = [])
    (hhooks : w.vm.hooks = ⟨true, true, true⟩) (hlog : w.hookLog = []) (life : Nat) :
    (checkLayers ((traceLayers (vmRun life w).val.2.hookLog).map batch)).status = .pass := by
  obtain ⟨hg, -, -⟩ := h.wf
  have hkeeps := hw.keeps (keptBits vm.toVmGeometry prot)
  have hkept : ∀ v ∈ runStarts life w,
      Keeps vm.toVmGeometry w.vm.mem (keptBits vm.toVmGeometry prot) v :=
    starts_inv (I := Keeps vm.toVmGeometry w.vm.mem (keptBits vm.toVmGeometry prot))
      (fun v hv => (vmTick_keeps hg (h.shielded hw) hv).result) hkeeps life
  have hnil : layerConflicts 0 ((traceLayers (vmRun life w).val.2.hookLog).map batch) = [] := by
    rw [vmRun_log hkeeps.ready hhooks, hlog, List.nil_append, traceLayers_tickLogs,
      layerConflicts_eq_nil]
    intro layer hlayer
    obtain ⟨ops, hops, rfl⟩ := List.mem_map.mp hlayer
    obtain ⟨v, hv, rfl⟩ := List.mem_map.mp hops
    exact (checkTick_eq_nil.mp hpass).of_moves
      (h.tickOps_sublist hw (hkept v (List.mem_filter.mp hv).1))
  unfold checkLayers
  rw [hnil]
  rfl

end Trace

/-- Five ticks copy, and the trace has five batches of one copy. -/
theorem verified_trace_passes_small :
    let log := (vmRun 5 (hookedWorld (imageMem (smallImage 8 80 100)))).val.2.hookLog
    traceLayers log = List.replicate 5 [(8, 80, 100)] ∧
      (checkLayers ((traceLayers log).map batch)).status = .pass :=
  ⟨by decide +kernel, verified_trace_passes (smallImage_verified 100) ⟨rfl, rfl, fun _ _ => rfl⟩
    (by decide : checkTick _ 0 = []) rfl rfl 5⟩

end SpaceVerifier.Verifier
