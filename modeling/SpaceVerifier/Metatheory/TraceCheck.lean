import SpaceVerifier.Metatheory.HookTrace
import SpaceVerifier.Metatheory.RoundSemantics

/-!
# Checking a recorded trace

A run with its hooks installed is recorded, the copies of every tick are taken
out of the record, and L2 is run on them. A record is cut into ticks by its
`tick_begin` events alone, since the last tick of a run may never be closed. A
trace that passes tells what each tick did: its copies could have been made in
any order, or all at once.
-/

namespace SpaceVerifier.Runtime

open Foundation Foundation.Traced

/-! ## What a trace records -/

/-- The triple `(n, dst, src)` of a noted copy. -/
def HookEvent.op : HookEvent → Option (Nat × Nat × Nat)
  | .noteCopy dst n src => some (n, dst, src)
  | _ => none

def HookEvent.opens : HookEvent → Bool
  | .tickBegin _ => true
  | _ => false

/-- The layers of a trace: the copies noted behind each `tick_begin`. -/
def traceLayers (log : List HookEvent) : List (List (Nat × Nat × Nat)) :=
  (blocksAt HookEvent.opens log).map (·.filterMap HookEvent.op)

/-- What a tick that reaches its slots notes behind `tick_begin`. -/
def tickBody (w : World) : List HookEvent :=
  slotNotes (served w).vm (slotsRun w) ++
    if slotsRun w = (served w).vm.processorN then [.tickEnd] else []

def tickLog (w : World) : List HookEvent :=
  if halts w then [] else .tickBegin (served w).vm.processorN :: tickBody w

/-- The copies of a tick. -/
def tickOps (w : World) : List (Nat × Nat × Nat) :=
  (slotNotes (served w).vm (slotsRun w)).filterMap HookEvent.op

/-- With all hooks installed a tick records its copies. -/
theorem vmTick_log {w : World} (hs : w.vm.space.isSome)
    (hhooks : w.vm.hooks = ⟨true, true, true⟩) :
    (vmTick w).val.2.hookLog = w.hookLog ++ tickLog w := by
  have hran := ranSlots hs
  obtain ⟨r, t, htick, hshape⟩ := vmTick_shape hs
  have hval : (vmTick w).val = r := by rw [htick]
  cases hshape with
  | halt hhalt =>
      rw [hval, tickLog, if_pos (show halts w = true from hhalt), List.append_nil]
      exact (mmioPhase_yields hs).result.hookLog
  | ok =>
      obtain ⟨hgo, hrun⟩ := hran.ok.mp (by rw [hval])
      have hend : ((begun w).beforeSlot (served w).vm.processorN).vm.hooks.tickEnd = true := by
        rw [World.vm_beforeSlot, Vm.hooks_beforeSlot, vm_begun, hooks_served hhooks hs]
      rw [hval, tickLog, if_neg (by rw [hgo]; exact Bool.false_ne_true), tickBody, if_pos hrun,
        hrun]
      show ((begun w).beforeSlot (served w).vm.processorN).ended.hookLog = _
      rw [hookLog_ended hend, hookLog_beforeSlot hhooks hs, List.append_assoc]
      rfl
  | @err j hhalt hfirst =>
      have hnot : ¬ halts w = true := by rw [halts, hhalt]; exact Bool.false_ne_true
      have hrun : slotsRun w = j := (if_neg hnot).trans (goodSlots_of_least hfirst)
      rw [hval, tickLog, if_neg hnot, tickBody, hrun, if_neg hfirst.1.1.ne, List.append_nil]
      exact hookLog_beforeSlot hhooks hs j

theorem tickBody_unmarked (w : World) : ∀ e ∈ tickBody w, e.opens = false := by
  intro e he
  rcases List.mem_append.mp he with he | he
  · obtain ⟨i, -, hi⟩ := List.mem_filterMap.mp he
    unfold slotNote at hi
    split at hi
    · cases hi
    · rw [← Option.some.inj hi]
      rfl
  · split at he
    · rw [List.mem_singleton.mp he]
      rfl
    · exact absurd he List.not_mem_nil

theorem tickBody_ops (w : World) : (tickBody w).filterMap HookEvent.op = tickOps w := by
  unfold tickBody tickOps
  rw [List.filterMap_append]
  split
  · rw [show [HookEvent.tickEnd].filterMap HookEvent.op = [] from rfl, List.append_nil]
  · exact List.append_nil _

/-- **The layers of a recorded run** are the copies of its ticks that reached
their slots, one layer a tick. -/
theorem traceLayers_tickLogs (ws : List World) :
    traceLayers (ws.flatMap tickLog) = (ws.filter fun w => !halts w).map tickOps := by
  have hblocks : ws.flatMap tickLog =
      ((ws.filter fun w => !halts w).map fun w =>
        (HookEvent.tickBegin (served w).vm.processorN, tickBody w)).flatMap
          fun b => b.1 :: b.2 := by
    induction ws with
    | nil => rfl
    | cons w ws ih =>
        rw [List.flatMap_cons, ih, tickLog]
        cases hhalt : halts w <;> simp [hhalt]
  unfold traceLayers
  rw [hblocks, blocksAt_flatMap ?_, List.map_map, List.map_map]
  · exact List.map_congr_left fun w _ => tickBody_ops w
  · intro b hb
    obtain ⟨w, -, rfl⟩ := List.mem_map.mp hb
    exact ⟨rfl, tickBody_unmarked w⟩

/-- The record of a run that starts with an empty one. -/
theorem vmRun_log {g : VmGeometry} {w : World} (hw : Ready g w)
    (hhooks : w.vm.hooks = ⟨true, true, true⟩) (life : Nat) :
    (vmRun life w).val.2.hookLog = w.hookLog ++ (runStarts life w).flatMap tickLog := by
  have hkeep : ∀ v : World, Ready g v ∧ v.vm.hooks = ⟨true, true, true⟩ →
      Ready g (vmTick v).val.2 ∧ (vmTick v).val.2.vm.hooks = ⟨true, true, true⟩ :=
    fun v hv => ⟨vmTick_ready hv.1, (vmTick_hooks v).trans hv.2⟩
  rw [vmRun_eq]
  exact runWhile_log hkeep (fun v hv => vmTick_log hv.1.space hv.2) ⟨hw, hhooks⟩ life

end SpaceVerifier.Runtime

namespace SpaceVerifier.Verifier

open Foundation SpaceVerifier.Runtime

/-! ## What a passing trace says -/

/-- The move of a triple `(n, dst, src)`. -/
def opMove (op : Nat × Nat × Nat) : Move := { n := op.1, dst := op.2.1, src := op.2.2 }

theorem batch_moves (ops : List (Nat × Nat × Nat)) :
    (batch ops).map Instruction.toMove = ops.map opMove := by
  calc (batch ops).map Instruction.toMove
      = ops.zipIdx.map (opMove ∘ Prod.fst) := List.map_map
    _ = (ops.zipIdx.map Prod.fst).map opMove := List.map_map.symm
    _ = ops.map opMove := by rw [List.zipIdx_map_fst]

theorem tickOps_moves (w : World) :
    (batch (tickOps w)).map Instruction.toMove = slotMoves (served w).vm (slotsRun w) := by
  rw [batch_moves, tickOps, slotMoves, slotNotes, List.filterMap_filterMap,
    List.map_filterMap]
  refine List.filterMap_congr fun i _ => ?_
  unfold slotNote slotMove
  split <;> rfl

/-- Sound copies are sound whatever slot number they are given. -/
theorem slotIns_exact {w : World} (h : ∀ ins ∈ batch (tickOps w), ins.Exact) {i : Nat}
    (hi : i < slotsRun w) : (slotIns (served w).vm i).Exact := by
  by_cases hn : (slotIns (served w).vm i).n = 0
  · exact Or.inl (by rw [hn]; decide)
  · have hmem : (slotIns (served w).vm i).toMove ∈
        (batch (tickOps w)).map Instruction.toMove := by
      rw [tickOps_moves, mem_slotMoves]
      exact ⟨i, hi, hn, rfl⟩
    obtain ⟨ins, hins, hmove⟩ := List.mem_map.mp hmem
    have hexact := h ins hins
    injection hmove with h₁ h₂ h₃
    unfold Instruction.Exact at hexact
    rwa [h₁, h₂, h₃] at hexact

/-- The copies of the tick could have been made in any order. -/
def AnyOrder (w : World) (ops : List (Nat × Nat × Nat)) : Prop :=
  ∀ order, order.Perm (batch ops) →
    (vmTick w).val.2.vm.mem.bit = runRound order (served w).vm.mem.bit

theorem anyOrder_of_conflictFree {g : VmGeometry} (hg : g.Wf) (ha : g.addrBits ≤ 56)
    {w : World} (hw : Ready g w) (hfree : ConflictFree (batch (tickOps w)))
    (hexact : ∀ ins ∈ batch (tickOps w), ins.Exact) : AnyOrder w (tickOps w) := by
  intro order hp
  rw [hfree.runRound_perm hp, ← hfree.runRound_perm (List.Perm.refl _), runRound_eq_copySeq,
    tickOps_moves]
  exact vmTick_moves hg ha hw fun i hi => slotIns_exact hexact hi

/-- **A recorded run is a run of rounds.** Every run that is recorded leaves one batch
for each tick that was not halted. Where L2 passes a batch and its copies are sound, the
memory its tick leaves is the round of the batch, in any order, on the memory the device
has left. -/
theorem recorded_run_rounds {calloc : Nat → Bool} {S P : Nat} {vm : Vm}
    (h : Accepted calloc S P vm) (hlimit : CallocLimit calloc (2 ^ 53)) {w : World}
    (hw : Ready vm.toVmGeometry w) (hhooks : w.vm.hooks = ⟨true, true, true⟩)
    (hlog : w.hookLog = []) (life : Nat) :
    traceLayers (vmRun life w).val.2.hookLog =
        ((runStarts life w).filter fun w => !halts w).map tickOps ∧
      List.Forall₂ (fun v ops => checkBatch ops 0 = [] → (∀ ins ∈ batch ops, ins.Exact) →
          AnyOrder v ops)
        ((runStarts life w).filter fun w => !halts w)
        (traceLayers (vmRun life w).val.2.hookLog) := by
  obtain ⟨hg, ha⟩ := addrBits_le_of_limit h hlimit
  have hlayers : traceLayers (vmRun life w).val.2.hookLog =
      ((runStarts life w).filter fun w => !halts w).map tickOps := by
    rw [vmRun_log hw hhooks, hlog, List.nil_append, traceLayers_tickLogs]
  refine ⟨hlayers, ?_⟩
  rw [hlayers, List.forall₂_map_right_iff, List.forall₂_same]
  intro v hv hpass hexact
  have hready := runStarts_ready hw life v (List.mem_filter.mp hv).1
  exact anyOrder_of_conflictFree hg ha hready (checkTick_eq_nil.mp hpass) hexact

/-- One copy of eight bits, recorded and checked. -/
theorem recorded_run_rounds_copy :
    ((runStarts 1 (hookedWorld copyMem)).filter fun w => !halts w).map tickOps =
        [[(8, 88, 80)]] ∧
      List.Forall₂ AnyOrder
        ((runStarts 1 (hookedWorld copyMem)).filter fun w => !halts w) [[(8, 88, 80)]] := by
  have hlayers : traceLayers (vmRun 1 (hookedWorld copyMem)).val.2.hookLog =
      [[(8, 88, 80)]] := by decide +kernel
  obtain ⟨hbatches, hrounds⟩ := recorded_run_rounds smallVm_accepted
    (hostCalloc_limit.mono (by decide)) (w := hookedWorld copyMem) ⟨rfl, rfl⟩ rfl rfl 1
  rw [hlayers] at hbatches hrounds
  obtain ⟨v, rest, hround, hrest, hticks⟩ := List.forall₂_cons_right_iff.mp hrounds
  rw [hticks] at hbatches ⊢
  refine ⟨hbatches.symm, .cons (hround (by decide) (by decide)) ?_⟩
  rwa [List.forall₂_nil_right_iff] at hrest ⊢

end SpaceVerifier.Verifier
