import SpaceVerifier.Foundation.Run
import SpaceVerifier.Metatheory.TickSafety
import SpaceVerifier.Metatheory.BitcpyExact

/-!
# The slots of a tick as copies of ranges

The slot loop rewrites its own code, so the copies of a tick are known only as
it runs: `slotMoves` lists them. Where every copy takes a sound branch of
`bitcpy`, the memory a tick leaves is these moves applied in slot order to the
memory the device has left, and nothing else.
-/

namespace SpaceVerifier.Runtime

open Foundation Foundation.Traced

/-! ## Copies inside the space -/

theorem operands_space {g : VmGeometry} (hg : g.Wf) {n s d : Nat}
    (hs : s + n ≤ g.spaceBits) (hd : d + n ≤ g.spaceBits) :
    Operands n 0 s g.spaceBytes 0 d g.spaceBytes := by
  have heq := hg.spaceBits_eq
  have hle := hg.spaceBits_le
  exact ⟨Or.inl ⟨rfl, rfl⟩, by omega, by omega, by omega, by omega⟩

def VmInst.toMove (ins : VmInst) : Move := { n := ins.n, dst := ins.dst, src := ins.src }

/-- The copy of the instruction takes a sound branch of `bitcpy`. -/
def VmInst.Exact (ins : VmInst) : Prop := ExactWhen ins.n 0 ins.src 0 ins.dst

instance (ins : VmInst) : Decidable ins.Exact :=
  inferInstanceAs (Decidable (ExactWhen _ _ _ _ _))

/-- A sound copy inside the space is a move of bits. -/
theorem VmInst.Exact.bits {g : VmGeometry} (hg : g.Wf) {ins : VmInst} (h : ins.Exact)
    (hs : ins.src + ins.n ≤ g.spaceBits) (hd : ins.dst + ins.n ≤ g.spaceBits) (m : Mem) :
    (bitcpy m ins.n 0 ins.src 0 ins.dst).val.bit = copyRange ins.toMove m.bit := by
  have hbits := (operands_space hg hs hd).bitcpy_bits m h
  simp only [Nat.mul_zero, Nat.zero_add] at hbits
  exact hbits

/-! ## The moves of the slots -/

/-- The move of slot `i`; none for a NOP. -/
def slotMove (vm : Vm) (i : Nat) : Option Move :=
  if (slotIns vm i).n = 0 then none else some (slotIns vm i).toMove

/-- The moves of the first `k` slots, in slot order. -/
def slotMoves (vm : Vm) (k : Nat) : List Move := (List.range k).filterMap (slotMove vm)

theorem slotMoves_succ (vm : Vm) (k : Nat) :
    slotMoves vm (k + 1) = slotMoves vm k ++ (slotMove vm k).toList := by
  unfold slotMoves
  rw [List.range_succ, List.filterMap_append]
  cases h : slotMove vm k <;> simp [h]

theorem slotMoves_eq (vm : Vm) (k : Nat) :
    slotMoves vm k =
      ((List.range k).map fun i => (slotIns vm i).toMove).filter fun mv => mv.n ≠ 0 := by
  induction k with
  | zero => rfl
  | succ k ih =>
      rw [slotMoves_succ, ih, List.range_succ, List.map_append, List.filter_append]
      by_cases hn : (slotIns vm k).n = 0 <;> simp [slotMove, VmInst.toMove, hn]

theorem mem_slotMoves {vm : Vm} {k : Nat} {mv : Move} :
    mv ∈ slotMoves vm k ↔ ∃ i < k, (slotIns vm i).n ≠ 0 ∧ (slotIns vm i).toMove = mv := by
  unfold slotMoves slotMove
  simp [List.mem_filterMap]

section Slots

variable {g : VmGeometry} (hg : g.Wf) (ha : g.addrBits ≤ 56)
include hg ha

/-- **The slots run their moves in order**, as long as no slot is out of bounds
and every copy is sound. -/
theorem beforeSlot_moves {w : World} (hw : Ready g w) {k : Nat} (hk : k ≤ g.processorN)
    (hgood : ∀ i < k, ¬ BadSlot w.vm i) (hexact : ∀ i < k, (slotIns w.vm i).Exact) :
    (w.vm.beforeSlot k).mem.bit = copySeq (slotMoves w.vm k) w.vm.mem.bit := by
  induction k with
  | zero => rfl
  | succ k ih =>
      have hprev := ih (Nat.le_of_succ_le hk) (fun i hi => hgood i (Nat.lt_succ_of_lt hi))
        fun i hi => hexact i (Nat.lt_succ_of_lt hi)
      rw [slotMoves_succ, copySeq_append, ← hprev]
      by_cases hn : (slotIns w.vm k).n = 0
      · have hnop : w.vm.beforeSlot (k + 1) = w.vm.beforeSlot k := if_pos hn
        rw [hnop, slotMove, if_pos hn]
        rfl
      · obtain ⟨hsrc, hdst⟩ := slotIns_inside hg ha hw hk hn (hgood k (Nat.lt_succ_self k))
        rw [mem_beforeSlot_succ rfl hn, slotMove, if_neg hn,
          (hexact k (Nat.lt_succ_self k)).bits hg hsrc hdst]
        rfl

end Slots

/-! ## The moves of a tick -/

/-- The tick stops before its slots. -/
def halts (w : World) : Bool := (served w).vm.mem.bit (served w).vm.mmio.halt

/-- The number of slots before the first one that is out of bounds. -/
def goodSlots (vm : Vm) : Nat :=
  (List.range vm.processorN).findIdx fun i => decide (BadSlot vm i)

/-- The number of slots a tick runs. -/
def slotsRun (w : World) : Nat := if halts w then 0 else goodSlots (served w).vm

theorem goodSlots_le (vm : Vm) : goodSlots vm ≤ vm.processorN := by
  have hle : goodSlots vm ≤ (List.range vm.processorN).length := List.findIdx_le_length
  rwa [List.length_range] at hle

theorem not_bad_of_lt_goodSlots {vm : Vm} {i : Nat} (hi : i < goodSlots vm) :
    ¬ BadSlot vm i := by
  have hnot := List.not_of_lt_findIdx hi
  rw [List.getElem_range, decide_eq_false_iff_not] at hnot
  exact hnot

theorem goodSlots_of_good {vm : Vm} (h : ∀ i < vm.processorN, ¬ BadSlot vm i) :
    goodSlots vm = vm.processorN := by
  have hall : ∀ i ∈ List.range vm.processorN, decide (BadSlot vm i) = false := by
    intro i hi
    exact decide_eq_false (h i (List.mem_range.mp hi))
  exact (List.findIdx_eq_length_of_false hall).trans List.length_range

/-- The loop stops at a bad slot. -/
theorem bad_goodSlots {vm : Vm} (hlt : goodSlots vm < vm.processorN) :
    BadSlot vm (goodSlots vm) := by
  have hfound : goodSlots vm < (List.range vm.processorN).length := by
    rw [List.length_range]
    exact hlt
  have hbad : decide (BadSlot vm ((List.range vm.processorN)[goodSlots vm])) = true :=
    List.findIdx_getElem (w := hfound)
  rwa [List.getElem_range, decide_eq_true_eq] at hbad

theorem goodSlots_of_least {vm : Vm} {j : Nat} (h : IsLeast (badSlots vm) j) :
    goodSlots vm = j := by
  obtain ⟨⟨hj, hbad⟩, hleast⟩ := h
  refine le_antisymm ?_ ?_
  · by_contra hlt
    exact not_bad_of_lt_goodSlots (not_le.mp hlt) hbad
  · by_contra hlt
    have hstop : goodSlots vm < vm.processorN := (not_le.mp hlt).trans hj
    exact hlt (hleast ⟨hstop, bad_goodSlots hstop⟩)

theorem slotsRun_le (w : World) : slotsRun w ≤ (served w).vm.processorN := by
  unfold slotsRun
  split
  · exact Nat.zero_le _
  · exact goodSlots_le _

theorem not_bad_of_lt_slotsRun {w : World} {i : Nat} (hi : i < slotsRun w) :
    ¬ BadSlot (served w).vm i := by
  unfold slotsRun at hi
  split at hi
  · exact absurd hi (Nat.not_lt_zero i)
  · exact not_bad_of_lt_goodSlots hi

theorem streams_note (w : World) (c : Bool) (e : HookEvent) :
    (w.note c e).inp = w.inp ∧ (w.note c e).out = w.out := by
  cases c <;> exact ⟨rfl, rfl⟩

/-- What a tick returns and leaves, in terms of its device phase and the slots
it runs. -/
structure RanSlots (w : World) : Prop where
  mem : (vmTick w).val.2.vm.mem = ((served w).vm.beforeSlot (slotsRun w)).mem
  streams : (vmTick w).val.2.inp = (served w).inp ∧ (vmTick w).val.2.out = (served w).out
  halt : (vmTick w).val.1 = .halt ↔ halts w = true
  ok : (vmTick w).val.1 = .ok ↔ halts w = false ∧ slotsRun w = (served w).vm.processorN

theorem ranSlots {w : World} (hs : w.vm.space.isSome) : RanSlots w := by
  obtain ⟨r, t, htick, hshape⟩ := vmTick_shape hs
  have hval : (vmTick w).val = r := by rw [htick]
  have hbegun := streams_note (served w) (served w).vm.hooks.tickBegin
    (.tickBegin (served w).vm.processorN)
  cases hshape with
  | halt hhalt =>
      have hrun : slotsRun w = 0 := if_pos hhalt
      refine ⟨?_, ?_, ?_, ?_⟩
      · rw [hval, hrun]
        rfl
      · rw [hval]
        exact ⟨rfl, rfl⟩
      · rw [hval]
        exact iff_of_true rfl hhalt
      · rw [hval]
        refine iff_of_false (by rintro ⟨⟩) fun h => ?_
        rw [halts, hhalt] at h
        exact Bool.false_ne_true h.1.symm
  | ok hhalt hgood =>
      have hnot : ¬ halts w = true := by rw [halts, hhalt]; exact Bool.false_ne_true
      have hrun : slotsRun w = (served w).vm.processorN :=
        (if_neg hnot).trans (goodSlots_of_good hgood)
      refine ⟨?_, ?_, ?_, ?_⟩
      · rw [hval, hrun]
        show ((begun w).vm.beforeSlot _).mem = _
        rw [vm_begun]
      · rw [hval]
        have hended := streams_note ((begun w).beforeSlot (served w).vm.processorN)
          ((begun w).beforeSlot (served w).vm.processorN).vm.hooks.tickEnd .tickEnd
        exact ⟨hended.1.trans hbegun.1, hended.2.trans hbegun.2⟩
      · rw [hval]
        exact iff_of_false (by rintro ⟨⟩) hnot
      · rw [hval]
        exact iff_of_true rfl ⟨hhalt, hrun⟩
  | @err j hhalt hfirst =>
      have hnot : ¬ halts w = true := by rw [halts, hhalt]; exact Bool.false_ne_true
      have hrun : slotsRun w = j := (if_neg hnot).trans (goodSlots_of_least hfirst)
      refine ⟨?_, ?_, ?_, ?_⟩
      · rw [hval, hrun]
        show ((begun w).vm.beforeSlot j).mem = _
        rw [vm_begun]
      · rw [hval]
        exact hbegun
      · rw [hval]
        exact iff_of_false (by rintro ⟨⟩) hnot
      · rw [hval, hrun]
        exact iff_of_false (by rintro ⟨⟩) fun h => hfirst.1.1.ne h.2

/-- **A tick is its device phase and then its moves**, in slot order. -/
theorem vmTick_moves {g : VmGeometry} (hg : g.Wf) (ha : g.addrBits ≤ 56) {w : World}
    (hw : Ready g w)
    (hexact : ∀ i < slotsRun w, (slotIns (served w).vm i).Exact) :
    (vmTick w).val.2.vm.mem.bit =
      copySeq (slotMoves (served w).vm (slotsRun w)) (served w).vm.mem.bit := by
  have hle : slotsRun w ≤ g.processorN :=
    (slotsRun_le w).trans hw.served.processorN.le
  rw [(ranSlots hw.space).mem]
  exact beforeSlot_moves hg ha hw.served hle (fun i hi => not_bad_of_lt_slotsRun hi) hexact

/-! ## Runs -/

theorem vmRun_eq (life : Nat) (w : World) :
    (vmRun life w).val = runWhile (fun w => (vmTick w).val) .ok life w := by
  induction life generalizing w with
  | zero => rfl
  | succ life ih =>
      rw [runWhile_succ, ← ih, vmRun, val_bind, val_ite, ite_not]
      rfl

/-- The states in which the ticks of a run begin. -/
def runStarts (life : Nat) (w : World) : List World :=
  starts (fun w => (vmTick w).val) .ok life w

theorem runStarts_ready {g : VmGeometry} {w : World} (hw : Ready g w) (life : Nat) :
    ∀ t ∈ runStarts life w, Ready g t :=
  starts_inv (fun _ ht => vmTick_ready ht) hw life

end SpaceVerifier.Runtime
