import SpaceVerifier.Metatheory.BootLoader

/-!
# Layers that load each other

The convention of the loader: slot 0 of a layer carries the address of the next
one, the last two slots patch and load, the slots between are payload. A layer
rewrites its own load and then the whole code, but what a run does can be read
off the layers as they are stored: layer after layer, the payload, the patch
and the load.
-/

namespace SpaceVerifier.Runtime

open Foundation Foundation.Traced

/-! ## A layer -/

/-- Slot `i` of the layer stored at bit `base`. -/
def storedInst (g : VmGeometry) (b : Nat → Bool) (base i : Nat) : VmInst :=
  instAt b (base + i * (3 * g.addrBits)) g.addrBits

/-- The layer at `base` hands over to the layer at `next`. -/
structure LayerAt (g : VmGeometry) (b : Nat → Bool) (base next : Nat) : Prop where
  pointer : (storedInst g b base 0).n = 0 ∧ (storedInst g b base 0).dst = next
  patch : storedInst g b base (g.processorN - 2) = patchInst g
  load : (storedInst g b base (g.processorN - 1)).n = g.processorBits ∧
    (storedInst g b base (g.processorN - 1)).dst = 0

/-- The copies in front of the patch are sound, stay inside the space and write
none of the bits `K`. -/
def PayloadAvoids (g : VmGeometry) (b : Nat → Bool) (base : Nat) (K : Set Nat) : Prop :=
  ∀ i < g.processorN - 2, (storedInst g b base i).n ≠ 0 →
    (storedInst g b base i).Exact ∧
    (storedInst g b base i).src + (storedInst g b base i).n ≤ g.spaceBits ∧
    (storedInst g b base i).dst + (storedInst g b base i).n ≤ g.spaceBits ∧
    ∀ p ∈ K, p ∉ (storedInst g b base i).toMove.dstSpan

def storedMove (g : VmGeometry) (b : Nat → Bool) (base i : Nat) : Option Move :=
  if (storedInst g b base i).n = 0 then none else some (storedInst g b base i).toMove

def payloadMoves (g : VmGeometry) (b : Nat → Bool) (base : Nat) : List Move :=
  (List.range (g.processorN - 2)).filterMap (storedMove g b base)

/-- What a layer does: its payload, the patch, and the load of the next layer. -/
def layerMoves (g : VmGeometry) (b : Nat → Bool) (base next : Nat) : List Move :=
  payloadMoves g b base ++ [(patchInst g).toMove, ⟨g.processorBits, 0, next⟩]

/-- Where two layers hold the same bits they have the same slots. -/
theorem storedInst_congr {g : VmGeometry} (hg : g.Wf) {b b' : Nat → Bool} {base base' : Nat}
    (h : ∀ p < g.processorBits, b (base + p) = b' (base' + p)) {i : Nat}
    (hi : i < g.processorN) : storedInst g b base i = storedInst g b' base' i := by
  have hslot := hg.slot_le hi
  have hfield : ∀ off, off + g.addrBits ≤ 3 * g.addrBits →
      uintAt b (base + i * (3 * g.addrBits) + off) g.addrBits =
        uintAt b' (base' + i * (3 * g.addrBits) + off) g.addrBits := by
    intro off hoff
    refine uintAt_congr fun k hk => ?_
    have hbit := h (i * (3 * g.addrBits) + off + k) (by omega)
    rw [← Nat.add_assoc, ← Nat.add_assoc, ← Nat.add_assoc, ← Nat.add_assoc] at hbit
    exact hbit
  unfold storedInst instAt
  congr 1
  · exact hfield 0 (by omega)
  · exact hfield g.addrBits (by omega)
  · exact hfield (2 * g.addrBits) (by omega)

theorem slotInst_eq_stored (g : VmGeometry) (m : Mem) (i : Nat) :
    slotInst g m i = storedInst g m.bit 0 i := by
  rw [slotInst, storedInst, Nat.zero_add]

/-! ## The slots of a layer -/

section Slots

variable {g : VmGeometry} (hg : g.Wf) (hP : 3 ≤ g.processorN) {K : Set Nat}
  (hK : ∀ p < g.workspaceBase, p ∈ K) {w : World} (hw : Ready g w)
  (hpayload : PayloadAvoids g w.vm.mem.bit 0 K)
include hg hw

/-- A slot is fetched as it is stored while the code has not been written. -/
theorem slotIns_of_kept {i : Nat} (hi : i < g.processorN)
    (hkept : ∀ p < g.processorBits, (w.vm.beforeSlot i).mem.bit p = w.vm.mem.bit p) :
    slotIns w.vm i = storedInst g w.vm.mem.bit 0 i := by
  rw [slotIns_eq hg hw hi, slotInst_eq_stored]
  refine storedInst_congr hg (fun p hp => ?_) hi
  rw [Nat.zero_add, hkept p hp]

include hK hpayload

/-- **The payload** keeps the bits `K`, and with them the code. -/
theorem payload_kept {i : Nat} (hi : i ≤ g.processorN - 2) {p : Nat} (hp : p ∈ K) :
    (w.vm.beforeSlot i).mem.bit p = w.vm.mem.bit p := by
  induction i generalizing p with
  | zero => rfl
  | succ i ih =>
      have hins := slotIns_of_kept hg hw (i := i) (by omega) fun q hq =>
        ih (by omega) (hK q (hq.trans_le hg.processorBits_le))
      by_cases hn : (slotIns w.vm i).n = 0
      · have hnop : w.vm.beforeSlot (i + 1) = w.vm.beforeSlot i := if_pos hn
        rw [hnop]
        exact ih (by omega) hp
      · obtain ⟨hexact, hsrc, hdst, haway⟩ := hpayload i (by omega) (hins ▸ hn)
        rw [mem_beforeSlot_succ hins (hins ▸ hn), hexact.bits hg hsrc hdst,
          copyRange_of_notMem _ (haway p hp)]
        exact ih (by omega) hp

theorem payload_slot {i : Nat} (hi : i ≤ g.processorN - 2) (hlt : i < g.processorN) :
    slotIns w.vm i = storedInst g w.vm.mem.bit 0 i :=
  slotIns_of_kept hg hw hlt fun _ hp =>
    payload_kept hg hK hw hpayload hi (hK _ (hp.trans_le hg.processorBits_le))

include hP

omit hK hw hpayload in
/-- The patch moves whole bytes inside the code. -/
theorem patchInst_sound : (patchInst g).n ≠ 0 ∧ (patchInst g).Exact ∧
    (patchInst g).src + (patchInst g).n ≤ g.spaceBits ∧
    (patchInst g).dst + (patchInst g).n ≤ g.processorBits ∧
    (patchInst g).dst = (g.processorN - 1) * (3 * g.addrBits) + 2 * g.addrBits := by
  obtain ⟨-, hload⟩ := patchSlot_eq (by omega) hg.processorN_lt
  have hslot := hg.slot_le (i := g.processorN - 1) (by omega)
  have hbase := hg.processorBits_le.trans hg.workspaceBase_le
  have h8 := hg.dvd_addrBits
  have hge := hg.addrBits_ge
  have h8' : 8 ∣ (g.processorN - 1) * (3 * g.addrBits) := (h8.mul_left 3).mul_left _
  unfold patchInst VmInst.Exact ExactWhen
  rw [hload]
  simp only
  exact ⟨by omega, Or.inr (Or.inr (Or.inl (by omega))), by omega, by omega, trivial⟩

variable {next : Nat} (hlayer : LayerAt g w.vm.mem.bit 0 next)
include hlayer

theorem patch_slot : slotIns w.vm (g.processorN - 2) = patchInst g := by
  rw [payload_slot hg hK hw hpayload le_rfl (by omega)]
  exact hlayer.patch

theorem patched_bits :
    (w.vm.beforeSlot (g.processorN - 1)).mem.bit =
      copyRange (patchInst g).toMove (w.vm.beforeSlot (g.processorN - 2)).mem.bit := by
  obtain ⟨hn, hexact, hsrc, hdst, -⟩ := patchInst_sound hg hP
  have hbase := hg.processorBits_le.trans hg.workspaceBase_le
  rw [show g.processorN - 1 = g.processorN - 2 + 1 by omega,
    mem_beforeSlot_succ (patch_slot hg hP hK hw hpayload hlayer) hn]
  exact hexact.bits hg hsrc (hdst.trans hbase) _

/-- The load is fetched with the pointer of slot 0 as its source. -/
theorem load_slot :
    slotIns w.vm (g.processorN - 1) = ⟨g.processorBits, 0, next⟩ := by
  obtain ⟨-, -, -, -, hdst⟩ := patchInst_sound hg hP
  obtain ⟨hn, hd⟩ := hlayer.load
  have hslot := hg.slot_le (i := g.processorN - 1) (by omega)
  have hfirst := hg.slot_le (i := 0) (by omega)
  have hbits := patched_bits hg hP hK hw hpayload hlayer
  have hkept : ∀ p < g.processorBits,
      (w.vm.beforeSlot (g.processorN - 2)).mem.bit p = w.vm.mem.bit p := fun p hp =>
    payload_kept hg hK hw hpayload le_rfl (hK p (hp.trans_le hg.processorBits_le))
  -- the fields in front of the one that the patch writes
  have hfield : ∀ pos, pos + g.addrBits ≤
      (g.processorN - 1) * (3 * g.addrBits) + 2 * g.addrBits →
      uintAt (w.vm.beforeSlot (g.processorN - 1)).mem.bit pos g.addrBits =
        uintAt w.vm.mem.bit pos g.addrBits := by
    intro pos hpos
    refine uintAt_congr fun k hk => ?_
    rw [hbits, copyRange_of_notMem, hkept _ (by omega)]
    simp only [Move.dstSpan, VmInst.toMove, hdst, Set.mem_Ico]
    omega
  rw [slotIns_eq hg hw (by omega)]
  unfold slotInst instAt
  unfold storedInst instAt at hn hd
  rw [Nat.zero_add] at hn hd
  congr 1
  · rw [hfield _ (by omega)]
    exact hn
  · rw [hfield _ (by omega)]
    exact hd
  · have hpointer := hlayer.pointer.2
    unfold storedInst instAt at hpointer
    rw [← hpointer]
    refine uintAt_congr fun k hk => ?_
    have hcopied := copyRange_dst (patchInst g).toMove
      (w.vm.beforeSlot (g.processorN - 2)).mem.bit (i := k) hk
    rw [← hbits, hkept _ (by simp only [VmInst.toMove, patchInst]; omega)] at hcopied
    simp only [VmInst.toMove, hdst] at hcopied
    rw [hcopied]
    simp only [patchInst]
    congr 1
    omega

/-- The moves of the slot loop are those of the stored layer. -/
theorem slotMoves_layer :
    slotMoves w.vm g.processorN = layerMoves g w.vm.mem.bit 0 next := by
  obtain ⟨hn, -⟩ := patchInst_sound hg hP
  have hbits := hg.instrBits_le_processorBits
  have hge := hg.addrBits_ge
  have hpre : slotMoves w.vm (g.processorN - 2) = payloadMoves g w.vm.mem.bit 0 := by
    refine List.filterMap_congr fun i hi => ?_
    have hi' := List.mem_range.mp hi
    rw [slotMove, storedMove, payload_slot hg hK hw hpayload hi'.le (by omega)]
  rw [show g.processorN = g.processorN - 2 + 1 + 1 by omega, slotMoves_succ, slotMoves_succ,
    hpre, layerMoves, List.append_assoc]
  congr 1
  rw [slotMove, patch_slot hg hP hK hw hpayload hlayer, if_neg hn,
    show g.processorN - 2 + 1 = g.processorN - 1 by omega, slotMove,
    load_slot hg hP hK hw hpayload hlayer, if_neg (by simp only; omega)]
  rfl

variable (hnext : 8 ∣ next) (hinside : next + g.processorBits ≤ g.spaceBits)
include hnext hinside

/-- Every slot of the layer is sound and inside the space. -/
theorem layer_sound {i : Nat} (hi : i < g.processorN) (hn : (slotIns w.vm i).n ≠ 0) :
    (slotIns w.vm i).Exact ∧ (slotIns w.vm i).src + (slotIns w.vm i).n ≤ g.spaceBits ∧
      (slotIns w.vm i).dst + (slotIns w.vm i).n ≤ g.spaceBits := by
  obtain ⟨-, hexact, hsrc, hdst, -⟩ := patchInst_sound hg hP
  have hbase := hg.processorBits_le.trans hg.workspaceBase_le
  rcases Nat.lt_or_ge i (g.processorN - 2) with hlt | hge
  · rw [payload_slot hg hK hw hpayload hlt.le hi] at hn ⊢
    obtain ⟨hexact, hsrc, hdst, -⟩ := hpayload i hlt hn
    exact ⟨hexact, hsrc, hdst⟩
  · rcases Nat.eq_or_lt_of_le hge with rfl | hgt
    · rw [patch_slot hg hP hK hw hpayload hlayer]
      exact ⟨hexact, hsrc, hdst.trans hbase⟩
    · obtain rfl : i = g.processorN - 1 := by omega
      rw [load_slot hg hP hK hw hpayload hlayer]
      refine ⟨Or.inr (Or.inr (Or.inl ?_)), hinside, ?_⟩
      · show next % 8 = 0 ∧ 0 % 8 = 0
        omega
      · show 0 + g.processorBits ≤ g.spaceBits
        omega

/-- The layer is run without a failure, and the next one replaces it. -/
theorem slots_layer (ha : g.addrBits ≤ 56) :
    (∀ i < g.processorN, ¬ BadSlot w.vm i) ∧
      (w.vm.beforeSlot g.processorN).mem.bit =
        copySeq (layerMoves g w.vm.mem.bit 0 next) w.vm.mem.bit := by
  have hsound : ∀ i < g.processorN, (slotIns w.vm i).n ≠ 0 →
      (slotIns w.vm i).Exact ∧ (slotIns w.vm i).src + (slotIns w.vm i).n ≤ g.spaceBits ∧
        (slotIns w.vm i).dst + (slotIns w.vm i).n ≤ g.spaceBits := fun i hi hn =>
    layer_sound hg hP hK hw hpayload hlayer hnext hinside hi hn
  have hgood : ∀ i < g.processorN, ¬ BadSlot w.vm i := by
    rintro i hi ⟨hn, hout⟩
    obtain ⟨-, hsrc, hdst⟩ := hsound i hi hn
    obtain ⟨hsrc64, hdst64⟩ := slotIns_add64 hg ha hw hi
    rw [hsrc64, hdst64, hw.geometry] at hout
    omega
  refine ⟨hgood, ?_⟩
  rw [beforeSlot_moves hg ha hw le_rfl hgood, slotMoves_layer hg hP hK hw hpayload hlayer]
  intro i hi
  by_cases hn : (slotIns w.vm i).n = 0
  · exact Or.inl (by omega)
  · exact (hsound i hi hn).1

/-- **The tick of a layer**: its moves, and no failure. -/
theorem layer_tick (ha : g.addrBits ≤ 56) (hidle : Idle g w.vm.mem) :
    (vmTick w).val.1 = .ok ∧
      (vmTick w).val.2.vm.mem.bit =
        copySeq (layerMoves g w.vm.mem.bit 0 next) w.vm.mem.bit := by
  have hserved : served w = w.withVm w.vm.resetErr :=
    served_idle (by rw [hw.geometry]; exact hidle.outReq)
      (by rw [hw.geometry]; exact hidle.inReq)
  have hw' : Ready g (w.withVm w.vm.resetErr) := ⟨hw.geometry, hw.space⟩
  obtain ⟨hgood, hbits⟩ := slots_layer hg hP hK hw' hpayload hlayer hnext hinside ha
  have hhalt : halts w = false := by
    rw [halts, hserved, hw'.geometry]
    exact hidle.halt
  have hrun : slotsRun w = g.processorN := by
    rw [slotsRun, hhalt, if_neg Bool.false_ne_true, hserved,
      goodSlots_of_good (by rw [hw'.geometry]; exact hgood), hw'.geometry]
  have hran := ranSlots hw.space
  refine ⟨hran.ok.mpr ⟨hhalt, by rw [hrun, hserved, hw'.geometry]⟩, ?_⟩
  rw [hran.mem, hrun, hserved]
  exact hbits

end Slots

/-! ## What the moves of a layer leave -/

section Moves

variable {g : VmGeometry} (hg : g.Wf) (hP : 3 ≤ g.processorN) {K : Set Nat}
  {b : Nat → Bool} {base : Nat} (hpayload : PayloadAvoids g b base K)
include hg hP hpayload

omit hg hP in
theorem payloadMoves_kept {p : Nat} (hp : p ∈ K) (m : Nat → Bool) :
    copySeq (payloadMoves g b base) m p = m p := by
  refine copySeq_of_notMem m fun mv hmv => ?_
  obtain ⟨i, hi, hmove⟩ := List.mem_filterMap.mp hmv
  rw [storedMove] at hmove
  split at hmove
  · cases hmove
  · next hn =>
      cases hmove
      exact (hpayload i (List.mem_range.mp hi) hn).2.2.2 p hp

/-- Behind the code the kept bits stay. -/
theorem layerMoves_kept {p : Nat} (hp : p ∈ K) (hcode : g.processorBits ≤ p) (next : Nat)
    (m : Nat → Bool) : copySeq (layerMoves g b base next) m p = m p := by
  obtain ⟨-, -, -, hdst, -⟩ := patchInst_sound hg hP
  rw [layerMoves, copySeq_append, copySeq_of_notMem, payloadMoves_kept hpayload hp]
  intro mv hmv
  rw [List.mem_pair] at hmv
  rcases hmv with rfl | rfl
  · simp only [Move.dstSpan, VmInst.toMove, Set.mem_Ico]
    omega
  · simp only [Move.dstSpan, Set.mem_Ico]
    omega

/-- The code becomes the bits stored at `next`. -/
theorem layerMoves_code {next p : Nat} (hp : p < g.processorBits) (hin : next + p ∈ K)
    (hnext : g.processorBits ≤ next) (m : Nat → Bool) :
    copySeq (layerMoves g b base next) m p = m (next + p) := by
  obtain ⟨-, -, -, hdst, -⟩ := patchInst_sound hg hP
  have hload := copyRange_dst ⟨g.processorBits, 0, next⟩
    (copyRange (patchInst g).toMove (copySeq (payloadMoves g b base) m)) hp
  rw [Nat.zero_add] at hload
  rw [layerMoves, copySeq_append, copySeq_cons, copySeq_cons, copySeq_nil, hload,
    copyRange_of_notMem, payloadMoves_kept hpayload hin]
  simp only [Move.dstSpan, VmInst.toMove, Set.mem_Ico]
  omega

end Moves

/-! ## A chain of layers -/

/-- The bits no payload may write: the code, the device registers and the stored
layers. -/
def chainKept (g : VmGeometry) (ptr : Nat → Nat) (n : Nat) : Set Nat :=
  {p | p < g.workspaceBase ∨ ∃ k ≤ n, ptr k ≤ p ∧ p < ptr k + g.processorBits}

/-- The workspace stores layers at `ptr 0, …, ptr n`, each of them hands over to
the one after it. Pointers may repeat. -/
structure Chain (g : VmGeometry) (b : Nat → Bool) (ptr : Nat → Nat) (n : Nat) : Prop where
  aligned : ∀ k ≤ n, 8 ∣ ptr k
  inside : ∀ k ≤ n, g.workspaceBase ≤ ptr k ∧ ptr k + g.processorBits ≤ g.spaceBits
  handover : ∀ k < n, LayerAt g b (ptr k) (ptr (k + 1))
  payload : ∀ k < n, PayloadAvoids g b (ptr k) (chainKept g ptr n)

/-- The boot layer, and then the layers in front of layer `k`. -/
def chainMoves (g : VmGeometry) (b : Nat → Bool) (ptr : Nat → Nat) : Nat → List Move
  | 0 => [(patchInst g).toMove, ⟨g.processorBits, 0, ptr 0⟩]
  | k + 1 => chainMoves g b ptr k ++ layerMoves g b (ptr k) (ptr (k + 1))

/-- The layer at `base` is the code, and the kept bits behind the code are those
of `b`. -/
structure Holds (g : VmGeometry) (K : Set Nat) (b : Nat → Bool) (base : Nat) (w : World) :
    Prop where
  ready : Ready g w
  code : ∀ p < g.processorBits, w.vm.mem.bit p = b (base + p)
  kept : ∀ p ∈ K, g.processorBits ≤ p → w.vm.mem.bit p = b p

section Congr

variable {g : VmGeometry} (hg : g.Wf) {b b' : Nat → Bool} {base base' : Nat}
  (h : ∀ p < g.processorBits, b (base + p) = b' (base' + p))
include hg h

theorem LayerAt.congr (hP : 3 ≤ g.processorN) {next : Nat} (hlayer : LayerAt g b base next) :
    LayerAt g b' base' next := by
  obtain ⟨hpointer, hpatch, hload⟩ := hlayer
  rw [storedInst_congr hg h (by omega)] at hpointer hpatch hload
  exact ⟨hpointer, hpatch, hload⟩

theorem PayloadAvoids.congr {K : Set Nat} (hpayload : PayloadAvoids g b base K) :
    PayloadAvoids g b' base' K := by
  intro i hi
  rw [← storedInst_congr hg h (by omega)]
  exact hpayload i hi

theorem layerMoves_congr (next : Nat) : layerMoves g b base next = layerMoves g b' base' next := by
  unfold layerMoves payloadMoves
  congr 1
  refine List.filterMap_congr fun i hi => ?_
  have hi' := List.mem_range.mp hi
  rw [storedMove, storedMove, storedInst_congr hg h (by omega)]

end Congr

section Step

variable {g : VmGeometry} (hg : g.Wf) (ha : g.addrBits ≤ 56) (hP : 3 ≤ g.processorN)
include hg ha hP

/-- **One handover**: the layer that runs does its moves, and the next layer
takes its place. -/
theorem Holds.tick {m : Mem} (hidle : Idle g m) {K : Set Nat}
    (hK : ∀ p < g.workspaceBase, p ∈ K) {base next : Nat} {w : World}
    (hw : Holds g K m.bit base w) (hpayload : PayloadAvoids g m.bit base K)
    (hlayer : LayerAt g m.bit base next) (hnext : 8 ∣ next)
    (hinside : g.workspaceBase ≤ next ∧ next + g.processorBits ≤ g.spaceBits)
    (hstored : ∀ p < g.processorBits, next + p ∈ K) :
    (vmTick w).val.1 = .ok ∧ Holds g K m.bit next (vmTick w).val.2 ∧
      (vmTick w).val.2.vm.mem.bit = copySeq (layerMoves g m.bit base next) w.vm.mem.bit := by
  have hcode : ∀ p < g.processorBits, m.bit (base + p) = w.vm.mem.bit (0 + p) := by
    intro p hp
    rw [Nat.zero_add, hw.code p hp]
  have hin := hg.within
  have hbase := hg.processorBits_le
  -- the status bits belong to the kept ones
  have hidle' : Idle g w.vm.mem := by
    refine ⟨?_, ?_, ?_⟩
    · rw [hw.kept _ (hK _ hin.inReq.2) hin.inReq.1]
      exact hidle.inReq
    · rw [hw.kept _ (hK _ hin.outReq.2) hin.outReq.1]
      exact hidle.outReq
    · rw [hw.kept _ (hK _ hin.halt.2) hin.halt.1]
      exact hidle.halt
  obtain ⟨hok, hbits⟩ := layer_tick hg hP hK hw.ready (hpayload.congr hg hcode)
    (hlayer.congr hg hcode hP) hnext hinside.2 ha hidle'
  rw [← layerMoves_congr hg hcode] at hbits
  refine ⟨hok, ⟨vmTick_ready hw.ready, ?_, ?_⟩, hbits⟩
  · intro p hp
    rw [hbits, layerMoves_code hg hP hpayload hp (hstored p hp) (by omega),
      hw.kept _ (hstored p hp) (by omega)]
  · intro p hp hge
    rw [hbits, layerMoves_kept hg hP hpayload hp hge, hw.kept p hp hge]

omit ha in
/-- The boot layer is a layer without payload. -/
theorem bootMem_layer (m : Mem) {ptr : Nat} (hinside : ptr + g.processorBits ≤ g.spaceBits) :
    LayerAt g (bootMem g ptr m).bit 0 ptr ∧
      ∀ i < g.processorN - 2, (storedInst g (bootMem g ptr m).bit 0 i).n = 0 := by
  have hfits : ptr < 2 ^ g.addrBits := by
    have hpow := hg.spaceBits_le_pow
    have hcode := hg.instrBits_le_processorBits
    have ha8 := hg.addrBits_ge
    omega
  have hslot : ∀ i < g.processorN, storedInst g (bootMem g ptr m).bit 0 i =
      if i = g.processorN - 1 then loadInst g
      else if i = g.processorN - 2 then patchInst g
      else if i = 0 then ⟨0, ptr, 0⟩ else ⟨0, 0, 0⟩ := fun i hi => by
    rw [← slotInst_eq_stored, slotInst_bootMem m hg (by omega) hfits hi]
  refine ⟨⟨?_, ?_, ?_⟩, fun i hi => ?_⟩
  · rw [hslot 0 (by omega), if_neg (by omega), if_neg (by omega), if_pos rfl]
    exact ⟨rfl, rfl⟩
  · rw [hslot _ (by omega), if_neg (by omega), if_pos rfl]
  · rw [hslot _ (by omega), if_pos rfl]
    exact ⟨rfl, rfl⟩
  · rw [hslot i (by omega), if_neg (by omega), if_neg (by omega)]
    split <;> rfl

/-- **The boot layer hands over** to the first layer: it has no payload. -/
theorem boot_holds {m : Mem} (hidle : Idle g m) {ptr : Nat} {w : World} (hw : Ready g w)
    (hm : w.vm.mem = bootMem g ptr m) {K : Set Nat} (hK : ∀ p < g.workspaceBase, p ∈ K)
    (hptr : 8 ∣ ptr)
    (hinside : g.workspaceBase ≤ ptr ∧ ptr + g.processorBits ≤ g.spaceBits)
    (hstored : ∀ p < g.processorBits, ptr + p ∈ K) :
    (vmTick w).val.1 = .ok ∧ Holds g K m.bit ptr (vmTick w).val.2 ∧
      (vmTick w).val.2.vm.mem.bit =
        copySeq [(patchInst g).toMove, ⟨g.processorBits, 0, ptr⟩] w.vm.mem.bit := by
  have hbase := hg.processorBits_le
  have hP' : 2 ≤ g.processorN := by omega
  obtain ⟨hlayer, hnop⟩ := bootMem_layer hg hP m hinside.2
  rw [← hm] at hlayer hnop
  have hpayload : PayloadAvoids g w.vm.mem.bit 0 K := fun i hi hn => absurd (hnop i hi) hn
  have hmoves : layerMoves g w.vm.mem.bit 0 ptr =
      [(patchInst g).toMove, ⟨g.processorBits, 0, ptr⟩] := by
    have hnone : payloadMoves g w.vm.mem.bit 0 = [] := by
      refine List.filterMap_eq_nil_iff.mpr fun i hi => ?_
      rw [storedMove, if_pos (hnop i (List.mem_range.mp hi))]
    rw [layerMoves, hnone, List.nil_append]
  -- behind the code the builder has written nothing
  have hout : ∀ p, g.processorBits ≤ p → w.vm.mem.bit p = m.bit p := by
    intro p hp
    rw [hm, bootMem_outside m hg hP' hp]
  have hstart : Holds g K w.vm.mem.bit 0 w :=
    ⟨hw, fun p _ => by rw [Nat.zero_add], fun _ _ _ => rfl⟩
  obtain ⟨hok, hnext, hbits⟩ := hstart.tick hg ha hP (hidle.congr hg hout) hK hpayload hlayer
    hptr hinside hstored
  rw [hmoves] at hbits
  refine ⟨hok, ⟨hnext.ready, fun p hp => ?_, fun p hp hge => ?_⟩, hbits⟩
  · rw [hnext.code p hp, hout _ (by omega)]
  · rw [hnext.kept p hp hge, hout p hge]

omit hg ha hP in
/-- One more tick at the end of a run. -/
theorem vmRun_succ_ok {k : Nat} {w : World} (hok : (vmRun k w).val.1 = .ok) :
    (vmRun (k + 1) w).val = (vmTick (vmRun k w).val.2).val := by
  rw [vmRun_eq, runWhile_add, ← vmRun_eq, if_pos hok, runWhile_succ]
  split
  · next hgo => exact Prod.ext hgo.symm rfl
  · rfl

/-- **A run along a chain**: after the boot tick, every tick runs one layer. -/
theorem chain_run {m : Mem} (hidle : Idle g m) {ptr : Nat → Nat} {w : World} (hw : Ready g w)
    (hm : w.vm.mem = bootMem g (ptr 0) m) {n : Nat} (hchain : Chain g m.bit ptr n) {k : Nat}
    (hk : k ≤ n) :
    (vmRun (k + 1) w).val.1 = .ok ∧
      Holds g (chainKept g ptr n) m.bit (ptr k) (vmRun (k + 1) w).val.2 ∧
      (vmRun (k + 1) w).val.2.vm.mem.bit =
        copySeq (chainMoves g m.bit ptr k) w.vm.mem.bit := by
  have hK : ∀ p < g.workspaceBase, p ∈ chainKept g ptr n := fun p hp => Or.inl hp
  have hstored : ∀ j ≤ n, ∀ p < g.processorBits, ptr j + p ∈ chainKept g ptr n := by
    intro j hj p hp
    exact Or.inr ⟨j, hj, by omega, by omega⟩
  induction k with
  | zero =>
      have hone : (vmRun (0 + 1) w).val = (vmTick w).val := vmRun_succ_ok rfl
      rw [hone]
      exact boot_holds hg ha hP hidle hw hm hK (hchain.aligned 0 hk) (hchain.inside 0 hk)
        (hstored 0 hk)
  | succ k ih =>
      obtain ⟨hok, hholds, hbits⟩ := ih (Nat.le_of_succ_le hk)
      obtain ⟨hok', hholds', hbits'⟩ := hholds.tick hg ha hP hidle hK
        (hchain.payload k hk) (hchain.handover k hk) (hchain.aligned _ hk)
        (hchain.inside _ hk) (hstored _ hk)
      rw [vmRun_succ_ok hok]
      refine ⟨hok', hholds', ?_⟩
      rw [hbits', hbits, chainMoves, copySeq_append]

end Step

/-- **The loader runs a chain of stored layers.** After the boot layer is built
over a machine at rest, `k + 1` ticks succeed, leave the code of layer `k` in
the processor area and every stored layer as it was, and have done to the
memory what the boot layer and the layers before `k` say as they are stored. -/
theorem loader_runs_chain {calloc : Nat → Bool} {S P : Nat} {vm : Vm}
    (h : Accepted calloc S P vm) (hlimit : CallocLimit calloc (2 ^ 53))
    (hP : 3 ≤ vm.processorN) {w : World} (hw : Ready vm.toVmGeometry w)
    (hidle : Idle vm.toVmGeometry w.vm.mem) {ptr : Nat → Nat} {n : Nat}
    (hchain : Chain vm.toVmGeometry w.vm.mem.bit ptr n) :
    ∃ booted, (vmBuildBootLoaderLayer w.vm (ptr 0)).val = (0, booted) ∧
      ∀ k ≤ n,
        (vmRun (k + 1) (w.withVm booted)).val.1 = .ok ∧
        (∀ p < vm.processorBits, (vmRun (k + 1) (w.withVm booted)).val.2.vm.mem.bit p =
          w.vm.mem.bit (ptr k + p)) ∧
        (∀ p ∈ chainKept vm.toVmGeometry ptr n, vm.processorBits ≤ p →
          (vmRun (k + 1) (w.withVm booted)).val.2.vm.mem.bit p = w.vm.mem.bit p) ∧
        (vmRun (k + 1) (w.withVm booted)).val.2.vm.mem.bit =
          copySeq (chainMoves vm.toVmGeometry w.vm.mem.bit ptr k) booted.mem.bit := by
  obtain ⟨hg, ha⟩ := addrBits_le_of_limit h hlimit
  have hfits : ptr 0 < 2 ^ vm.addrBits := by
    have hinside := (hchain.inside 0 (Nat.zero_le n)).2
    have hpow := hg.spaceBits_le_pow
    have hcode := hg.instrBits_le_processorBits
    have ha8 := hg.addrBits_ge
    omega
  obtain ⟨hbuild, hready⟩ := build_tick hg ha hfits hw
  refine ⟨_, hbuild, fun k hk => ?_⟩
  obtain ⟨hok, hholds, hbits⟩ := chain_run hg ha hP hidle hready (Vm.mem_withMem _ _) hchain hk
  exact ⟨hok, hholds.code, hholds.kept, hbits⟩

/-- A layer at bit 128 that hands over to itself. -/
def loopMem : Mem :=
  Mem.ofBits fun p => decide (128 ≤ p) &&
    (bootMem (bootVm 3).toVmGeometry 128 (Mem.ofBits fun _ => false)).bit (p - 128)

theorem loopMem_chain (n : Nat) :
    Chain (bootVm 3).toVmGeometry loopMem.bit (fun _ => 128) n := by
  obtain ⟨hg, -⟩ := addrBits_le_of_limit bootVm_accepted.2 (hostCalloc_limit.mono (by decide))
  obtain ⟨hlayer, hnop⟩ := @bootMem_layer _ hg (by decide) (Mem.ofBits fun _ => false) 128
    (by decide)
  have hstored : ∀ p < (bootVm 3).processorBits,
      (bootMem (bootVm 3).toVmGeometry 128 (Mem.ofBits fun _ => false)).bit (0 + p) =
        loopMem.bit (128 + p) := by
    intro p _
    rw [loopMem, Mem.bit_ofBits, decide_eq_true (Nat.le_add_right 128 p), Bool.true_and,
      Nat.add_sub_cancel_left, Nat.zero_add]
  refine ⟨fun _ _ => by decide, fun _ _ => by decide,
    fun _ _ => hlayer.congr hg hstored (by decide), fun _ _ i hi hn => ?_⟩
  rw [← storedInst_congr hg hstored (Nat.lt_of_lt_of_le hi (Nat.sub_le _ _))] at hn
  exact absurd (hnop i hi) hn

theorem loader_runs_chain_loop :
    ∃ booted, (vmBuildBootLoaderLayer ((bootVm 3).withMem loopMem) 128).val = (0, booted) ∧
      (vmRun 3 ((bareWorld ((bootVm 3).withMem loopMem)).withVm booted)).val.1 = .ok := by
  have hm : ∀ p, loopMem.bit p = _ := Mem.bit_ofBits _
  obtain ⟨booted, hbuild, hrun⟩ := loader_runs_chain bootVm_accepted.2
    (hostCalloc_limit.mono (by decide)) (by decide)
    (w := bareWorld ((bootVm 3).withMem loopMem)) ⟨rfl, rfl⟩
    (by constructor <;> exact (hm _).trans rfl) (loopMem_chain 2)
  exact ⟨booted, hbuild, (hrun 2 le_rfl).1⟩

end SpaceVerifier.Runtime
