import SpaceVerifier.Foundation.BitAgree
import SpaceVerifier.Metatheory.Rounds
import SpaceVerifier.Metatheory.Services

/-!
# What the machine depends on

Bits, streams and the tick counter: two machines that agree on these go on
agreeing, whatever their hooks, their diagnostics and their settings are. The
bits may be all of them, or those of the space only if no copy reads outside it.
-/

namespace SpaceVerifier.Runtime

open Foundation Foundation.Traced

/-! ## Machines with the same core -/

/-- The two worlds agree on the bits `A`, the streams and the tick counter. -/
structure SameCore (A : Set Nat) (g : VmGeometry) (w w' : World) : Prop where
  left : Ready g w
  right : Ready g w'
  bits : Set.EqOn w.vm.mem.bit w'.vm.mem.bit A
  inp : w.inp = w'.inp
  out : w.out = w'.out
  tickCounter : w.vm.tickCounter = w'.vm.tickCounter

theorem SameCore.symm {A : Set Nat} {g : VmGeometry} {w w' : World} (h : SameCore A g w w') :
    SameCore A g w' w :=
  ⟨h.right, h.left, h.bits.symm, h.inp.symm, h.out.symm, h.tickCounter.symm⟩

theorem SameCore.trans {A : Set Nat} {g : VmGeometry} {w w' w'' : World}
    (h : SameCore A g w w') (h' : SameCore A g w' w'') : SameCore A g w w'' :=
  ⟨h.left, h'.right, h.bits.trans h'.bits, h.inp.trans h'.inp, h.out.trans h'.out,
    h.tickCounter.trans h'.tickCounter⟩

/-- Copies that carry agreement on `A` on. -/
def VmInst.Local (A : Set Nat) (ins : VmInst) : Prop :=
  ∀ m m' : Mem, Set.EqOn m.bit m'.bit A →
    Set.EqOn (bitcpy m ins.n 0 ins.src 0 ins.dst).val.bit
      (bitcpy m' ins.n 0 ins.src 0 ins.dst).val.bit A

theorem VmInst.local_univ (ins : VmInst) : ins.Local Set.univ := by
  intro m m' h
  rw [eq_of_eqOn_univ h]
  exact fun _ _ => rfl

/-- A sound copy inside the space reads its source only. -/
theorem VmInst.Exact.local {g : VmGeometry} (hg : g.Wf) {ins : VmInst} (h : ins.Exact)
    (hs : ins.src + ins.n ≤ g.spaceBits) (hd : ins.dst + ins.n ≤ g.spaceBits) {A : Set Nat}
    (hA : Set.Iio g.spaceBits ⊆ A) : ins.Local A := by
  intro m m' hm
  rw [h.bits hg hs hd, h.bits hg hs hd]
  refine copyRange_eqOn hm fun p hp => hA ?_
  rw [Move.srcSpan, Set.mem_Ico] at hp
  simp only [VmInst.toMove] at hp
  rw [Set.mem_Iio]
  omega

section Core

variable {A : Set Nat} {g : VmGeometry}

theorem raise_eqOn {m m' : Mem} (h : Set.EqOn m.bit m'.bit A) (p : Nat) (c : Bool) :
    Set.EqOn (raise m p c).bit (raise m' p c).bit A := by
  cases c
  · exact h
  · exact eqOn_setBit h p true

theorem storeBytes_eqOn {m m' : Mem} (h : Set.EqOn m.bit m'.bit A) (start : Nat)
    (bs : List Byte) : Set.EqOn (storeBytes m start bs).bit (storeBytes m' start bs).bit A := by
  intro p hp
  rw [bit_storeBytes, bit_storeBytes, h hp]

theorem rejectMem_eqOn (ch : Channel) {m m' : Mem} (h : Set.EqOn m.bit m'.bit A) :
    Set.EqOn (ch.rejectMem g m).bit (ch.rejectMem g m').bit A :=
  eqOn_setBit (eqOn_setBit (eqOn_setBit h _ _) _ _) _ _

theorem completeMem_eqOn (ch : Channel) {m m' : Mem} (h : Set.EqOn m.bit m'.bit A)
    (count : Nat) : Set.EqOn (ch.completeMem g m count).bit (ch.completeMem g m' count).bit A :=
  eqOn_setBit (eqOn_setBit (eqOn_writeField h _ _ _) _ _) _ _

theorem outCleared_eqOn {m m' : Mem} (h : Set.EqOn m.bit m'.bit A) :
    Set.EqOn (outCleared g m).bit (outCleared g m').bit A :=
  eqOn_writeField (eqOn_setBit (eqOn_setBit h _ _) _ _) _ _ _

theorem inCleared_eqOn {m m' : Mem} (h : Set.EqOn m.bit m'.bit A) :
    Set.EqOn (inCleared g m).bit (inCleared g m').bit A :=
  eqOn_writeField (eqOn_setBit (eqOn_setBit (eqOn_setBit h _ _) _ _) _ _) _ _ _

theorem receivedMem_eqOn {m m' : Mem} (h : Set.EqOn m.bit m'.bit A) (start n : Nat)
    (f : InFile) : Set.EqOn (receivedMem g m start n f).bit (receivedMem g m' start n f).bit A :=
  raise_eqOn (raise_eqOn (storeBytes_eqOn h _ _) _ _) _ _

variable (hg : g.Wf) (hA : Set.Iio g.spaceBits ⊆ A)
include hg hA

/-! ## The device phase -/

/-- Both machines see the same request. -/
theorem fields_eq {m m' : Mem} (h : Set.EqOn m.bit m'.bit A) (ch : Channel)
    (hch : ch = inChannel ∨ ch = outChannel) :
    ch.addrField g m = ch.addrField g m' ∧ ch.lenField g m = ch.lenField g m' := by
  have hin := hg.within
  have hbase := hg.workspaceBase_le
  have hfield : ∀ pos, pos + g.addrBits ≤ g.workspaceBase →
      uintAt m.bit pos g.addrBits = uintAt m'.bit pos g.addrBits := by
    intro pos hpos
    refine uintAt_eq_of_eqOn h fun p hp => hA ?_
    rw [Set.mem_Ico] at hp
    rw [Set.mem_Iio]
    omega
  rcases hch with rfl | rfl
  · exact ⟨hfield _ hin.inDst.2, hfield _ hin.inLen.2⟩
  · exact ⟨hfield _ hin.outSrc.2, hfield _ hin.outLen.2⟩

theorem bit_eq {m m' : Mem} (h : Set.EqOn m.bit m'.bit A) {p : Nat}
    (hp : p < g.workspaceBase) : m.bit p = m'.bit p :=
  h (hA (hp.trans_le hg.workspaceBase_le))

variable (ha : g.addrBits ≤ 56) {w w' : World} (h : SameCore A g w w')
include ha h

/-- An accepted OUT request sends the same bytes. -/
theorem outBytes_eq (hok : outChannel.Accepts g w.vm.mem) :
    outBytes g w.vm.mem = outBytes g w'.vm.mem := by
  obtain ⟨haddr, hlen⟩ := fields_eq hg hA h.bits outChannel (Or.inr rfl)
  obtain ⟨haddr8, hlen8, hle⟩ := (outChannel.accepts_iff_valid ha).mp hok
  unfold outBytes
  rw [← haddr, ← hlen]
  refine bytesAt_eq_of_eqOn (outCleared_eqOn h.bits) fun p hp => hA ?_
  rw [Set.mem_Ico] at hp
  rw [Set.mem_Iio]
  omega

theorem serviceOut_same : SameCore A g (serviceOut w).val (serviceOut w').val := by
  obtain ⟨hw, hw', hbits, hinp, hout, hcount⟩ := h
  obtain ⟨haddr, hlen⟩ := fields_eq hg hA hbits outChannel (Or.inr rfl)
  have hreq := bit_eq hg hA hbits hg.within.outReq.2
  have hacc : outChannel.Accepts g w.vm.mem ↔ outChannel.Accepts g w'.vm.mem := by
    unfold Channel.Accepts
    rw [haddr, hlen]
  cases hrun : w.vm.mem.bit g.mmio.outReq with
  | false =>
      rw [serviceOut_idle (by rw [hw.geometry, hrun]),
        serviceOut_idle (by rw [hw'.geometry, ← hreq, hrun])]
      exact ⟨hw, hw', hbits, hinp, hout, hcount⟩
  | true =>
      by_cases hok : outChannel.Accepts g w.vm.mem
      · rw [serviceOut_accepted hg hw hrun hok,
          serviceOut_accepted hg hw' (hreq ▸ hrun) (hacc.mp hok)]
        have hbytes := outBytes_eq hg hA ha ⟨hw, hw', hbits, hinp, hout, hcount⟩ hok
        refine ⟨⟨hw.geometry, rfl⟩, ⟨hw'.geometry, rfl⟩, ?_, hinp, ?_, hcount⟩
        · rw [outDone_mem, outDone_mem, hbytes, hout]
          exact completeMem_eqOn _ (raise_eqOn (outCleared_eqOn hbits) _ _) _
        · rw [outDone_out, outDone_out, hbytes, hout]
      · rw [serviceOut_rejected hg hw hrun hok,
          serviceOut_rejected hg hw' (hreq ▸ hrun) fun h' => hok (hacc.mpr h')]
        exact ⟨⟨hw.geometry, rfl⟩, ⟨hw'.geometry, rfl⟩,
          rejectMem_eqOn _ (outCleared_eqOn hbits), hinp, hout, hcount⟩

omit ha in
theorem serviceIn_same : SameCore A g (serviceIn w).val (serviceIn w').val := by
  obtain ⟨hw, hw', hbits, hinp, hout, hcount⟩ := h
  obtain ⟨haddr, hlen⟩ := fields_eq hg hA hbits inChannel (Or.inl rfl)
  have hreq := bit_eq hg hA hbits hg.within.inReq.2
  have hacc : inChannel.Accepts g w.vm.mem ↔ inChannel.Accepts g w'.vm.mem := by
    unfold Channel.Accepts
    rw [haddr, hlen]
  cases hrun : w.vm.mem.bit g.mmio.inReq with
  | false =>
      rw [serviceIn_idle (by rw [hw.geometry, hrun]),
        serviceIn_idle (by rw [hw'.geometry, ← hreq, hrun])]
      exact ⟨hw, hw', hbits, hinp, hout, hcount⟩
  | true =>
      by_cases hok : inChannel.Accepts g w.vm.mem
      · rw [serviceIn_accepted hg hw hrun hok,
          serviceIn_accepted hg hw' (hreq ▸ hrun) (hacc.mp hok)]
        refine ⟨⟨hw.geometry, rfl⟩, ⟨hw'.geometry, rfl⟩, ?_, ?_, hout, hcount⟩
        · rw [inDone_mem, inDone_mem, ← haddr, ← hlen, ← hinp]
          exact completeMem_eqOn _ (receivedMem_eqOn (inCleared_eqOn hbits) _ _ _) _
        · rw [inDone_inp, inDone_inp, ← hlen, ← hinp]
      · rw [serviceIn_rejected hg hw hrun hok,
          serviceIn_rejected hg hw' (hreq ▸ hrun) fun h' => hok (hacc.mpr h')]
        exact ⟨⟨hw.geometry, rfl⟩, ⟨hw'.geometry, rfl⟩,
          rejectMem_eqOn _ (inCleared_eqOn hbits), hinp, hout, hcount⟩

theorem served_same : SameCore A g (served w) (served w') := by
  have hreset : SameCore A g (w.withVm w.vm.resetErr) (w'.withVm w'.vm.resetErr) :=
    ⟨⟨h.left.geometry, h.left.space⟩, ⟨h.right.geometry, h.right.space⟩, h.bits, h.inp,
      h.out, h.tickCounter⟩
  exact serviceIn_same hg hA (serviceOut_same hg hA ha hreset)

/-! ## The slots -/

omit ha in
/-- Where the memories agree the same instruction is fetched. -/
theorem fetched_same {k : Nat} (hk : k < g.processorN)
    (hbits : Set.EqOn (w.vm.beforeSlot k).mem.bit (w'.vm.beforeSlot k).mem.bit A) :
    slotIns w.vm k = slotIns w'.vm k := by
  have hslot := hg.slot_le hk
  have hbase := hg.processorBits_le.trans hg.workspaceBase_le
  rw [slotIns_eq hg h.left hk, slotIns_eq hg h.right hk]
  refine instAt_congr fun p _ hp => hbits (hA ?_)
  rw [Set.mem_Iio]
  omega

omit ha in
/-- The slots keep agreement as long as their copies are local. -/
theorem beforeSlot_same {k : Nat} (hk : k ≤ g.processorN)
    (hlocal : ∀ i < k, (slotIns w.vm i).n ≠ 0 → (slotIns w.vm i).Local A) :
    Set.EqOn (w.vm.beforeSlot k).mem.bit (w'.vm.beforeSlot k).mem.bit A := by
  induction k with
  | zero => exact h.bits
  | succ k ih =>
      have hprev := ih (Nat.le_of_succ_le hk) fun i hi => hlocal i (Nat.lt_succ_of_lt hi)
      have hins := fetched_same hg hA h hk hprev
      by_cases hn : (slotIns w.vm k).n = 0
      · have hn' : (slotIns w'.vm k).n = 0 := hins ▸ hn
        have hnop : w.vm.beforeSlot (k + 1) = w.vm.beforeSlot k := if_pos hn
        have hnop' : w'.vm.beforeSlot (k + 1) = w'.vm.beforeSlot k := if_pos hn'
        rw [hnop, hnop']
        exact hprev
      · rw [mem_beforeSlot_succ rfl hn, mem_beforeSlot_succ hins.symm hn]
        exact hlocal k (Nat.lt_succ_self k) hn _ _ hprev

omit ha in
/-- Both machines stop at the same slot. -/
theorem goodSlots_same
    (hlocal : ∀ i < goodSlots w.vm, (slotIns w.vm i).n ≠ 0 → (slotIns w.vm i).Local A) :
    goodSlots w.vm = goodSlots w'.vm := by
  have hP : w.vm.processorN = g.processorN := h.left.processorN
  have hP' : w'.vm.processorN = g.processorN := h.right.processorN
  have hbad : ∀ i ≤ goodSlots w.vm, i < g.processorN → (BadSlot w.vm i ↔ BadSlot w'.vm i) := by
    intro i hi hlt
    unfold BadSlot
    rw [fetched_same hg hA h hlt (beforeSlot_same hg hA h hlt.le fun j hj =>
      hlocal j (hj.trans_le hi)), h.left.geometry, h.right.geometry]
  have hgood : ∀ i < goodSlots w.vm, ¬ BadSlot w'.vm i := fun i hi hb =>
    not_bad_of_lt_goodSlots hi
      ((hbad i hi.le (hi.trans_le (hP ▸ goodSlots_le w.vm))).mpr hb)
  rcases Nat.lt_or_ge (goodSlots w.vm) g.processorN with hlt | hge
  · have hstop := bad_goodSlots (hP.symm ▸ hlt)
    refine (goodSlots_of_least ⟨⟨hP' ▸ hlt, (hbad _ le_rfl hlt).mp hstop⟩, ?_⟩).symm
    intro i hi
    by_contra hlt'
    exact hgood i (not_le.mp hlt') hi.2
  · have hall : goodSlots w.vm = g.processorN :=
      le_antisymm (hP ▸ goodSlots_le w.vm) hge
    rw [hall, ← hP']
    exact (goodSlots_of_good fun i hi => hgood i (by omega)).symm

/-! ## Ticks and runs -/

/-- Every copy of the tick is local. -/
def TickLocal (A : Set Nat) (w : World) : Prop :=
  ∀ i < slotsRun w, (slotIns (served w).vm i).n ≠ 0 → (slotIns (served w).vm i).Local A

omit hg hA ha h in
/-- A failed tick is not counted. -/
theorem vmTick_counter {w : World} (hs : w.vm.space.isSome) :
    (vmTick w).val.2.vm.tickCounter =
      if (vmTick w).val.1 = .err then w.vm.tickCounter
      else (w.vm.tickCounter + 1) % 2 ^ 64 := by
  have hserved : (served w).vm.tickCounter = w.vm.tickCounter := (served_vm hs).tickCounter
  obtain ⟨r, t, htick, hshape⟩ := vmTick_shape hs
  rw [htick]
  cases hshape with
  | halt =>
      rw [if_neg (by rintro ⟨⟩)]
      show ((served w).vm.tickCounter + 1) % 2 ^ 64 = _
      rw [hserved]
  | ok =>
      rw [if_neg (by rintro ⟨⟩)]
      show (((begun w).vm.beforeSlot _).tickCounter + 1) % 2 ^ 64 = _
      rw [Vm.tickCounter_beforeSlot, vm_begun, hserved]
  | err =>
      rw [if_pos rfl]
      show ((begun w).vm.beforeSlot _).tickCounter = _
      rw [Vm.tickCounter_beforeSlot, vm_begun, hserved]

theorem halts_same : halts w = halts w' := by
  have hserved := served_same hg hA ha h
  unfold halts
  rw [hserved.left.geometry, hserved.right.geometry]
  exact bit_eq hg hA hserved.bits hg.within.halt.2

/-- **One tick** of machines with the same core: the same result, and the same
core again. -/
theorem vmTick_same (hlocal : TickLocal A w) :
    (vmTick w).val.1 = (vmTick w').val.1 ∧ SameCore A g (vmTick w).val.2 (vmTick w').val.2 := by
  have hserved := served_same hg hA ha h
  have hran := ranSlots h.left.space
  have hran' := ranSlots h.right.space
  have hhalt := halts_same hg hA ha h
  have hrun : slotsRun w = slotsRun w' := by
    unfold slotsRun
    rw [← hhalt]
    split
    · rfl
    · next hgo =>
        refine goodSlots_same hg hA hserved fun i hi => hlocal i ?_
        rwa [slotsRun, if_neg hgo]
  have hres : (vmTick w).val.1 = (vmTick w').val.1 := by
    have hok : (vmTick w).val.1 = .ok ↔ (vmTick w').val.1 = .ok := by
      rw [hran.ok, hran'.ok, hhalt, hrun, hserved.left.processorN, hserved.right.processorN]
    have hstop : (vmTick w).val.1 = .halt ↔ (vmTick w').val.1 = .halt := by
      rw [hran.halt, hran'.halt, hhalt]
    cases hrc : (vmTick w).val.1 with
    | ok => exact (hok.mp hrc).symm
    | halt => exact (hstop.mp hrc).symm
    | err =>
        cases hrc' : (vmTick w').val.1 with
        | ok => exact hrc.symm.trans (hok.mpr hrc')
        | halt => exact hrc.symm.trans (hstop.mpr hrc')
        | err => rfl
  refine ⟨hres, vmTick_ready h.left, vmTick_ready h.right, ?_, ?_, ?_, ?_⟩
  · rw [hran.mem, hran'.mem, ← hrun]
    exact beforeSlot_same hg hA hserved
      ((slotsRun_le w).trans hserved.left.processorN.le) hlocal
  · rw [hran.streams.1, hran'.streams.1, hserved.inp]
  · rw [hran.streams.2, hran'.streams.2, hserved.out]
  · rw [vmTick_counter h.left.space, vmTick_counter h.right.space, hres, h.tickCounter]

/-- **A run** of machines with the same core. -/
theorem vmRun_same {life : Nat} (hlocal : ∀ t ∈ runStarts life w, TickLocal A t) :
    (vmRun life w).val.1 = (vmRun life w').val.1 ∧
      SameCore A g (vmRun life w).val.2 (vmRun life w').val.2 := by
  rw [vmRun_eq, vmRun_eq]
  exact runWhile_simulates h life fun t ht t' hsame =>
    vmTick_same hg hA ha hsame (hlocal t ht)

end Core

end SpaceVerifier.Runtime
