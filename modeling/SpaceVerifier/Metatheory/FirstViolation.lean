import SpaceVerifier.Metatheory.ContractIsolation

/-!
# The first violation and the first tick

The verifier reads all slots of an image before any of them runs, the machine
fetches each slot from the memory that the earlier ones have left. Up to the first
violation of a report the two see the same instructions; so where that one is
about the end of the space it is not a false alarm, and the machine stops there at
the latest.
-/

namespace SpaceVerifier.Runtime

open Foundation

section Slots

variable {g : VmGeometry} (hg : g.Wf) {w : World} (hw : Ready g w)
include hg hw

/-- The device leaves everything but the registers of the OUT channel, if no input
is requested. -/
theorem served_bit (hreq : w.vm.mem.bit g.mmio.inReq = false) {p : Nat} (hp : p ∉ outRegs g) :
    (served w).vm.mem.bit p = w.vm.mem.bit p := by
  have hready := inWorld_ready hw
  have hout := (serviceOut_serving hg hw.reset.geometry hw.reset.space).serves
  have hin : (inWorld w).vm.mem.bit g.mmio.inReq = false :=
    (hout.vm.bit_eq (inReq_notMem_outRegs hg)).trans hreq
  have hidle : served w = inWorld w := by
    show (serviceIn (inWorld w)).val = _
    apply serviceIn_idle
    rw [hready.geometry, hin]
  rw [hidle]
  exact hout.vm.bit_eq hp

/-- The code of a memory whose first `s` slots write behind it, when slot `s` is
reached: the slots that ran have kept it. -/
theorem beforeSlot_code {m₀ : Mem} (hcode : ∀ p < g.processorBits, w.vm.mem.bit p = m₀.bit p)
    {s : Nat} (hs : s ≤ g.processorN)
    (haway : ∀ i < s, (slotInst g m₀ i).n ≠ 0 → g.processorBits ≤ (slotInst g m₀ i).dst ∧
      (slotInst g m₀ i).dst + (slotInst g m₀ i).n ≤ g.spaceBits) :
    ∀ p < g.processorBits, (w.vm.beforeSlot s).mem.bit p = m₀.bit p := by
  induction s with
  | zero => exact hcode
  | succ s ih =>
      have hkept := ih (Nat.le_of_succ_le hs) fun i hi => haway i (Nat.lt_succ_of_lt hi)
      have hins : slotIns w.vm s = slotInst g m₀ s :=
        (slotIns_eq hg hw hs).trans (slotInst_congr hg hs hkept)
      intro p hp
      by_cases hn : (slotInst g m₀ s).n = 0
      · have hnop := congrArg World.vm (beforeSlot_nop w (by rw [hins]; exact hn))
        simp only [World.vm_beforeSlot] at hnop
        rw [hnop]
        exact hkept p hp
      · obtain ⟨hbehind, hle⟩ := haway s (Nat.lt_succ_self s) hn
        have hbits := hg.spaceBits_le
        rw [mem_beforeSlot_succ hins hn, bitcpy_frame _ (by omega)]
        · exact hkept p hp
        · rw [Nat.mul_zero, Nat.zero_add, Set.mem_Ico]
          omega

/-- The slots before `s` write behind the code and inside the space. -/
def WritesBehind (g : VmGeometry) (m : Mem) (s : Nat) : Prop :=
  ∀ i < s, (slotInst g m i).n ≠ 0 → g.processorBits ≤ (slotInst g m i).dst ∧
    (slotInst g m i).dst + (slotInst g m i).n ≤ g.spaceBits

/-- A slot behind such slots runs the instruction of the memory at the start of the tick. -/
theorem slotIns_served (hreq : w.vm.mem.bit g.mmio.inReq = false) {s i : Nat}
    (haway : WritesBehind g w.vm.mem s) (hi : i ≤ s) (hs : s < g.processorN) :
    slotIns (served w).vm i = slotInst g w.vm.mem i := by
  have hcode : ∀ p < g.processorBits, (served w).vm.mem.bit p = w.vm.mem.bit p := by
    intro p hp
    refine served_bit hg hw hreq fun hout => ?_
    simp only [outRegs, Set.mem_ofPred_eq, Set.mem_Ico, hg.mmio_eq, mmioAt] at hout
    omega
  have hbefore := beforeSlot_code hg hw.served hcode (show i ≤ g.processorN by omega)
    fun j hj => haway j (by omega)
  exact (slotIns_eq hg hw.served (by omega)).trans (slotInst_congr hg (by omega) hbefore)

/-- **A tick with a destination outside the space**, behind slots that keep the
code, ends there or before. -/
theorem vmTick_stops (hreq : w.vm.mem.bit g.mmio.inReq = false)
    (hhalt : w.vm.mem.bit g.mmio.halt = false) {s : Nat} (hs : s < g.processorN)
    (haway : WritesBehind g w.vm.mem s) (hn : (slotInst g w.vm.mem s).n ≠ 0)
    (hout : g.spaceBits < add64 (slotInst g w.vm.mem s).dst (slotInst g w.vm.mem s).n) :
    (vmTick w).val.1 = .err ∧ (vmTick w).val.2.vm.lastErr.slot ≤ s ∧
      ((∀ i < s, (slotInst g w.vm.mem i).n ≠ 0 →
          (slotInst g w.vm.mem i).src + (slotInst g w.vm.mem i).n ≤ g.spaceBits) →
        (vmTick w).val.2.vm.lastErr.slot = s ∧
        (vmTick w).val.2.vm.lastErr.ins = slotInst g w.vm.mem s) := by
  have hins := fun i (hi : i ≤ s) => slotIns_served hg hw hreq haway hi hs
  have hgeometry := hw.served.geometry
  have hbad : BadSlot (served w).vm s := by
    unfold BadSlot VmInst.OutOfBounds
    rw [hins s le_rfl, hgeometry]
    exact ⟨hn, Or.inr hout⟩
  have hkept := served_bit hg hw hreq (halt_notMem_outRegs hg)
  obtain ⟨r, t, htick, hshape⟩ := vmTick_shape hw.space
  rw [htick]
  cases hshape with
  | halt hset =>
      rw [hgeometry, hkept, hhalt] at hset
      cases hset
  | ok _ hgood => exact absurd hbad (hgood s (by rwa [hw.served.processorN]))
  | @err j _ hleast =>
      have hle : j ≤ s := hleast.2 ⟨by rwa [hw.served.processorN], hbad⟩
      refine ⟨rfl, hle, fun hsrc => ?_⟩
      have hj : j = s := by
        by_contra hne
        have hlt : j < s := lt_of_le_of_ne hle hne
        -- an earlier slot that leaves the space can only do so with its source
        obtain ⟨hnj, hcase⟩ := hleast.1.2
        rw [hins j hle] at hnj hcase
        rw [hgeometry] at hcase
        have hsrcj := hsrc j hlt hnj
        have hdstj := (haway j hlt hnj).2
        have hbits := hg.spaceBits_le
        rw [add64_of_lt (by omega), add64_of_lt (by omega)] at hcase
        omega
      subst hj
      exact ⟨rfl, hins j le_rfl⟩

end Slots

end SpaceVerifier.Runtime

namespace SpaceVerifier.Verifier

open Foundation SpaceVerifier.Runtime

/-! ## The first entry of a report -/

/-- The instructions before the first violation have none. -/
theorem checkInstrs_first {cfg : Config} {tick : Nat} {instrs : List Instruction}
    {v : Violation} {rest : List Violation}
    (h : checkInstrs cfg tick instrs = .ok (v :: rest)) :
    ∃ (i : Nat) (ins : Instruction) (more : List Violation),
      instrs[i]? = some ins ∧ checkInstr cfg tick ins = .ok (v :: more) ∧
      ∀ j < i, ∀ before, instrs[j]? = some before → checkInstr cfg tick before = .ok [] := by
  induction instrs with
  | nil => cases h
  | cons ins instrs ih =>
      obtain ⟨here, hhere, h⟩ := bind_eq_ok.mp h
      obtain ⟨others, hothers, h⟩ := bind_eq_ok.mp h
      have hlist := Except.ok.inj h
      cases here with
      | cons v' more =>
          obtain ⟨rfl, -⟩ := List.cons.inj hlist
          exact ⟨0, ins, more, rfl, hhere, fun j hj => absurd hj (Nat.not_lt_zero j)⟩
      | nil =>
          rw [List.nil_append] at hlist
          subst hlist
          obtain ⟨i, ins', more, hi, hcheck, hbefore⟩ := ih hothers
          refine ⟨i + 1, ins', more, hi, hcheck, fun j hj before hget => ?_⟩
          cases j with
          | zero =>
              obtain rfl := Option.some.inj hget
              exact hhere
          | succ j => exact hbefore j (Nat.lt_of_succ_lt_succ hj) before hget

/-- A first violation about the end of the space is about the destination. -/
theorem checkInstr_boundary {cfg : Config} {S tick : Nat} {ins : Instruction} {v : Violation}
    {more : List Violation} (hS : cfg.spaceBytes = .int S)
    (h : checkInstr cfg tick ins = .ok (v :: more))
    (hv : ∃ dst n bits, v.reason = .boundary dst n bits) :
    v = mkViolation tick ins v.reason ∧ ins.n ≠ 0 ∧ 8 * S < ins.dst + ins.n := by
  obtain ⟨dst, n, bits', hreason⟩ := hv
  cases hnop : ins.isNop with
  | true =>
      rw [checkInstr, hnop] at h
      cases h
  | false =>
      have hn : ins.n ≠ 0 := by simpa [Instruction.isNop] using hnop
      obtain ⟨bits, hbits, ⟨hout, hvs⟩ | ⟨-, hit, -, hreport⟩⟩ := (checkInstr_eq_ok hnop).mp h
      · obtain ⟨rfl, -⟩ := List.cons.inj hvs
        rw [Config.spaceBits, hS] at hbits
        obtain rfl := Except.ok.inj hbits
        rw [PyVal.lt_int] at hout
        have hlt := of_decide_eq_true (Except.ok.inj hout)
        exact ⟨rfl, hn, by omega⟩
      · -- the other reasons come from the regions
        have hmem : v ∈ v :: more := List.mem_cons_self
        have hother : ∀ u ∈ protectedPart tick ins hit, u.reason ≠ .boundary dst n bits' := by
          intro u hu
          cases hit with
          | none => cases hu
          | some r =>
              obtain rfl := List.mem_singleton.mp hu
              exact Reason.noConfusion
        rcases hreport with ⟨-, hvs⟩ | ⟨-, inside, -, hvs⟩
        · rw [hvs] at hmem
          exact absurd hreason (hother v hmem)
        · rw [hvs] at hmem
          rcases List.mem_append.mp hmem with hmem | hmem
          · exact absurd hreason (hother v hmem)
          · cases inside with
            | true => cases hmem
            | false =>
                obtain rfl := List.mem_singleton.mp hmem
                cases hreason

/-! ## The first tick -/

/-- The decoded program, slot by slot, of a machine that holds the image. -/
theorem program_slot {vm : Vm} (hg : vm.toVmGeometry.Wf) {data : List Byte}
    (hlength : data.length = vm.spaceBytes) {w : World} (hw : Loaded vm data w) {i : Nat}
    (hi : i < vm.processorN) :
    (program (imageMem data) vm.addrBits vm.processorN)[i]? =
      some (Instruction.ofInst i (slotInst vm.toVmGeometry w.vm.mem i)) := by
  have hcode := hg.processorBits_le.trans hg.workspaceBase_le
  rw [hg.spaceBits_eq, ← hlength] at hcode
  have hsame : slotInst vm.toVmGeometry w.vm.mem i = slotInst vm.toVmGeometry (imageMem data) i :=
    slotInst_congr hg hi fun p hp => hw.holds.bit_eq (by omega)
  rw [program, List.getElem?_map, List.getElem?_range hi, hsame]
  rfl

/-- **No false alarm.** Where the first violation of a layer is about the end of the
space, every run of the layer of at least one tick returns `VM_ERR`, at this slot or
before it; it is at this slot, with the instruction of the violation, if the slots before
it read inside the space. The image is not halted and requests no input. -/
theorem first_violation_stops {calloc : Nat → Bool} {S P : Nat} {vm : Vm}
    (h : Accepted calloc S P vm) (hlimit : CallocLimit calloc (2 ^ 53))
    {prot allowed : List Region} (hbounds : IntBounds prot) (hcovers : Covers prot vm.workspaceBase)
    {data : List Byte} (hlength : data.length = S)
    (hreq : (imageMem data).bit vm.mmio.inReq = false)
    (hhalt : (imageMem data).bit vm.mmio.halt = false) {instrs : List Instruction}
    (hread : read (Config.derived S P prot allowed) data = .ok instrs) {tick : Nat}
    {res : MemoryCheckResult}
    (hcheck : checkLayer (Config.derived S P prot allowed) instrs tick = .ok res)
    {v : Violation} {rest : List Violation} (hfirst : res.violations = v :: rest)
    (hv : ∃ dst n bits, v.reason = .boundary dst n bits) {w : World} (hw : Loaded vm data w)
    (life : Nat) :
    (vmRun (life + 1) w).val.1 = .err ∧
      (vmRun (life + 1) w).val.2.vm.lastErr.slot ≤ v.slot ∧
      ((∀ ins ∈ instrs, ins.slot < v.slot → ins.n ≠ 0 → ins.src + ins.n ≤ vm.spaceBits) →
        (vmRun (life + 1) w).val.2.vm.lastErr.slot = v.slot ∧
        (vmRun (life + 1) w).val.2.vm.lastErr.ins = ⟨v.n, v.dst, v.src⟩) := by
  obtain ⟨hg, ha⟩ := addrBits_le_of_limit h hlimit
  obtain ⟨-, hS, hP⟩ := h.wf (hlimit.mono (by decide))
  subst hS hP
  obtain rfl := Except.ok.inj (hread.symm.trans (read_machine hg hlength prot allowed))
  obtain ⟨vs, hvs, hres⟩ := bind_eq_ok.mp hcheck
  obtain rfl := Except.ok.inj hres
  obtain rfl : vs = v :: rest := hfirst
  obtain ⟨s, ins, more, hs, hins, hbefore⟩ := checkInstrs_first hvs
  obtain ⟨hshow, hn, hout⟩ := checkInstr_boundary rfl hins hv
  have hfetch := fun i => @program_slot _ hg _ hlength _ hw i
  have hlt : s < vm.processorN := by
    by_contra hge
    rw [program, List.getElem?_eq_none (by simpa using hge)] at hs
    cases hs
  obtain rfl := Option.some.inj (hs.symm.trans (hfetch s hlt))
  -- the instructions before the violation write to the workspace
  have haway : WritesBehind vm.toVmGeometry w.vm.mem s := by
    intro i hi hni
    obtain ⟨hle, hnone⟩ := checkInstr_nil rfl hni
      (hbefore i hi _ (hfetch i (hi.trans hlt)))
    have hprotected := fun p hp => @firstIntersecting_none _ hbounds _ _ hnone p (hcovers p hp)
    refine ⟨?_, by rw [hg.spaceBits_eq]; exact hle⟩
    by_contra hbelow
    have hcode := hg.processorBits_le
    refine hprotected (slotInst vm.toVmGeometry w.vm.mem i).dst (by omega) ?_
    exact Set.mem_Ico.mpr ⟨le_rfl, Nat.lt_add_of_pos_right (Nat.pos_of_ne_zero hni)⟩
  have hspace := hg.spaceBits_le
  have hbits : ∀ p < vm.workspaceBase, w.vm.mem.bit p = (imageMem data).bit p := by
    intro p hp
    have hle := hg.workspaceBase_le
    rw [hg.spaceBits_eq, ← hlength] at hle
    exact hw.holds.bit_eq (by omega)
  have hlarge := slotInst_lt vm.toVmGeometry w.vm.mem s
  have hpow : 2 ^ vm.addrBits ≤ 2 ^ 56 := Nat.pow_le_pow_right (by decide) ha
  obtain ⟨herr, hle, hexact⟩ := vmTick_stops hg ⟨hw.geometry, hw.space⟩
    ((hbits _ hg.within.inReq.2).trans hreq) ((hbits _ hg.within.halt.2).trans hhalt) hlt haway hn
    (by rw [add64_of_lt (by omega), hg.spaceBits_eq]; exact hout)
  have hrun : (vmRun (life + 1) w).val = (vmTick w).val := by
    rw [vmRun_eq, runWhile_succ, if_neg (by rw [herr]; decide)]
  rw [hrun, hshow]
  refine ⟨herr, hle, fun hsrc => hexact fun i hi hni => ?_⟩
  exact hsrc _ (List.mem_of_getElem? (hfetch i (hi.trans hlt))) hi hni

/-- A copy in the workspace, and one past the end of the space. -/
def spillImage : List Byte := [8, 112, 120, 8, 250, 0] ++ List.replicate 26 0

def spillWorld : World := bareWorld ((bootVm 2).withMem (imageMem spillImage))

theorem first_violation_stops_spill : (vmRun 3 spillWorld).val.1 = .err ∧
    (vmRun 3 spillWorld).val.2.vm.lastErr.slot = 1 := by
  have hg := (bootVm_accepted.1.wf (hostCalloc_limit.mono (by decide))).1
  have hread := (read_machine hg (rfl : spillImage.length = (bootVm 2).spaceBytes) [pairRegion]
    []).trans (congrArg Except.ok (program_bytes spillImage))
  obtain ⟨herr, -, hexact⟩ := first_violation_stops bootVm_accepted.1
    (hostCalloc_limit.mono (by decide)) pairImage_verified.bounds pairImage_verified.covers
    rfl rfl rfl hread (rfl : checkLayer _ _ 0 = .ok ⟨.fail, _ :: _, 2, 0⟩) rfl ⟨_, _, _, rfl⟩
    (w := spillWorld) ⟨rfl, rfl, fun _ _ => rfl⟩ 2
  exact ⟨herr, (hexact (by decide)).1⟩

end SpaceVerifier.Verifier
