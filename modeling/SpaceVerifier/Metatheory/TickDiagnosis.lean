import SpaceVerifier.Metatheory.TickSafety

/-!
# The diagnosis of a failing tick

A slot is judged by what the earlier slots of the same tick have made of it.
The record a failing tick leaves names the first slot that is out of bounds in
this sense, and the memory is what that slot has found. The tick number in the
record is the 64-bit counter of completed ticks, so it is exact up to 2^64.
-/

namespace SpaceVerifier.Runtime

open Foundation Foundation.Traced

/-! ## Runs of a machine and its host -/

/-- What the host may do between two calls: rewrite the memory, the streams, the
hooks and the records, but not the layout or the tick counter. -/
structure HostStep (w w' : World) : Prop where
  geometry : w'.vm.toVmGeometry = w.vm.toVmGeometry
  space : w'.vm.space.isSome
  tickCounter : w'.vm.tickCounter = w.vm.tickCounter

/-- Whether the next tick completes: it returns `VM_OK` or `VM_HALT`. -/
def completed (w : World) : Nat := if (vmTick w).val.1 = .err then 0 else 1

/-- Reached from the machine `vm₀` that `vm_init` has left, after any number of
ticks of which `n` have completed. -/
inductive Reached (vm₀ : Vm) : Nat → World → Prop
  | init {w : World} (h : w.vm = vm₀) : Reached vm₀ 0 w
  | host {n : Nat} {w w' : World} (h : Reached vm₀ n w) (hstep : HostStep w w') :
      Reached vm₀ n w'
  | tick {n : Nat} {w : World} (h : Reached vm₀ n w) :
      Reached vm₀ (n + completed w) (vmTick w).val.2

/-! ## Diagnoses -/

/-- The instruction reaches outside the space. Both sums are exact. -/
def VmInst.Leaves (ins : VmInst) (spaceBits : Nat) : Prop :=
  0 < ins.n ∧ (ins.src + ins.n > spaceBits ∨ ins.dst + ins.n > spaceBits)

/-- The slots whose instruction, when its turn comes, reaches outside. -/
def leavingSlots (vm : Vm) : Set Nat :=
  {i | i < vm.processorN ∧ (slotIns vm i).Leaves vm.spaceBits}

/-- `w'`, left by a failing tick of `w`, records its first slot that reaches
outside, in tick number `t`; nothing has happened since that slot was fetched. -/
structure Diagnosed (w w' : World) (t : Nat) : Prop where
  slot : IsLeast (leavingSlots (served w).vm) w'.vm.lastErr.slot
  ins : w'.vm.lastErr.ins = slotIns (served w).vm w'.vm.lastErr.slot
  kind : w'.vm.lastErr.kind =
    if w'.vm.lastErr.ins.src + w'.vm.lastErr.ins.n > w.vm.spaceBits then .srcBounds
    else .dstBounds
  tick : w'.vm.lastErr.tick = t
  mem : w'.vm.mem = ((served w).vm.beforeSlot w'.vm.lastErr.slot).mem
  tickCounter : w'.vm.tickCounter = w.vm.tickCounter

/-! ## One tick -/

/-- Neither the device nor a slot touches the counter. -/
theorem begun_tickCounter {w : World} (hs : w.vm.space.isSome) (i : Nat) :
    ((begun w).vm.beforeSlot i).tickCounter = w.vm.tickCounter := by
  rw [Vm.tickCounter_beforeSlot, vm_begun, (served_vm hs).tickCounter]
  rfl

section Tick

variable {g : VmGeometry} (hg : g.Wf) (ha : g.addrBits ≤ 56)
include hg ha

theorem badSlots_eq {w : World} (hw : Ready g w) : badSlots w.vm = leavingSlots w.vm := by
  ext i
  refine and_congr_right fun hi => ?_
  rw [hw.geometry] at hi
  obtain ⟨hsrc, hdst⟩ := slotIns_add64 hg ha hw hi
  unfold BadSlot VmInst.OutOfBounds VmInst.Leaves
  rw [hsrc, hdst, Nat.pos_iff_ne_zero]

/-- A failing tick is diagnosed, under the number the counter shows. -/
theorem diagnosed_of_err {w : World} (hw : Ready g w) (herr : (vmTick w).val.1 = .err) :
    Diagnosed w (vmTick w).val.2 w.vm.tickCounter := by
  have hbits : (served w).vm.spaceBits = w.vm.spaceBits :=
    congrArg VmGeometry.spaceBits (served_vm hw.space).geometry
  obtain ⟨r, t, htick, hshape⟩ := vmTick_shape hw.space
  rw [htick] at herr ⊢
  cases hshape with
  | halt => cases herr
  | ok => cases herr
  | @err j _ hfirst =>
      have hj : j < g.processorN := by
        rw [← hw.served.geometry]
        exact hfirst.1.1
      obtain ⟨hsrc, -⟩ := slotIns_add64 hg ha hw.served hj
      rw [badSlots_eq hg ha hw.served] at hfirst
      refine ⟨hfirst, rfl, ?_, ?_, ?_, ?_⟩
      · show boundsKind _ _ = _
        unfold boundsKind
        rw [hsrc, hbits]
        rfl
      · exact begun_tickCounter hw.space j
      · show ((begun w).vm.beforeSlot j).mem = _
        rw [vm_begun]
        rfl
      · exact begun_tickCounter hw.space j

/-- A tick that returns `VM_OK` has met no such slot and records none. -/
theorem undiagnosed_of_ok {w : World} (hw : Ready g w) (hok : (vmTick w).val.1 = .ok) :
    leavingSlots (served w).vm = ∅ ∧ (vmTick w).val.2.vm.lastErr.kind = .none := by
  have htouch := served_vm hw.space
  obtain ⟨r, t, htick, hshape⟩ := vmTick_shape hw.space
  rw [htick] at hok ⊢
  cases hshape with
  | halt => cases hok
  | err => cases hok
  | ok hhalt hgood =>
      constructor
      · rw [← badSlots_eq hg ha hw.served, Set.eq_empty_iff_forall_notMem]
        rintro i ⟨hi, hbad⟩
        exact hgood i hi hbad
      · show ((begun w).vm.beforeSlot _).lastErr.kind = _
        rw [Vm.lastErr_beforeSlot, vm_begun, htouch.lastErr]
        rfl

end Tick

/-- The counter counts completed ticks, in 64 bits. -/
theorem vmTick_tickCounter {w : World} (hs : w.vm.space.isSome) {n : Nat}
    (hn : w.vm.tickCounter = n % 2 ^ 64) :
    (vmTick w).val.2.vm.tickCounter = (n + completed w) % 2 ^ 64 := by
  obtain ⟨r, t, htick, hshape⟩ := vmTick_shape hs
  rw [completed, htick]
  cases hshape with
  | halt =>
      show ((served w).vm.tickCounter + 1) % 2 ^ 64 = (n + 1) % 2 ^ 64
      rw [(served_vm hs).tickCounter, ← Nat.mod_add_mod n, ← hn]
      rfl
  | ok =>
      show (((begun w).vm.beforeSlot _).tickCounter + 1) % 2 ^ 64 = (n + 1) % 2 ^ 64
      rw [begun_tickCounter hs, hn, Nat.mod_add_mod]
  | err =>
      show ((begun w).vm.beforeSlot _).tickCounter = n % 2 ^ 64
      rw [begun_tickCounter hs, hn]

/-! ## Whole runs -/

theorem Accepted.tickCounter {calloc : Nat → Bool} {S P : Nat} {vm : Vm}
    (h : Accepted calloc S P vm) : vm.tickCounter = 0 := by
  obtain ⟨-, -, raw, -, -, -, rfl⟩ := vmInit_eq_some_zero h.init
  rfl

theorem Accepted.space {calloc : Nat → Bool} {S P : Nat} {vm : Vm}
    (h : Accepted calloc S P vm) : vm.space.isSome := by
  obtain ⟨-, -, raw, -, -, -, rfl⟩ := vmInit_eq_some_zero h.init
  rfl

section Run

variable {vm₀ : Vm} (hs : vm₀.space.isSome)
include hs

theorem Reached.ready {n : Nat} {w : World} (h : Reached vm₀ n w) :
    Ready vm₀.toVmGeometry w := by
  induction h with
  | init h => exact ⟨by rw [h], by rw [h]; exact hs⟩
  | host _ hstep ih => exact ⟨hstep.geometry.trans ih.geometry, hstep.space⟩
  | tick _ ih => exact vmTick_ready ih

/-- Along every run the counter is the number of completed ticks, in 64 bits. -/
theorem Reached.tickCounter (h₀ : vm₀.tickCounter = 0) {n : Nat} {w : World}
    (h : Reached vm₀ n w) : w.vm.tickCounter = n % 2 ^ 64 := by
  induction h with
  | init h => rw [h, h₀, Nat.zero_mod]
  | host _ hstep ih => exact hstep.tickCounter.trans ih
  | tick h ih => exact vmTick_tickCounter (h.ready hs).space ih

end Run

/-- **A failing tick is diagnosed at its first bad slot**, and a tick that
returns `VM_OK` has none: after any run of an accepted machine in which `n` ticks
have completed. -/
theorem vmTick_diagnosed {calloc : Nat → Bool} {S P : Nat} {vm₀ : Vm}
    (h : Accepted calloc S P vm₀) (hlimit : CallocLimit calloc (2 ^ 53)) {n : Nat}
    {w : World} (hw : Reached vm₀ n w) :
    ((vmTick w).val.1 = .err → Diagnosed w (vmTick w).val.2 (n % 2 ^ 64)) ∧
      ((vmTick w).val.1 = .ok →
        leavingSlots (served w).vm = ∅ ∧ (vmTick w).val.2.vm.lastErr.kind = .none) := by
  obtain ⟨hg, ha⟩ := addrBits_le_of_limit h hlimit
  have hready := hw.ready h.space
  rw [← hw.tickCounter h.space h.tickCounter]
  exact ⟨diagnosed_of_err hg ha hready, undiagnosed_of_ok hg ha hready⟩

/-! ## A counter that has wrapped -/

/-- The smallest machine after `n` ticks, all its bits cleared. -/
def idleVm (n : Nat) : Vm := { smallVm with tickCounter := n % 2 ^ 64 }

/-- A copy of 255 bits in slot 0, nothing else. -/
def brokenMem : Mem := fun j => if j = 0 then 0xFF else 0

/-- The host has written it into the machine, whose space has 128 bits. -/
def brokenWorld (n : Nat) : World := bareWorld ((idleVm n).withMem brokenMem)

theorem smallGeometry_wf : smallGeometry.Wf :=
  (smallVm_accepted.wf (hostCalloc_limit.mono (by decide))).1

/-- Without a request and a halt bit, its slot decides over a small machine. -/
theorem vmTick_small_err_iff {w : World} (hw : Ready smallGeometry w) {m : Mem}
    (hm : w.vm.mem = m) (hclear : m.bit smallGeometry.mmio.outReq = false ∧
      m.bit smallGeometry.mmio.inReq = false ∧ m.bit smallGeometry.mmio.halt = false) :
    (vmTick w).val.1 = .err ↔ (slotInst smallGeometry m 0).OutOfBounds 128 := by
  subst hm
  obtain ⟨hout, hin, hhalt⟩ := hclear
  have hserved : served w = w.withVm w.vm.resetErr :=
    served_idle (by rw [hw.geometry]; exact hout) (by rw [hw.geometry]; exact hin)
  have hins : slotIns (served w).vm 0 = slotInst smallGeometry w.vm.mem 0 := by
    rw [hserved]
    exact slotIns_eq smallGeometry_wf hw.reset (by decide)
  have hgeo : (served w).vm.toVmGeometry = smallGeometry := hw.served.geometry
  have hbad : BadSlot (served w).vm 0 ↔
      (slotInst smallGeometry w.vm.mem 0).OutOfBounds 128 := by
    unfold BadSlot
    rw [hins, hgeo]
    rfl
  obtain ⟨r, t, htick, hshape⟩ := vmTick_shape hw.space
  rw [← hbad, htick]
  cases hshape with
  | halt h =>
      rw [hgeo, hserved] at h
      exact absurd (h.symm.trans hhalt) (by decide)
  | ok _ hgood =>
      rw [hgeo] at hgood
      exact iff_of_false (by rintro ⟨⟩) (hgood 0 (by decide))
  | err _ hfirst =>
      obtain ⟨⟨hj, hbadj⟩, -⟩ := hfirst
      rw [hgeo] at hj
      obtain rfl := Nat.lt_one_iff.mp hj
      exact iff_of_true rfl hbadj

theorem idle_reached (n : Nat) : Reached smallVm n (bareWorld (idleVm n)) := by
  induction n with
  | zero => exact Reached.init rfl
  | succ n ih =>
      have hmem : (bareWorld (idleVm n)).vm.mem = fun _ => 0 := rfl
      have hrc : (vmTick (bareWorld (idleVm n))).val.1 ≠ .err := by
        rw [ne_eq, vmTick_small_err_iff ⟨rfl, rfl⟩ hmem (by decide)]
        decide
      have hnext := ih.tick
      rw [completed, if_neg hrc] at hnext
      refine hnext.host ⟨?_, rfl, ?_⟩
      · exact (hnext.ready rfl).geometry.symm
      · exact (hnext.tickCounter rfl rfl).symm

theorem broken_reached (n : Nat) : Reached smallVm n (brokenWorld n) :=
  (idle_reached n).host ⟨rfl, rfl, rfl⟩

theorem broken_err (n : Nat) : (vmTick (brokenWorld n)).val.1 = .err := by
  have hmem : (brokenWorld n).vm.mem = brokenMem := rfl
  rw [vmTick_small_err_iff ⟨rfl, rfl⟩ hmem (by decide)]
  decide

/-- Broken after three ticks: slot 0 is named, and tick 3. -/
theorem vmTick_diagnosed_small :
    Diagnosed (brokenWorld 3) (vmTick (brokenWorld 3)).val.2 (3 % 2 ^ 64) :=
  (vmTick_diagnosed smallVm_accepted (hostCalloc_limit.mono (by decide))
    (broken_reached 3)).1 (broken_err 3)

/-- After 2^64 completed ticks the record says tick 0. -/
theorem vmTick_misdated : Accepted hostCalloc 16 1 smallVm ∧
    Reached smallVm (2 ^ 64) (brokenWorld (2 ^ 64)) ∧
    (vmTick (brokenWorld (2 ^ 64))).val.1 = .err ∧
    ¬ Diagnosed (brokenWorld (2 ^ 64)) (vmTick (brokenWorld (2 ^ 64))).val.2 (2 ^ 64) := by
  refine ⟨smallVm_accepted, broken_reached _, broken_err _, fun h => ?_⟩
  have hzero := diagnosed_of_err smallGeometry_wf (by decide) ⟨rfl, rfl⟩ (broken_err (2 ^ 64))
  have htick := hzero.tick.symm.trans h.tick
  exact absurd htick (by decide)

end SpaceVerifier.Runtime
