import SpaceVerifier.Metatheory.Services
import SpaceVerifier.Metatheory.BitcpyExact

/-!
# What a tick may write

The slots are fetched from a memory that the device and the earlier slots have
already written, so the ranges a tick may copy into are known only along the
run. They are read off its trace: a bit that no fetched instruction claims is
kept by every slot, and what is left is the device, which writes the status of
a requested channel and the bytes it has delivered.
-/

namespace SpaceVerifier.Runtime

open Foundation Foundation.Traced

/-! ## The device -/

/-- The registers the IN service writes. -/
def inRegs (g : VmGeometry) : Set Nat :=
  {p | p = g.mmio.inReq ∨ p = g.mmio.inDone ∨ p = g.mmio.inEof ∨ p = g.mmio.inErr ∨
    p ∈ Set.Ico g.mmio.inGot (g.mmio.inGot + g.addrBits)}

/-- The bytes an accepted IN request is delivered. -/
def inBytes (g : VmGeometry) (w : World) : List Byte :=
  (fread (inChannel.lenField g w.vm.mem / 8) w.inp).1

/-- Bit `p` lies in the bytes delivered at `in_dst`. -/
def InDelivery (g : VmGeometry) (w : World) (p : Nat) : Prop :=
  inChannel.addrField g w.vm.mem ≤ p ∧
    p < inChannel.addrField g w.vm.mem + 8 * (inBytes g w).length

instance (g : VmGeometry) (w : World) (p : Nat) : Decidable (InDelivery g w p) :=
  inferInstanceAs (Decidable (_ ∧ _))

/-- Bit `p` of the bytes delivered at `in_dst`. -/
def deliveredBit (g : VmGeometry) (w : World) (p : Nat) : Bool :=
  ((inBytes g w).getD ((p - inChannel.addrField g w.vm.mem) / 8) 0).getMsbD (p % 8)

theorem notMem_inRegs {g : VmGeometry} {p : Nat} : p ∉ inRegs g ↔
    p ≠ g.mmio.inReq ∧ p ≠ g.mmio.inDone ∧ p ≠ g.mmio.inEof ∧ p ≠ g.mmio.inErr ∧
      p ∉ Set.Ico g.mmio.inGot (g.mmio.inGot + g.addrBits) := by
  simp only [inRegs, Set.mem_ofPred_eq, not_or]

theorem bit_inCleared_of_notMem {g : VmGeometry} {m : Mem} {p : Nat} (hp : p ∉ inRegs g) :
    (inCleared g m).bit p = m.bit p := by
  obtain ⟨-, hdone, heof, herr, hgot⟩ := notMem_inRegs.mp hp
  unfold inCleared
  rw [Mem.bit_writeField_of_notMem _ hgot]
  simp only [Mem.bit_setBit, if_neg hdone, if_neg heof, if_neg herr]

/-- Bit `p` behind the transfer of an accepted IN request. -/
theorem bit_storeBytes_inBytes {g : VmGeometry} (m : Mem) {w : World}
    (hok : inChannel.Accepts g w.vm.mem) (p : Nat) :
    (storeBytes m (inChannel.addrField g w.vm.mem / 8) (inBytes g w)).bit p =
      if InDelivery g w p then deliveredBit g w p else m.bit p := by
  have haddr := hok.1
  rw [bit_storeBytes]
  by_cases hin : InDelivery g w p
  · have hin' := hin
    unfold InDelivery at hin'
    rw [if_pos hin, if_pos (by omega)]
    unfold deliveredBit
    congr 2
    omega
  · have hin' := hin
    unfold InDelivery at hin'
    rw [if_neg hin, if_neg (by omega)]

section Device

variable {g : VmGeometry} (hg : g.Wf)
include hg

theorem serviceOut_frame {w : World} (hw : Ready g w) {p : Nat}
    (hp : w.vm.mem.bit g.mmio.outReq = true → p ∉ outRegs g) :
    (serviceOut w).val.vm.mem.bit p = w.vm.mem.bit p := by
  cases hreq : w.vm.mem.bit g.mmio.outReq with
  | true => exact (serviceOut_serving hg hw.geometry hw.space).serves.vm.bit_eq (hp hreq)
  | false => rw [serviceOut_idle (by rw [hw.geometry, hreq])]

/-- Bit `p` after an accepted IN request, away from the registers. -/
theorem serviceIn_accepted_bit {w : World} (hw : Ready g w)
    (hreq : w.vm.mem.bit g.mmio.inReq = true) (hok : inChannel.Accepts g w.vm.mem)
    {p : Nat} (hp : p ∉ inRegs g) :
    (serviceIn w).val.vm.mem.bit p =
      if InDelivery g w p then deliveredBit g w p else w.vm.mem.bit p := by
  obtain ⟨hpreq, hpdone, hpeof, hperr, hpgot⟩ := notMem_inRegs.mp hp
  rw [serviceIn_accepted hg hw hreq hok, inDone_mem,
    Channel.bit_completeMem_of_ne hpreq hpdone hpgot]
  unfold receivedMem
  rw [bit_raise_of_ne _ _ hperr, bit_raise_of_ne _ _ hpeof]
  rw [← bit_inCleared_of_notMem (m := w.vm.mem) hp]
  exact bit_storeBytes_inBytes _ hok p

theorem serviceIn_rejected_bit {w : World} (hw : Ready g w)
    (hreq : w.vm.mem.bit g.mmio.inReq = true) (hno : ¬ inChannel.Accepts g w.vm.mem)
    {p : Nat} (hp : p ∉ inRegs g) : (serviceIn w).val.vm.mem.bit p = w.vm.mem.bit p := by
  obtain ⟨hpreq, hpdone, -, hperr, -⟩ := notMem_inRegs.mp hp
  rw [serviceIn_rejected hg hw hreq hno]
  show (inChannel.rejectMem g (inCleared g w.vm.mem)).bit p = _
  rw [Channel.bit_rejectMem_of_ne hpreq hpdone hperr, bit_inCleared_of_notMem hp]

theorem serviceIn_frame {w : World} (hw : Ready g w) {p : Nat}
    (hp : w.vm.mem.bit g.mmio.inReq = true → p ∉ inRegs g ∧
      ¬ (inChannel.Accepts g w.vm.mem ∧ InDelivery g w p)) :
    (serviceIn w).val.vm.mem.bit p = w.vm.mem.bit p := by
  cases hreq : w.vm.mem.bit g.mmio.inReq with
  | false => rw [serviceIn_idle (by rw [hw.geometry, hreq])]
  | true =>
      obtain ⟨hregs, hout⟩ := hp hreq
      by_cases hok : inChannel.Accepts g w.vm.mem
      · rw [serviceIn_accepted_bit hg hw hreq hok hregs, if_neg fun hin => hout ⟨hok, hin⟩]
      · exact serviceIn_rejected_bit hg hw hreq hok hregs

end Device

/-! ## The slots -/

/-- An instruction that writes bit `p` once it is fetched: it copies at least
one bit, passes both bound checks, and `p` is in its destination. -/
def Copies (g : VmGeometry) (p : Nat) (ins : VmInst) : Prop :=
  0 < ins.n ∧ ins.src + ins.n ≤ g.spaceBits ∧ ins.dst + ins.n ≤ g.spaceBits ∧
    p ∈ Set.Ico ins.dst (ins.dst + ins.n)

/-- A fetch of an instruction that leaves bit `p` alone. -/
def Event.Spares (g : VmGeometry) (p : Nat) : Event → Prop
  | .fetch _ ins => ¬ Copies g p ins
  | _ => True

section Slots

variable {g : VmGeometry} (hg : g.Wf) (ha : g.addrBits ≤ 56)
include hg

include ha

/-- **The slots keep every bit that no fetched instruction claims.** -/
theorem beforeSlot_bit {w : World} (hw : Ready g w) {k p : Nat} (hk : k ≤ g.processorN)
    (hgood : ∀ i < k, ¬ BadSlot w.vm i) (h : ∀ e ∈ slotsTrace w.vm k, e.Spares g p) :
    (w.vm.beforeSlot k).mem.bit p = w.vm.mem.bit p := by
  induction k with
  | zero => rfl
  | succ k ih =>
      have hspare : ¬ Copies g p (slotIns w.vm k) :=
        h _ (fetch_mem_slotsTrace w.vm (Nat.lt_succ_self k))
      rw [slotsTrace_succ] at h
      have hkept := ih (Nat.le_of_succ_le hk) (fun i hi => hgood i (Nat.lt_succ_of_lt hi))
        fun e he => h e (List.mem_append_left _ he)
      by_cases hn : (slotIns w.vm k).n = 0
      · have hnop : w.vm.beforeSlot (k + 1) = w.vm.beforeSlot k := if_pos hn
        rw [hnop]
        exact hkept
      · have hbits := hg.spaceBits_le
        obtain ⟨hsrc, hdst⟩ := slotIns_inside hg ha hw hk hn (hgood k (Nat.lt_succ_self k))
        rw [mem_beforeSlot_succ rfl hn, bitcpy_frame _ (by omega)]
        · exact hkept
        · rw [Nat.mul_zero, Nat.zero_add]
          intro hp
          exact hspare ⟨Nat.pos_of_ne_zero hn, hsrc, hdst, hp⟩

end Slots

/-! ## The tick -/

/-- The bits that the tick of `w` may write. -/
inductive TickWrites (g : VmGeometry) (w : World) (p : Nat) : Prop
  | outStatus (hreq : w.vm.mem.bit g.mmio.outReq = true) (hp : p ∈ outRegs g)
  | inStatus (hreq : (inWorld w).vm.mem.bit g.mmio.inReq = true) (hp : p ∈ inRegs g)
  | delivered (hreq : (inWorld w).vm.mem.bit g.mmio.inReq = true)
      (hok : inChannel.Accepts g (inWorld w).vm.mem) (hp : InDelivery g (inWorld w) p)
  | copied (slot : Nat) (ins : VmInst) (hfetch : .fetch slot ins ∈ (vmTick w).trace)
      (hcopy : Copies g p ins)

section Tick

variable {g : VmGeometry} (hg : g.Wf) (ha : g.addrBits ≤ 56)
include hg

theorem served_frame {w : World} (hw : Ready g w) {p : Nat} (hp : ¬ TickWrites g w p) :
    (served w).vm.mem.bit p = w.vm.mem.bit p := by
  have hreset := hw.reset
  have hmid := inWorld_ready hw
  show (serviceIn (inWorld w)).val.vm.mem.bit p = _
  rw [serviceIn_frame hg hmid fun hreq =>
    ⟨fun hin => hp (.inStatus hreq hin), fun hin => hp (.delivered hreq hin.1 hin.2)⟩]
  exact serviceOut_frame hg hreset fun hreq hin => hp (.outStatus hreq hin)

include ha

/-- **One tick**: every bit it does not claim is kept. -/
theorem vmTick_bit {w : World} (hw : Ready g w) {p : Nat} (hp : ¬ TickWrites g w p) :
    (vmTick w).val.2.vm.mem.bit p = w.vm.mem.bit p := by
  have hserved := served_frame hg hw hp
  have hP := hw.served.processorN
  -- no fetched instruction claims the bit
  have hspares : (vmTick w).All (Event.Spares g p) := by
    intro e he
    cases e with
    | fetch slot ins => exact fun hcopy => hp (.copied slot ins he hcopy)
    | _ => trivial
  obtain ⟨r, t, htick, hshape⟩ := vmTick_shape hw.space
  rw [htick] at hspares ⊢
  cases hshape with
  | halt => exact hserved
  | ok _ hgood =>
      have hslots := beforeSlot_bit hg ha hw.served hP.le hgood
        fun e he => hspares e (List.mem_append_right _ he)
      show ((begun w).vm.beforeSlot _).mem.bit p = _
      rw [vm_begun, hslots, hserved]
  | @err j _ hfirst =>
      obtain ⟨⟨hj, -⟩, hleast⟩ := hfirst
      have hgood : ∀ i < j, ¬ BadSlot (served w).vm i := fun i hi hbad =>
        absurd (hleast ⟨hi.trans hj, hbad⟩) (not_le.mpr hi)
      rw [slotsTrace_succ, ← List.append_assoc] at hspares
      have hslots := beforeSlot_bit hg ha hw.served (by omega) hgood
        fun e he => hspares e (List.mem_append_left _ (List.mem_append_right _ he))
      show ((begun w).vm.beforeSlot j).mem.bit p = _
      rw [vm_begun, hslots, hserved]

end Tick

/-- **A tick writes only where it says it does**, whatever it returns: a bit it
changes is in the status of a channel that was requested, in the bytes delivered,
or in the destination of an instruction it has fetched; the layout stays. -/
theorem vmTick_writes {calloc : Nat → Bool} {S P : Nat} {vm : Vm}
    (h : Accepted calloc S P vm) (hlimit : CallocLimit calloc (2 ^ 53)) {w : World}
    (hw : Ready vm.toVmGeometry w) :
    (∀ p, (vmTick w).val.2.vm.mem.bit p ≠ w.vm.mem.bit p →
      TickWrites vm.toVmGeometry w p) ∧
    (vmTick w).val.2.vm.toVmGeometry = vm.toVmGeometry := by
  obtain ⟨hg, ha⟩ := addrBits_le_of_limit h hlimit
  constructor
  · intro p hp
    by_contra hnot
    apply hp
    exact vmTick_bit hg ha hw hnot
  · exact (vmTick_ready hw).geometry

/-- A halting machine whose two requests are misaligned and so rejected. -/
theorem vmTick_writes_small :
    (∀ p, (vmTick (bareWorld (smallVm.withMem fun _ => 0xFF))).val.2.vm.mem.bit p ≠
        (bareWorld (smallVm.withMem fun _ => 0xFF)).vm.mem.bit p →
      TickWrites smallGeometry (bareWorld (smallVm.withMem fun _ => 0xFF)) p) ∧
    (vmTick (bareWorld (smallVm.withMem fun _ => 0xFF))).val.2.vm.toVmGeometry =
      smallGeometry :=
  vmTick_writes smallVm_accepted (hostCalloc_limit.mono (by decide))
    (w := bareWorld (smallVm.withMem fun _ => 0xFF)) ⟨rfl, rfl⟩

end SpaceVerifier.Runtime
