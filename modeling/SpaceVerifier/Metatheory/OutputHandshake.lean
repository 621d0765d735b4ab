import SpaceVerifier.Metatheory.TickFrame

/-!
# The OUT handshake along a run

The OUT service is the only writer of the output stream and runs first in a
tick, so what a tick emits depends on the memory it starts with alone. One tick
appends one block, possibly an empty one; a run appends the blocks of its ticks
in order.
-/

namespace SpaceVerifier.Runtime

open Foundation Foundation.Traced

/-! ## The law of one service -/

section Law

variable (g : VmGeometry)

/-- How many bytes the stream accepts from the request of `w`. -/
def acceptedCount (w : World) : Nat :=
  if outChannel.Valid g w.vm.mem then (sendBlock (outBytes g w.vm.mem) w.out).1 else 0

/-- The block of one tick: the accepted prefix of the requested bytes. -/
def outBlock (w : World) : List Byte :=
  if w.vm.mem.bit g.mmio.outReq = true ∧ outChannel.Valid g w.vm.mem then
    (outBytes g w.vm.mem).take (acceptedCount g w)
  else []

/-- A request in order that the stream has not taken completely. -/
def WrittenShort (w : World) : Prop :=
  outChannel.Valid g w.vm.mem ∧ acceptedCount g w < (outBytes g w.vm.mem).length

/-- What the OUT service makes of a requested world `w`. -/
structure OutputLaw (w w' : World) : Prop where
  answer : outChannel.Answer g w'.vm.mem (acceptedCount g w)
    (¬ outChannel.Valid g w.vm.mem ∨ WrittenShort g w)
  frame : ∀ p, p ∉ outRegs g → w'.vm.mem.bit p = w.vm.mem.bit p
  sent : w'.out.sent = w.out.sent ++ outBlock g w

end Law

@[simp] theorem World.out_note (w : World) (c : Bool) (e : HookEvent) :
    (w.note c e).out = w.out := by
  unfold World.note
  split <;> rfl

section Service

variable {g : VmGeometry} (hg : g.Wf)
include hg

/-- The status bits that are cleared at the head of the service. -/
theorem outCleared_status (m : Mem) : (outCleared g m).bit g.mmio.outErr = false ∧
    uintAt (outCleared g m).bit g.mmio.outGot g.addrBits = 0 := by
  have herr : ¬ (g.mmio.outGot ≤ g.mmio.outErr ∧
      g.mmio.outErr < g.mmio.outGot + g.addrBits) := by
    simp only [hg.mmio_eq, mmioAt]
    omega
  unfold outCleared
  refine ⟨?_, uintAt_writeField _ _ (Nat.two_pow_pos _)⟩
  rw [Mem.bit_writeField_of_notMem _ herr]
  simp

omit hg in
/-- The number of bits sent fits the `GOT` field, because the request did. -/
theorem acceptedCount_lt (w : World) : 8 * acceptedCount g w < 2 ^ g.addrBits := by
  unfold acceptedCount
  split
  · have hle := sendBlock_le (outBytes g w.vm.mem) w.out
    have hfield : outChannel.lenField g w.vm.mem < 2 ^ g.addrBits := uintAt_lt _ _ _
    have hlength : (outBytes g w.vm.mem).length = outChannel.lenField g w.vm.mem / 8 :=
      length_bytesAt _ _ _
    omega
  · exact Nat.two_pow_pos _

/-- **One service** of a requested channel obeys the law. -/
theorem serviceOut_law (ha : g.addrBits ≤ 56) {w : World} (hw : Ready g w)
    (hreq : w.vm.mem.bit g.mmio.outReq = true) : OutputLaw g w (serviceOut w).val := by
  obtain ⟨herr, hgot⟩ := outCleared_status hg w.vm.mem
  have hiff : outChannel.Accepts g w.vm.mem ↔ outChannel.Valid g w.vm.mem :=
    Channel.accepts_iff_valid ha
  have hframe : ∀ p, p ∉ outRegs g → (serviceOut w).val.vm.mem.bit p = w.vm.mem.bit p :=
    fun p hp => serviceOut_frame hg hw fun _ => hp
  by_cases hvalid : outChannel.Valid g w.vm.mem
  · have hcount : acceptedCount g w = (sendBlock (outBytes g w.vm.mem) w.out).1 :=
      if_pos hvalid
    have hle := sendBlock_le (outBytes g w.vm.mem) w.out
    have hanswer := (outChannel_distinct hg).answer_complete
      (m := raise (outCleared g w.vm.mem) g.mmio.outErr
        ((sendBlock (outBytes g w.vm.mem) w.out).1 != (outBytes g w.vm.mem).length))
      (by omega) (acceptedCount_lt w)
    have hval := serviceOut_accepted hg hw hreq (hiff.mpr hvalid)
    rw [← hcount] at hanswer hle
    -- `ERR` was cleared, so behind the transfer it says whether all was taken
    have hshort : (raise (outCleared g w.vm.mem) g.mmio.outErr
        (acceptedCount g w != (outBytes g w.vm.mem).length)).bit g.mmio.outErr = true ↔
        ¬ outChannel.Valid g w.vm.mem ∨ WrittenShort g w := by
      rw [bit_raise_self, herr]
      simp only [bne_iff_ne, ne_eq, Bool.false_eq_true, or_false, WrittenShort, hvalid,
        not_true_eq_false, true_and, false_or]
      omega
    refine ⟨?_, hframe, ?_⟩
    · rw [hval, outDone_mem, ← hcount]
      exact
        { req := hanswer.req
          done := hanswer.done
          got := hanswer.got
          err := hanswer.err.trans hshort }
    · rw [hval, outDone_out, outBlock, if_pos ⟨hreq, hvalid⟩, hcount]
      exact sendBlock_sent _ _
  · have hanswer := (outChannel_distinct hg).answer_reject hgot
    have hval := serviceOut_rejected hg hw hreq fun hok => hvalid (hiff.mp hok)
    refine ⟨?_, hframe, ?_⟩
    · rw [hval, acceptedCount, if_neg hvalid]
      exact
        { req := hanswer.req
          done := hanswer.done
          got := hanswer.got
          err := iff_of_true (hanswer.err.mpr trivial) (Or.inl hvalid) }
    · rw [hval, outBlock, if_neg fun h => hvalid h.2, List.append_nil]
      rfl

/-- The OUT service of a tick appends its block. -/
theorem inWorld_sent (ha : g.addrBits ≤ 56) {w : World} (hw : Ready g w) :
    (inWorld w).out.sent = w.out.sent ++ outBlock g w := by
  have hreset := hw.reset
  cases hreq : w.vm.mem.bit g.mmio.outReq with
  | true => exact (serviceOut_law hg ha hreset hreq).sent
  | false =>
      have hidle : inWorld w = w.withVm w.vm.resetErr := by
        apply serviceOut_idle
        show w.vm.mem.bit w.vm.mmio.outReq = false
        rw [hw.geometry, hreq]
      rw [hidle, outBlock, if_neg fun h => by rw [hreq] at h; exact Bool.false_ne_true h.1,
        List.append_nil]
      rfl

/-! ## Runs -/

/-- A tick emits what its OUT service emits: no slot reaches the stream. -/
theorem vmTick_out {w : World} (hw : Ready g w) : (vmTick w).val.2.out = (inWorld w).out := by
  have hserved : (served w).out = (inWorld w).out := serviceIn_out hg (inWorld_ready hw)
  have hbegun : (begun w).out = (inWorld w).out := by
    rw [begun, World.out_note, hserved]
  obtain ⟨r, t, htick, hshape⟩ := vmTick_shape hw.space
  rw [htick]
  cases hshape with
  | halt => exact hserved
  | ok =>
      show (World.note _ _ _).out = _
      rw [World.out_note]
      exact hbegun
  | err => exact hbegun

/-- **A run emits the blocks of its ticks**, in order, and nothing else. -/
theorem ticks_sent (ha : g.addrBits ≤ 56) {w : World} (hw : Ready g w) (k : Nat) :
    (ticks k w).val.out.sent =
      w.out.sent ++ (List.range k).flatMap fun i => outBlock g (ticks i w).val := by
  induction k generalizing w with
  | zero => simp [ticks]
  | succ k ih =>
      have hrest := ih (vmTick_ready hw)
      -- the first tick in front, the others from the world it leaves
      rw [vmTick_out hg hw, inWorld_sent hg ha hw] at hrest
      rw [List.range_succ_eq_map, List.flatMap_cons, List.flatMap_map, ← List.append_assoc]
      exact hrest

end Service

/-- **The OUT handshake over runs.** Any number of ticks appends one block for
each tick that starts with a request in order, and every requested service obeys
the law; a tick that starts without a request emits nothing. -/
theorem ticks_output {calloc : Nat → Bool} {S P : Nat} {vm : Vm}
    (h : Accepted calloc S P vm) (hlimit : CallocLimit calloc (2 ^ 53)) {w : World}
    (hw : Ready vm.toVmGeometry w) (k : Nat) :
    (ticks k w).val.out.sent =
      w.out.sent ++ (List.range k).flatMap
        (fun i => outBlock vm.toVmGeometry (ticks i w).val) ∧
    ((ticks k w).val.vm.mem.bit vm.mmio.outReq = true →
      OutputLaw vm.toVmGeometry (ticks k w).val (inWorld (ticks k w).val)) ∧
    ((ticks k w).val.vm.mem.bit vm.mmio.outReq = false →
      (vmTick (ticks k w).val).val.2.out = (ticks k w).val.out) := by
  obtain ⟨hg, ha⟩ := addrBits_le_of_limit h hlimit
  have hready := ticks_ready hw k
  refine ⟨ticks_sent hg ha hw k, ?_, ?_⟩
  · intro hreq
    have hlaw := serviceOut_law hg ha hready.reset hreq
    exact ⟨hlaw.answer, hlaw.frame, hlaw.sent⟩
  · intro hreq
    rw [vmTick_out hg hready]
    show (serviceOut _).val.out = _
    rw [serviceOut_idle]
    · rfl
    · show (ticks k w).val.vm.mem.bit (ticks k w).val.vm.mmio.outReq = false
      rw [hready.geometry, hreq]

/-- A request for the two bytes at bit 80 of the small machine. -/
def outputWorld : World :=
  { bareWorld (smallVm.withMem fun i =>
      if i = 6 then 0x08 else if i = 7 then 0xA0 else if i = 8 then 0x20
      else if i = 10 then 0x4F else if i = 11 then 0x4B else 0) with
    out := ⟨fun _ => 64, 0, []⟩ }

/-- The two bytes are emitted once, in the first of three ticks. -/
theorem ticks_output_small : (ticks 3 outputWorld).val.out.sent = [0x4F, 0x4B] :=
  (ticks_output smallVm_accepted (hostCalloc_limit.mono (by decide))
    (w := outputWorld) ⟨rfl, rfl⟩ 3).1.trans (by decide)

end SpaceVerifier.Runtime
