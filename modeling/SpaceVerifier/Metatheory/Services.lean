import SpaceVerifier.Metatheory.TickSafety

/-!
# What one service does, exactly

Both channels answer a request in the same way: a rejected one with `ERR`, an
accepted one with the number of bits transferred, and in both cases `DONE` is
raised before `REQ` is cleared. The final memory of a service is written down
once for each outcome; the handshake laws are read off it bit by bit.
-/

namespace SpaceVerifier.Runtime

open Foundation Foundation.Traced

/-! ## Requests and answers -/

/-- Bit `p` raised if `c` holds. -/
def raise (m : Mem) (p : Nat) (c : Bool) : Mem := if c then m.setBit p true else m

theorem bit_raise (m : Mem) (p : Nat) (c : Bool) (q : Nat) :
    (raise m p c).bit q = if q = p ∧ c = true then true else m.bit q := by
  cases c <;> simp [raise]

theorem bit_raise_self (m : Mem) (p : Nat) (c : Bool) :
    (raise m p c).bit p = true ↔ c = true ∨ m.bit p = true := by
  cases c <;> simp [raise]

theorem bit_raise_of_ne (m : Mem) {p q : Nat} (c : Bool) (h : q ≠ p) :
    (raise m p c).bit q = m.bit q := by
  rw [bit_raise, if_neg fun hq => h hq.1]

namespace Channel

variable (ch : Channel) (g : VmGeometry)

/-- The address field of a request. -/
def addrField (m : Mem) : Nat := uintAt m.bit (ch.addr g.mmio) g.addrBits

/-- The length field of a request. -/
def lenField (m : Mem) : Nat := uintAt m.bit (ch.len g.mmio) g.addrBits

/-- The request passes both tests of the service. -/
def Accepts (m : Mem) : Prop :=
  ch.addrField g m % 8 = 0 ∧ ch.lenField g m % 8 = 0 ∧
    add64 (ch.addrField g m) (ch.lenField g m) ≤ g.spaceBits

instance (m : Mem) : Decidable (ch.Accepts g m) :=
  inferInstanceAs (Decidable (_ ∧ _ ∧ _))

/-- A request in order: aligned and inside the space, all sums being exact. -/
def Valid (m : Mem) : Prop :=
  ch.addrField g m % 8 = 0 ∧ ch.lenField g m % 8 = 0 ∧
    ch.addrField g m + ch.lenField g m ≤ g.spaceBits

instance (m : Mem) : Decidable (ch.Valid g m) :=
  inferInstanceAs (Decidable (_ ∧ _ ∧ _))

/-- The answer to a rejected request. -/
def rejectMem (m : Mem) : Mem :=
  ((m.setBit (ch.err g.mmio) true).setBit (ch.done g.mmio) true).setBit
    (ch.req g.mmio) false

/-- The answer to a completed request. -/
def completeMem (m : Mem) (count : Nat) : Mem :=
  ((m.writeField (ch.got g.mmio) g.addrBits (count * 8 % 2 ^ 64)).setBit
    (ch.done g.mmio) true).setBit (ch.req g.mmio) false

/-- The answer bits of a channel and its `GOT` field are separate. -/
structure Distinct : Prop where
  req_done : ch.req g.mmio ≠ ch.done g.mmio
  req_err : ch.req g.mmio ≠ ch.err g.mmio
  done_err : ch.done g.mmio ≠ ch.err g.mmio
  req_got : ch.req g.mmio ∉ Set.Ico (ch.got g.mmio) (ch.got g.mmio + g.addrBits)
  done_got : ch.done g.mmio ∉ Set.Ico (ch.got g.mmio) (ch.got g.mmio + g.addrBits)
  err_got : ch.err g.mmio ∉ Set.Ico (ch.got g.mmio) (ch.got g.mmio + g.addrBits)

/-- What the program finds in the answer registers of a channel. -/
structure Answer (m : Mem) (count : Nat) (failed : Prop) : Prop where
  req : m.bit (ch.req g.mmio) = false
  done : m.bit (ch.done g.mmio) = true
  got : uintAt m.bit (ch.got g.mmio) g.addrBits = 8 * count
  err : m.bit (ch.err g.mmio) = true ↔ failed

variable {ch g}

theorem accepts_iff_valid (ha : g.addrBits ≤ 56) {m : Mem} :
    ch.Accepts g m ↔ ch.Valid g m := by
  have hsum : add64 (ch.addrField g m) (ch.lenField g m) =
      ch.addrField g m + ch.lenField g m :=
    add64_fields ha (uintAt_lt _ _ _) (uintAt_lt _ _ _)
  unfold Accepts Valid
  rw [hsum]

theorem bit_rejectMem_of_ne {m : Mem} {p : Nat} (hreq : p ≠ ch.req g.mmio)
    (hdone : p ≠ ch.done g.mmio) (herr : p ≠ ch.err g.mmio) :
    (ch.rejectMem g m).bit p = m.bit p := by
  simp [rejectMem, hreq, hdone, herr]

theorem bit_completeMem_of_ne {m : Mem} {count p : Nat} (hreq : p ≠ ch.req g.mmio)
    (hdone : p ≠ ch.done g.mmio)
    (hgot : p ∉ Set.Ico (ch.got g.mmio) (ch.got g.mmio + g.addrBits)) :
    (ch.completeMem g m count).bit p = m.bit p := by
  simp only [completeMem, Mem.bit_setBit, if_neg hreq, if_neg hdone]
  exact Mem.bit_writeField_of_notMem _ hgot

/-- A field away from the bits that a set of bit updates reaches. -/
theorem uintAt_eq_of_field {m m' : Mem} {pos w : Nat}
    (h : ∀ p ∈ Set.Ico pos (pos + w), m.bit p = m'.bit p) :
    uintAt m.bit pos w = uintAt m'.bit pos w := by
  apply uintAt_congr
  intro i hi
  apply h
  rw [Set.mem_Ico]
  omega

theorem Distinct.ne_of_got {p : Nat} (hd : ch.Distinct g)
    (hp : p ∈ Set.Ico (ch.got g.mmio) (ch.got g.mmio + g.addrBits)) :
    p ≠ ch.req g.mmio ∧ p ≠ ch.done g.mmio ∧ p ≠ ch.err g.mmio := by
  refine ⟨?_, ?_, ?_⟩
  · rintro rfl
    exact hd.req_got hp
  · rintro rfl
    exact hd.done_got hp
  · rintro rfl
    exact hd.err_got hp

/-- A rejected request is answered with `ERR`, `GOT` stays cleared. -/
theorem Distinct.answer_reject (hd : ch.Distinct g) {m : Mem}
    (hgot : uintAt m.bit (ch.got g.mmio) g.addrBits = 0) :
    ch.Answer g (ch.rejectMem g m) 0 True := by
  refine ⟨?_, ?_, ?_, ?_⟩
  · simp [rejectMem]
  · simp [rejectMem, hd.req_done.symm]
  · rw [Nat.mul_zero, ← hgot]
    apply uintAt_eq_of_field
    intro p hp
    obtain ⟨hreq, hdone, herr⟩ := hd.ne_of_got hp
    exact bit_rejectMem_of_ne hreq hdone herr
  · simp [rejectMem, hd.req_err.symm, hd.done_err.symm]

/-- A completed request is answered with its count; `ERR` is what the transfer
has left there. -/
theorem Distinct.answer_complete (hd : ch.Distinct g) {m : Mem} {count : Nat}
    (ha : g.addrBits ≤ 64) (hcount : 8 * count < 2 ^ g.addrBits) :
    ch.Answer g (ch.completeMem g m count) count (m.bit (ch.err g.mmio) = true) := by
  have hpow : 2 ^ g.addrBits ≤ 2 ^ 64 := Nat.pow_le_pow_right (by decide) ha
  refine ⟨?_, ?_, ?_, ?_⟩
  · simp [completeMem]
  · simp [completeMem, hd.req_done.symm]
  · -- the field is narrower than the word that was written, but wide enough
    have hv : count * 8 % 2 ^ 64 = 8 * count := by omega
    rw [← uintAt_writeField m (ch.got g.mmio) hcount]
    apply uintAt_eq_of_field
    intro p hp
    obtain ⟨hreq, hdone, -⟩ := hd.ne_of_got hp
    simp only [completeMem, Mem.bit_setBit, if_neg hreq, if_neg hdone, hv]
  · rw [bit_completeMem_of_ne hd.req_err.symm hd.done_err.symm hd.err_got]

end Channel

theorem outChannel_distinct {g : VmGeometry} (hg : g.Wf) : outChannel.Distinct g := by
  have ha := hg.addrBits_ge
  constructor <;> (simp only [outChannel, hg.mmio_eq, mmioAt, Set.mem_Ico]; omega)

theorem inChannel_distinct {g : VmGeometry} (hg : g.Wf) : inChannel.Distinct g := by
  have ha := hg.addrBits_ge
  constructor <;> (simp only [inChannel, hg.mmio_eq, mmioAt, Set.mem_Ico]; omega)

/-! ## The steps of a service -/

theorem Ready.withMem {g : VmGeometry} {w : World} (h : Ready g w) (m : Mem) :
    Ready g (w.withVm (w.vm.withMem m)) := ⟨h.geometry, rfl⟩

theorem vmBitSetIf_val {vm : Vm} (hs : vm.space.isSome) (c : Bool)
    (reg : MmioLayout → Nat) :
    (vmBitSetIf c vm reg).val = vm.withMem (raise vm.mem (reg vm.mmio) c) := by
  cases c with
  | true => rfl
  | false => exact (Vm.withMem_mem hs).symm

section Steps

variable {g : VmGeometry} (hg : g.Wf) {ch : Channel} {R : Set Nat} (hch : ch.Fits g R)
include hg hch

theorem complete_val {w : World} (hw : Ready g w) (count : Nat) :
    (ch.complete w count).val = w.withVm (w.vm.withMem (ch.completeMem g w.vm.mem count)) := by
  have ha := hg.addrBits_ge
  have hle := hch.got.2
  have hbase := workspaceBase_le_two_pow hg
  unfold Channel.complete
  simp only [val_bind, val_pure]
  rw [hw.geometry, hg.nBits_eq, vmWriteUint_val hw.space _ (by omega) hg.addrBits_le (by omega)]
  simp only [vmBitSet_val, Vm.toVmGeometry_withMem, Vm.mem_withMem, Vm.withMem_withMem,
    hw.geometry]
  rfl

/-- Both tests of a service look at the memory the clearing has left. -/
theorem handle_val {transfer : World → Nat → Nat → Traced Event (World × Nat)}
    {w : World} {vm : Vm} (hvm : vm.toVmGeometry = g) :
    (ch.handle transfer w vm).val =
      if ch.Accepts g vm.mem then
        (ch.complete
          (transfer (w.withVm vm) (ch.addrField g vm.mem / 8)
            (ch.lenField g vm.mem / 8)).val.1
          (transfer (w.withVm vm) (ch.addrField g vm.mem / 8)
            (ch.lenField g vm.mem / 8)).val.2).val
      else w.withVm (vm.withMem (ch.rejectMem g vm.mem)) := by
  have hbase := workspaceBase_le_two_pow hg
  have haddr := hch.addr
  have hlen := hch.len
  have hreject : (ch.reject vm).val = vm.withMem (ch.rejectMem g vm.mem) := by
    rw [← hvm]
    rfl
  unfold Channel.handle
  simp only [val_bind, val_ite, val_pure]
  rw [hvm, hg.nBits_eq, vmReadUint_val vm hg.addrBits_le (by omega),
    vmReadUint_val vm hg.addrBits_le (by omega), hreject]
  change (if ch.addrField g vm.mem % 8 ≠ 0 ∨ ch.lenField g vm.mem % 8 ≠ 0 then _
    else if add64 (ch.addrField g vm.mem) (ch.lenField g vm.mem) > g.spaceBits then _
    else _) = _
  by_cases hacc : ch.Accepts g vm.mem
  · obtain ⟨haddr8, hlen8, hfit⟩ := id hacc
    rw [if_pos hacc, if_neg (by omega), if_neg (by omega)]
    rfl
  · rw [if_neg hacc]
    by_cases halign : ch.addrField g vm.mem % 8 ≠ 0 ∨ ch.lenField g vm.mem % 8 ≠ 0
    · rw [if_pos halign]
    · -- aligned, so it is the bounds test that has failed
      have hout : add64 (ch.addrField g vm.mem) (ch.lenField g vm.mem) > g.spaceBits := by
        by_contra hfit
        exact hacc ⟨by omega, by omega, not_lt.mp hfit⟩
      rw [if_neg halign, if_pos hout]

end Steps

/-! ## OUT -/

/-- The status bits cleared at the head of the OUT service. -/
def outCleared (g : VmGeometry) (m : Mem) : Mem :=
  ((m.setBit g.mmio.outDone false).setBit g.mmio.outErr false).writeField
    g.mmio.outGot g.addrBits 0

/-- The bytes an accepted OUT request asks to be written. -/
def outBytes (g : VmGeometry) (m : Mem) : List Byte :=
  bytesAt (outCleared g m) (outChannel.addrField g m / 8) (outChannel.lenField g m / 8)

/-- An empty request makes no call. -/
def sendBlock (bytes : List Byte) (f : OutFile) : Nat × OutFile :=
  if bytes.length = 0 then (0, f) else fwrite bytes f

/-- What an accepted OUT request leaves. -/
def outDone (g : VmGeometry) (w : World) : World :=
  { w with
    vm := w.vm.withMem (outChannel.completeMem g
      (raise (outCleared g w.vm.mem) g.mmio.outErr
        ((sendBlock (outBytes g w.vm.mem) w.out).1 != (outBytes g w.vm.mem).length))
      (sendBlock (outBytes g w.vm.mem) w.out).1)
    out := (sendBlock (outBytes g w.vm.mem) w.out).2 }

@[simp] theorem outDone_mem (g : VmGeometry) (w : World) :
    (outDone g w).vm.mem =
      outChannel.completeMem g
        (raise (outCleared g w.vm.mem) g.mmio.outErr
          ((sendBlock (outBytes g w.vm.mem) w.out).1 != (outBytes g w.vm.mem).length))
        (sendBlock (outBytes g w.vm.mem) w.out).1 := rfl

@[simp] theorem outDone_out (g : VmGeometry) (w : World) :
    (outDone g w).out = (sendBlock (outBytes g w.vm.mem) w.out).2 := rfl

@[simp] theorem outDone_inp (g : VmGeometry) (w : World) : (outDone g w).inp = w.inp := rfl

theorem sendBlock_le (bytes : List Byte) (f : OutFile) :
    (sendBlock bytes f).1 ≤ bytes.length := by
  unfold sendBlock
  split
  · exact Nat.zero_le _
  · exact Nat.min_le_left _ _

/-- The stream grows by the accepted prefix. -/
theorem sendBlock_sent (bytes : List Byte) (f : OutFile) :
    (sendBlock bytes f).2.sent = f.sent ++ bytes.take (sendBlock bytes f).1 := by
  unfold sendBlock
  split
  · simp
  · rfl

theorem transmit_val {w : World} (hs : w.vm.space.isSome) (start n : Nat) :
    (transmit w start n).val =
      ({ w with
          vm := w.vm.withMem (raise w.vm.mem w.vm.mmio.outErr
            ((sendBlock (bytesAt w.vm.mem start n) w.out).1 != n))
          out := (sendBlock (bytesAt w.vm.mem start n) w.out).2 },
        (sendBlock (bytesAt w.vm.mem start n) w.out).1) := by
  unfold transmit sendBlock
  rw [length_bytesAt]
  by_cases hn : n = 0
  · rw [if_neg (by omega), if_pos hn, hn]
    simp [raise, Vm.withMem_mem hs]
  · rw [if_pos hn, if_neg hn]
    simp only [val_bind, val_pure, vmBitSetIf_val hs]

theorem outCleared_bit_of_ne {g : VmGeometry} {m : Mem} {p : Nat}
    (hdone : p ≠ g.mmio.outDone) (herr : p ≠ g.mmio.outErr)
    (hgot : p ∉ Set.Ico g.mmio.outGot (g.mmio.outGot + g.addrBits)) :
    (outCleared g m).bit p = m.bit p := by
  unfold outCleared
  rw [Mem.bit_writeField_of_notMem _ hgot, Mem.bit_setBit, Mem.bit_setBit,
    if_neg herr, if_neg hdone]

section Out

variable {g : VmGeometry} (hg : g.Wf)
include hg

/-- Clearing the status leaves both fields of the request. -/
theorem outCleared_fields (m : Mem) :
    outChannel.addrField g (outCleared g m) = outChannel.addrField g m ∧
      outChannel.lenField g (outCleared g m) = outChannel.lenField g m := by
  constructor
  all_goals
    refine Channel.uintAt_eq_of_field fun p hp => outCleared_bit_of_ne ?_ ?_ ?_
    all_goals
      simp only [outChannel, hg.mmio_eq, mmioAt, Set.mem_Ico] at hp ⊢
      omega

theorem accepts_outCleared (m : Mem) :
    outChannel.Accepts g (outCleared g m) ↔ outChannel.Accepts g m := by
  obtain ⟨haddr, hlen⟩ := outCleared_fields hg m
  unfold Channel.Accepts
  rw [haddr, hlen]

/-- A requested service is `handle` on the cleared status. -/
theorem serviceOut_request {w : World} (hw : Ready g w)
    (hreq : w.vm.mem.bit g.mmio.outReq = true) :
    (serviceOut w).val =
      (outChannel.handle transmit w (w.vm.withMem (outCleared g w.vm.mem))).val := by
  have ha := hg.addrBits_ge
  have hgot := hg.within.outGot.2
  have hbase := workspaceBase_le_two_pow hg
  unfold serviceOut
  simp only [val_bind, val_ite, vmBitGet_val, vmBitSet_val, Vm.toVmGeometry_withMem,
    Vm.mem_withMem, Vm.withMem_withMem]
  rw [hw.geometry, hreq, hg.nBits_eq, vmWriteUint_val rfl _ (by omega) hg.addrBits_le (by omega)]
  rfl

theorem serviceOut_rejected {w : World} (hw : Ready g w)
    (hreq : w.vm.mem.bit g.mmio.outReq = true)
    (hno : ¬ outChannel.Accepts g w.vm.mem) :
    (serviceOut w).val =
      w.withVm (w.vm.withMem (outChannel.rejectMem g (outCleared g w.vm.mem))) := by
  have hgeo : (w.vm.withMem (outCleared g w.vm.mem)).toVmGeometry = g := hw.geometry
  rw [serviceOut_request hg hw hreq, handle_val hg (outChannel_fits hg) hgeo,
    Vm.mem_withMem, if_neg fun h => hno ((accepts_outCleared hg _).mp h)]
  rfl

theorem serviceOut_accepted {w : World} (hw : Ready g w)
    (hreq : w.vm.mem.bit g.mmio.outReq = true) (hok : outChannel.Accepts g w.vm.mem) :
    (serviceOut w).val = outDone g w := by
  obtain ⟨haddr, hlen⟩ := outCleared_fields hg w.vm.mem
  have hgeo : (w.vm.withMem (outCleared g w.vm.mem)).toVmGeometry = g := hw.geometry
  rw [serviceOut_request hg hw hreq, handle_val hg (outChannel_fits hg) hgeo,
    Vm.mem_withMem, if_pos ((accepts_outCleared hg _).mpr hok), haddr, hlen, transmit_val rfl,
    complete_val hg (outChannel_fits hg)]
  · unfold outDone outBytes
    rw [length_bytesAt, ← hw.geometry]
    rfl
  · exact ⟨hw.geometry, rfl⟩

/-- What the OUT service can do: nothing, reject, or accept. -/
theorem serviceOut_cases {w : World} (hw : Ready g w) :
    (w.vm.mem.bit g.mmio.outReq = false ∧ (serviceOut w).val = w) ∨
    (¬ outChannel.Accepts g w.vm.mem ∧ (serviceOut w).val =
      w.withVm (w.vm.withMem (outChannel.rejectMem g (outCleared g w.vm.mem)))) ∨
    (outChannel.Accepts g w.vm.mem ∧ (serviceOut w).val = outDone g w) := by
  cases hreq : w.vm.mem.bit g.mmio.outReq with
  | false =>
      left
      exact ⟨rfl, serviceOut_idle (by rw [hw.geometry, hreq])⟩
  | true =>
      right
      by_cases hok : outChannel.Accepts g w.vm.mem
      · exact Or.inr ⟨hok, serviceOut_accepted hg hw hreq hok⟩
      · exact Or.inl ⟨hok, serviceOut_rejected hg hw hreq hok⟩

/-- The OUT service reads nothing. -/
theorem serviceOut_inp {w : World} (hw : Ready g w) : (serviceOut w).val.inp = w.inp := by
  rcases serviceOut_cases hg hw with ⟨-, hval⟩ | ⟨-, hval⟩ | ⟨-, hval⟩
  · rw [hval]
  · rw [hval]
    rfl
  · rw [hval, outDone_inp]

/-- The OUT service withdraws its request, whatever became of it. -/
theorem serviceOut_outReq {w : World} (hw : Ready g w) :
    (serviceOut w).val.vm.mem.bit g.mmio.outReq = false := by
  rcases serviceOut_cases hg hw with ⟨hreq, hval⟩ | ⟨-, hval⟩ | ⟨-, hval⟩
  · rw [hval, hreq]
  · rw [hval]
    simp [World.withVm, Channel.rejectMem, outChannel]
  · rw [hval]
    simp [Channel.completeMem, outChannel]

end Out

/-! ## IN -/

/-- The status bits cleared at the head of the IN service. -/
def inCleared (g : VmGeometry) (m : Mem) : Mem :=
  (((m.setBit g.mmio.inDone false).setBit g.mmio.inEof false).setBit
    g.mmio.inErr false).writeField g.mmio.inGot g.addrBits 0

/-- What an attempt to read `n` bytes to byte `start` leaves in memory: the
bytes delivered, then the two flags. -/
def receivedMem (g : VmGeometry) (m : Mem) (start n : Nat) (f : InFile) : Mem :=
  raise
    (raise (storeBytes m start (fread n f).1) g.mmio.inEof
      (n != 0 && ((fread n f).1.length == 0 && (fread n f).2.eof)))
    g.mmio.inErr (n != 0 && (fread n f).2.err)

/-- What an accepted IN request leaves. -/
def inDone (g : VmGeometry) (w : World) : World :=
  { w with
    vm := w.vm.withMem (inChannel.completeMem g
      (receivedMem g (inCleared g w.vm.mem) (inChannel.addrField g w.vm.mem / 8)
        (inChannel.lenField g w.vm.mem / 8) w.inp)
      (fread (inChannel.lenField g w.vm.mem / 8) w.inp).1.length)
    inp := (fread (inChannel.lenField g w.vm.mem / 8) w.inp).2 }

@[simp] theorem inDone_mem (g : VmGeometry) (w : World) :
    (inDone g w).vm.mem =
      inChannel.completeMem g
        (receivedMem g (inCleared g w.vm.mem) (inChannel.addrField g w.vm.mem / 8)
          (inChannel.lenField g w.vm.mem / 8) w.inp)
        (fread (inChannel.lenField g w.vm.mem / 8) w.inp).1.length := rfl

@[simp] theorem inDone_inp (g : VmGeometry) (w : World) :
    (inDone g w).inp = (fread (inChannel.lenField g w.vm.mem / 8) w.inp).2 := rfl

@[simp] theorem inDone_out (g : VmGeometry) (w : World) : (inDone g w).out = w.out := rfl

theorem storeBytes_nil (m : Mem) (start : Nat) : storeBytes m start [] = m := by
  funext j
  unfold storeBytes
  rw [if_neg]
  rintro ⟨hle, hlt⟩
  simp only [List.length_nil, Nat.add_zero] at hlt
  omega

/-- Bit `p` after a store of whole bytes. -/
theorem bit_storeBytes (m : Mem) (start : Nat) (bs : List Byte) (p : Nat) :
    (storeBytes m start bs).bit p =
      if 8 * start ≤ p ∧ p < 8 * (start + bs.length) then
        (bs.getD (p / 8 - start) 0).getMsbD (p % 8)
      else m.bit p := by
  unfold Mem.bit storeBytes
  by_cases hp : 8 * start ≤ p ∧ p < 8 * (start + bs.length)
  · rw [if_pos (by omega), if_pos hp]
  · rw [if_neg (by omega), if_neg hp]

theorem fread_length_le (n : Nat) (f : InFile) : (fread n f).1.length ≤ n := by
  induction n generalizing f with
  | zero => exact le_rfl
  | succ n ih =>
      rw [fread]
      split
      · next b f' _ =>
          have hrest := ih f'
          simp only [List.length_cons]
          omega
      · exact Nat.zero_le _

theorem receive_val {w : World} (hs : w.vm.space.isSome) (start n : Nat) :
    (receive w start n).val =
      ({ w with
          vm := w.vm.withMem (receivedMem w.vm.toVmGeometry w.vm.mem start n w.inp)
          inp := (fread n w.inp).2 }, (fread n w.inp).1.length) := by
  unfold receive receivedMem
  by_cases hn : n = 0
  · subst hn
    simp [fread, raise, storeBytes_nil, Vm.withMem_mem hs]
  · have hb : (n != 0) = true := by simpa using hn
    rw [if_pos hn, hb]
    simp only [val_bind, val_pure, Bool.true_and]
    have hstore : (w.vm.withMem
        (storeBytes w.vm.mem start (fread n w.inp).1)).space.isSome := rfl
    rw [vmBitSetIf_val hstore, vmBitSetIf_val rfl]
    rfl

section In

variable {g : VmGeometry} (hg : g.Wf)
include hg

/-- Clearing the status leaves both fields of the request. -/
theorem inCleared_fields (m : Mem) :
    inChannel.addrField g (inCleared g m) = inChannel.addrField g m ∧
      inChannel.lenField g (inCleared g m) = inChannel.lenField g m := by
  constructor
  all_goals
    apply Channel.uintAt_eq_of_field
    intro p hp
    simp only [inChannel, hg.mmio_eq, mmioAt, Set.mem_Ico] at hp
    unfold inCleared
    rw [Mem.bit_writeField_of_notMem _ (by simp only [hg.mmio_eq, mmioAt]; omega)]
    simp only [Mem.bit_setBit, hg.mmio_eq, mmioAt]
    rw [if_neg (by omega), if_neg (by omega), if_neg (by omega)]

theorem accepts_inCleared (m : Mem) :
    inChannel.Accepts g (inCleared g m) ↔ inChannel.Accepts g m := by
  obtain ⟨haddr, hlen⟩ := inCleared_fields hg m
  unfold Channel.Accepts
  rw [haddr, hlen]

theorem serviceIn_request {w : World} (hw : Ready g w)
    (hreq : w.vm.mem.bit g.mmio.inReq = true) :
    (serviceIn w).val =
      (inChannel.handle receive w (w.vm.withMem (inCleared g w.vm.mem))).val := by
  have ha := hg.addrBits_ge
  have hgot := hg.within.inGot.2
  have hbase := workspaceBase_le_two_pow hg
  unfold serviceIn
  simp only [val_bind, val_ite, vmBitGet_val, vmBitSet_val, Vm.toVmGeometry_withMem,
    Vm.mem_withMem, Vm.withMem_withMem]
  rw [hw.geometry, hreq, hg.nBits_eq, vmWriteUint_val rfl _ (by omega) hg.addrBits_le (by omega)]
  rfl

theorem serviceIn_rejected {w : World} (hw : Ready g w)
    (hreq : w.vm.mem.bit g.mmio.inReq = true)
    (hno : ¬ inChannel.Accepts g w.vm.mem) :
    (serviceIn w).val =
      w.withVm (w.vm.withMem (inChannel.rejectMem g (inCleared g w.vm.mem))) := by
  have hgeo : (w.vm.withMem (inCleared g w.vm.mem)).toVmGeometry = g := hw.geometry
  rw [serviceIn_request hg hw hreq, handle_val hg (inChannel_fits hg) hgeo,
    Vm.mem_withMem, if_neg fun h => hno ((accepts_inCleared hg _).mp h)]
  rfl

theorem serviceIn_accepted {w : World} (hw : Ready g w)
    (hreq : w.vm.mem.bit g.mmio.inReq = true) (hok : inChannel.Accepts g w.vm.mem) :
    (serviceIn w).val = inDone g w := by
  obtain ⟨haddr, hlen⟩ := inCleared_fields hg w.vm.mem
  have hgeo : (w.vm.withMem (inCleared g w.vm.mem)).toVmGeometry = g := hw.geometry
  rw [serviceIn_request hg hw hreq, handle_val hg (inChannel_fits hg) hgeo,
    Vm.mem_withMem, if_pos ((accepts_inCleared hg _).mpr hok), haddr, hlen, receive_val rfl,
    complete_val hg (inChannel_fits hg)]
  · unfold inDone
    rw [← hw.geometry]
    rfl
  · exact ⟨hw.geometry, rfl⟩

/-- What the IN service can do: nothing, reject, or accept. -/
theorem serviceIn_cases {w : World} (hw : Ready g w) :
    (w.vm.mem.bit g.mmio.inReq = false ∧ (serviceIn w).val = w) ∨
    (¬ inChannel.Accepts g w.vm.mem ∧ (serviceIn w).val =
      w.withVm (w.vm.withMem (inChannel.rejectMem g (inCleared g w.vm.mem)))) ∨
    (inChannel.Accepts g w.vm.mem ∧ (serviceIn w).val = inDone g w) := by
  cases hreq : w.vm.mem.bit g.mmio.inReq with
  | false =>
      left
      exact ⟨rfl, serviceIn_idle (by rw [hw.geometry, hreq])⟩
  | true =>
      right
      by_cases hok : inChannel.Accepts g w.vm.mem
      · exact Or.inr ⟨hok, serviceIn_accepted hg hw hreq hok⟩
      · exact Or.inl ⟨hok, serviceIn_rejected hg hw hreq hok⟩

/-- No request is left after the service, whatever was transferred. -/
theorem serviceIn_inReq {w : World} (hw : Ready g w) :
    (serviceIn w).val.vm.mem.bit g.mmio.inReq = false := by
  rcases serviceIn_cases hg hw with ⟨hreq, hval⟩ | ⟨-, hval⟩ | ⟨-, hval⟩
  · rw [hval, hreq]
  · rw [hval]
    simp [World.withVm, Channel.rejectMem, inChannel]
  · rw [hval]
    simp [Channel.completeMem, inChannel]

/-- The IN service writes nothing to the output. -/
theorem serviceIn_out {w : World} (hw : Ready g w) : (serviceIn w).val.out = w.out := by
  rcases serviceIn_cases hg hw with ⟨-, hval⟩ | ⟨-, hval⟩ | ⟨-, hval⟩
  · rw [hval]
  · rw [hval]
    rfl
  · rw [hval, inDone_out]

end In

end SpaceVerifier.Runtime
