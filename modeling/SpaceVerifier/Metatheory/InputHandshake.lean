import SpaceVerifier.Metatheory.TickFrame

/-!
# The IN handshake

The transfer may land on the status registers of its own channel. `GOT`,
`DONE` and `REQ` are written behind it and hold whatever was delivered; `EOF`
and `ERR` are cleared in front of it and behind it only ever raised, so there a
delivered 1 stays and reads as a status that was never reported.
-/

namespace SpaceVerifier.Runtime

open Foundation Foundation.Traced

/-! ## The law -/

section Law

variable (g : VmGeometry)

/-- `ferror` after the read of a request that is not empty. -/
def StreamError (w : World) : Prop :=
  inChannel.lenField g w.vm.mem ≠ 0 ∧
    (fread (inChannel.lenField g w.vm.mem / 8) w.inp).2.err = true

/-- A request that is not empty gets no byte because the input has ended. -/
def EndOfInput (w : World) : Prop :=
  inChannel.lenField g w.vm.mem ≠ 0 ∧ inBytes g w = [] ∧
    (fread (inChannel.lenField g w.vm.mem / 8) w.inp).2.eof = true

/-- The bytes delivered: none to a request out of order. -/
def delivered (w : World) : List Byte :=
  if inChannel.Valid g w.vm.mem then inBytes g w else []

/-- What the IN service makes of a requested world `w`. -/
structure InputLaw (w w' : World) : Prop where
  answer : inChannel.Answer g w'.vm.mem (delivered g w).length
    (¬ inChannel.Valid g w.vm.mem ∨ StreamError g w)
  eof : w'.vm.mem.bit g.mmio.inEof = true ↔ inChannel.Valid g w.vm.mem ∧ EndOfInput g w
  rejected : ¬ inChannel.Valid g w.vm.mem →
    w'.inp = w.inp ∧ ∀ p, p ∉ inRegs g → w'.vm.mem.bit p = w.vm.mem.bit p
  accepted : inChannel.Valid g w.vm.mem →
    w'.inp = (fread (inChannel.lenField g w.vm.mem / 8) w.inp).2 ∧
    ∀ p, p ∉ inRegs g → w'.vm.mem.bit p =
      if InDelivery g w p then deliveredBit g w p else w.vm.mem.bit p

/-- A byte delivered over register bit `p` raises it. -/
def Overwrites (w : World) (p : Nat) : Prop :=
  InDelivery g w p ∧ deliveredBit g w p = true

/-- No delivered byte raises `in_eof`, nor `in_err` without a stream error. -/
def StatusClean (w : World) : Prop :=
  inChannel.Valid g w.vm.mem →
    ¬ Overwrites g w g.mmio.inEof ∧ (Overwrites g w g.mmio.inErr → StreamError g w)

end Law

/-! ## The status registers behind the transfer -/

section

variable {g : VmGeometry} (hg : g.Wf)
include hg

theorem inEof_ne_inErr : g.mmio.inEof ≠ g.mmio.inErr := by
  simp only [hg.mmio_eq, mmioAt]
  omega

/-- The status bits that are cleared and only raised again. -/
theorem inCleared_status (m : Mem) :
    (inCleared g m).bit g.mmio.inEof = false ∧ (inCleared g m).bit g.mmio.inErr = false ∧
      uintAt (inCleared g m).bit g.mmio.inGot g.addrBits = 0 := by
  have heof : ¬ (g.mmio.inGot ≤ g.mmio.inEof ∧ g.mmio.inEof < g.mmio.inGot + g.addrBits) := by
    simp only [hg.mmio_eq, mmioAt]
    omega
  have herr : ¬ (g.mmio.inGot ≤ g.mmio.inErr ∧ g.mmio.inErr < g.mmio.inGot + g.addrBits) := by
    simp only [hg.mmio_eq, mmioAt]
    omega
  unfold inCleared
  refine ⟨?_, ?_, uintAt_writeField _ _ (Nat.two_pow_pos _)⟩
  · rw [Mem.bit_writeField_of_notMem _ heof]
    simp [inEof_ne_inErr hg]
  · rw [Mem.bit_writeField_of_notMem _ herr]
    simp

/-- `EOF` is no register of the answer. -/
theorem inEof_answer : g.mmio.inEof ≠ g.mmio.inReq ∧ g.mmio.inEof ≠ g.mmio.inDone ∧
    g.mmio.inEof ∉ Set.Ico g.mmio.inGot (g.mmio.inGot + g.addrBits) := by
  simp only [hg.mmio_eq, mmioAt, Set.mem_Ico]
  omega

omit hg in
/-- A status bit behind the transfer: cleared, or what was delivered there. -/
theorem delivered_status {w : World} (hok : inChannel.Accepts g w.vm.mem) {p : Nat}
    (hp : (inCleared g w.vm.mem).bit p = false) :
    (storeBytes (inCleared g w.vm.mem) (inChannel.addrField g w.vm.mem / 8)
      (inBytes g w)).bit p = true ↔ Overwrites g w p := by
  rw [bit_storeBytes_inBytes _ hok]
  by_cases hin : InDelivery g w p
  · rw [if_pos hin]
    constructor
    · intro h
      exact ⟨hin, h⟩
    · intro h
      exact h.2
  · rw [if_neg hin, hp]
    exact iff_of_false Bool.false_ne_true fun h => hin h.1

/-- **The defect**: a raised status is either reported or delivered. -/
theorem receivedMem_status {w : World} (hok : inChannel.Accepts g w.vm.mem) :
    ((receivedMem g (inCleared g w.vm.mem) (inChannel.addrField g w.vm.mem / 8)
        (inChannel.lenField g w.vm.mem / 8) w.inp).bit g.mmio.inEof = true ↔
      EndOfInput g w ∨ Overwrites g w g.mmio.inEof) ∧
    ((receivedMem g (inCleared g w.vm.mem) (inChannel.addrField g w.vm.mem / 8)
        (inChannel.lenField g w.vm.mem / 8) w.inp).bit g.mmio.inErr = true ↔
      StreamError g w ∨ Overwrites g w g.mmio.inErr) := by
  obtain ⟨heof, herr, -⟩ := inCleared_status hg w.vm.mem
  have hne := inEof_ne_inErr hg
  have hlen : inChannel.lenField g w.vm.mem / 8 ≠ 0 ↔ inChannel.lenField g w.vm.mem ≠ 0 := by
    have := hok.2.1
    omega
  unfold receivedMem
  constructor
  · rw [bit_raise_of_ne _ _ hne, bit_raise_self]
    refine or_congr ?_ (delivered_status hok heof)
    simp only [EndOfInput, inBytes, bne_iff_ne, hlen, Bool.and_eq_true, beq_iff_eq,
      List.length_eq_zero_iff]
  · rw [bit_raise_self, bit_raise_of_ne _ _ hne.symm]
    refine or_congr ?_ (delivered_status hok herr)
    simp only [StreamError, bne_iff_ne, hlen, Bool.and_eq_true]

section Request

variable {w : World} (hw : Ready g w) (hreq : w.vm.mem.bit g.mmio.inReq = true)
include hw hreq

/-- The law of a rejected request. -/
theorem inputLaw_rejected (hno : ¬ inChannel.Accepts g w.vm.mem)
    (hbad : ¬ inChannel.Valid g w.vm.mem) : InputLaw g w (serviceIn w).val := by
  obtain ⟨heof, herr, hgot⟩ := inCleared_status hg w.vm.mem
  obtain ⟨hne₁, hne₂, -⟩ := inEof_answer hg
  have hanswer := (inChannel_distinct hg).answer_reject hgot
  refine ⟨?_, ?_, fun _ => ⟨?_, ?_⟩, fun hok => absurd hok hbad⟩
  · rw [serviceIn_rejected hg hw hreq hno]
    exact
      { req := hanswer.req
        done := hanswer.done
        got := by
          rw [delivered, if_neg hbad]
          exact hanswer.got
        err := iff_of_true (hanswer.err.mpr trivial) (Or.inl hbad) }
  · rw [serviceIn_rejected hg hw hreq hno]
    show (inChannel.rejectMem g (inCleared g w.vm.mem)).bit g.mmio.inEof = true ↔ _
    rw [Channel.bit_rejectMem_of_ne hne₁ hne₂ (inEof_ne_inErr hg), heof]
    exact iff_of_false Bool.false_ne_true fun h => hbad h.1
  · rw [serviceIn_rejected hg hw hreq hno]
    rfl
  · intro p hp
    exact serviceIn_rejected_bit hg hw hreq hno hp

/-- What an accepted request leaves, the two raised status bits apart. -/
theorem serviceIn_accepted_answer (ha : g.addrBits ≤ 56)
    (hok : inChannel.Accepts g w.vm.mem) :
    inChannel.Answer g (serviceIn w).val.vm.mem (inBytes g w).length
      (StreamError g w ∨ Overwrites g w g.mmio.inErr) ∧
    ((serviceIn w).val.vm.mem.bit g.mmio.inEof = true ↔
      EndOfInput g w ∨ Overwrites g w g.mmio.inEof) := by
  obtain ⟨heof, herr⟩ := receivedMem_status hg hok
  obtain ⟨hne₁, hne₂, hne₃⟩ := inEof_answer hg
  -- the count fits its field because the request did
  have hcount : 8 * (inBytes g w).length < 2 ^ g.addrBits := by
    have hlen := fread_length_le (inChannel.lenField g w.vm.mem / 8) w.inp
    have hfield : inChannel.lenField g w.vm.mem < 2 ^ g.addrBits := uintAt_lt _ _ _
    unfold inBytes
    omega
  have hanswer := (inChannel_distinct hg).answer_complete
    (m := receivedMem g (inCleared g w.vm.mem) (inChannel.addrField g w.vm.mem / 8)
      (inChannel.lenField g w.vm.mem / 8) w.inp) (by omega) hcount
  rw [serviceIn_accepted hg hw hreq hok]
  constructor
  · exact
      { req := hanswer.req
        done := hanswer.done
        got := hanswer.got
        err := hanswer.err.trans herr }
  · rw [← heof]
    show (inChannel.completeMem g _ _).bit g.mmio.inEof = true ↔ _
    rw [Channel.bit_completeMem_of_ne hne₁ hne₂ hne₃]

/-- The law of an accepted request, when no status bit is delivered. -/
theorem inputLaw_accepted (ha : g.addrBits ≤ 56) (hok : inChannel.Accepts g w.vm.mem)
    (hvalid : inChannel.Valid g w.vm.mem) (hclean : StatusClean g w) :
    InputLaw g w (serviceIn w).val := by
  obtain ⟨hanswer, heof⟩ := serviceIn_accepted_answer hg hw hreq ha hok
  obtain ⟨hnoeof, hnoerr⟩ := hclean hvalid
  refine ⟨?_, ?_, fun hbad => absurd hvalid hbad, fun _ => ⟨?_, ?_⟩⟩
  · rw [delivered, if_pos hvalid]
    exact
      { req := hanswer.req
        done := hanswer.done
        got := hanswer.got
        err := by
          rw [hanswer.err]
          constructor
          · rintro (h | h)
            · exact Or.inr h
            · exact Or.inr (hnoerr h)
          · rintro (h | h)
            · exact absurd hvalid h
            · exact Or.inl h }
  · rw [heof]
    constructor
    · rintro (h | h)
      · exact ⟨hvalid, h⟩
      · exact absurd h hnoeof
    · exact fun h => Or.inl h.2
  · rw [serviceIn_accepted hg hw hreq hok, inDone_inp]
  · intro p hp
    exact serviceIn_accepted_bit hg hw hreq hok hp

end Request

omit hg in
/-- The end of the input delivers nothing, so nothing over `in_eof` either. -/
theorem EndOfInput.not_overwrites {w : World} (h : EndOfInput g w) (p : Nat) :
    ¬ Overwrites g w p := by
  rintro ⟨⟨hlo, hhi⟩, -⟩
  rw [h.2.1, List.length_nil] at hhi
  omega

end

/-- **Exactly when the IN handshake holds.** A requested service obeys the law
if and only if the bytes it delivers raise no status bit of the channel; a
channel without a request is left alone. -/
theorem serviceIn_law_iff {calloc : Nat → Bool} {S P : Nat} {vm : Vm}
    (h : Accepted calloc S P vm) (hlimit : CallocLimit calloc (2 ^ 53)) {w : World}
    (hw : Ready vm.toVmGeometry w) :
    (w.vm.mem.bit vm.mmio.inReq = true →
      (InputLaw vm.toVmGeometry w (serviceIn w).val ↔ StatusClean vm.toVmGeometry w)) ∧
    (w.vm.mem.bit vm.mmio.inReq = false → (serviceIn w).val = w) := by
  obtain ⟨hg, ha⟩ := addrBits_le_of_limit h hlimit
  have hiff : inChannel.Accepts vm.toVmGeometry w.vm.mem ↔
      inChannel.Valid vm.toVmGeometry w.vm.mem := Channel.accepts_iff_valid ha
  refine ⟨?_, fun hreq => serviceIn_idle (by rw [hw.geometry, hreq])⟩
  intro hreq
  by_cases hvalid : inChannel.Valid vm.toVmGeometry w.vm.mem
  · constructor
    · intro law _
      obtain ⟨hanswer, heof⟩ :=
        serviceIn_accepted_answer hg hw hreq ha (hiff.mpr hvalid)
      constructor
      · intro hover
        exact (law.eof.mp (heof.mpr (Or.inr hover))).2.not_overwrites _ hover
      · intro hover
        exact (law.answer.err.mp (hanswer.err.mpr (Or.inr hover))).resolve_left
          (not_not.mpr hvalid)
    · exact inputLaw_accepted hg hw hreq ha (hiff.mpr hvalid) hvalid
  · exact iff_of_true (inputLaw_rejected hg hw hreq (fun hok => hvalid (hiff.mp hok)) hvalid)
      fun hok => absurd hok hvalid

/-- A request for one byte at bit `dst` of the small machine, `b` being next in the
input. -/
def inputWorld (dst : Byte) (b : Byte) : World :=
  { bareWorld (smallVm.withMem fun i =>
      if i = 3 then 0x80 ||| (dst >>> 4) else if i = 4 then dst <<< 4
      else if i = 5 then 0x80 else 0) with
    inp := ⟨fun _ => .byte b, 0, false, false⟩ }

/-- One byte delivered to bit 64. -/
theorem serviceIn_law_iff_small :
    InputLaw smallGeometry (inputWorld 64 0xFF) (serviceIn (inputWorld 64 0xFF)).val :=
  ((serviceIn_law_iff smallVm_accepted (hostCalloc_limit.mono (by decide))
    (w := inputWorld 64 0xFF) ⟨rfl, rfl⟩).1 (by decide)).mpr fun _ =>
      ⟨fun h => absurd h.1 (by decide), fun h => absurd h.1 (by decide)⟩

/-- One byte delivered to bit 24, over the status bits: `ERR` reads 1, although
the request is in order and the stream reports no error. -/
theorem serviceIn_law_fails :
    (inputWorld 24 0x10).vm.mem.bit smallGeometry.mmio.inReq = true ∧
      ¬ InputLaw smallGeometry (inputWorld 24 0x10)
        (serviceIn (inputWorld 24 0x10)).val := by
  refine ⟨by decide, ?_⟩
  intro law
  rcases law.answer.err.mp (by decide) with hbad | ⟨-, herr⟩
  · exact hbad (by decide)
  · revert herr
    decide

end SpaceVerifier.Runtime
