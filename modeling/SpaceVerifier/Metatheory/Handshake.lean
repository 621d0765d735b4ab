import SpaceVerifier.Metatheory.Codec
import SpaceVerifier.Runtime.Tick

/-!
# The MMIO handshake: what it may write and access

`Touches` is the frame relation between machines: the same machine except for
memory bits in a given set. Every routine of the device gets one statement that
bounds both its effect and its accesses, composed call by call.
-/

namespace SpaceVerifier.Runtime

open Foundation Foundation.Traced

/-! ## The frame relation -/

/-- `vm'` is `vm` up to the bits in `R`. -/
def Touches (R : Set Nat) (vm vm' : Vm) : Prop :=
  ∃ m', vm' = vm.withMem m' ∧ ∀ p, p ∉ R → m'.bit p = vm.mem.bit p

namespace Touches

variable {R R' : Set Nat} {a b c : Vm}

theorem refl (R : Set Nat) (hs : a.space.isSome) : Touches R a a :=
  ⟨a.mem, (Vm.withMem_mem hs).symm, fun _ _ => rfl⟩

theorem trans (hab : Touches R a b) (hbc : Touches R b c) : Touches R a c := by
  obtain ⟨m, rfl, hm⟩ := hab
  obtain ⟨m', rfl, hm'⟩ := hbc
  exact ⟨m', rfl, fun p hp => (hm' p hp).trans (hm p hp)⟩

theorem mono (hab : Touches R a b) (hR : R ⊆ R') : Touches R' a b := by
  obtain ⟨m, rfl, hm⟩ := hab
  exact ⟨m, rfl, fun p hp => hm p fun hin => hp (hR hin)⟩

theorem geometry (hab : Touches R a b) : b.toVmGeometry = a.toVmGeometry := by
  obtain ⟨m, rfl, -⟩ := hab
  rfl

theorem hooks (hab : Touches R a b) : b.hooks = a.hooks := by
  obtain ⟨m, rfl, -⟩ := hab
  rfl

theorem tickCounter (hab : Touches R a b) : b.tickCounter = a.tickCounter := by
  obtain ⟨m, rfl, -⟩ := hab
  rfl

theorem lastErr (hab : Touches R a b) : b.lastErr = a.lastErr := by
  obtain ⟨m, rfl, -⟩ := hab
  rfl

theorem space (hab : Touches R a b) : b.space.isSome := by
  obtain ⟨m, rfl, -⟩ := hab
  rfl

theorem bit_eq (hab : Touches R a b) {p : Nat} (hp : p ∉ R) :
    b.mem.bit p = a.mem.bit p := by
  obtain ⟨m, rfl, hm⟩ := hab
  exact hm p hp

end Touches

/-- `x`, run on `vm`, only touches `R` and only makes accesses in `P`. -/
structure Writes (R : Set Nat) (P : Event → Prop) (vm : Vm) (x : Traced Event Vm) :
    Prop where
  touches : Touches R vm x.val
  events : x.All P

namespace Writes

variable {R : Set Nat} {P : Event → Prop} {vm : Vm}

theorem pure (hs : vm.space.isSome) : Writes R P vm (Pure.pure vm) :=
  ⟨Touches.refl R hs, all_pure vm⟩

theorem bind {x : Traced Event Vm} {f : Vm → Traced Event Vm} (hx : Writes R P vm x)
    (hf : ∀ vm', Touches R vm vm' → Writes R P vm' (f vm')) :
    Writes R P vm (x >>= f) := by
  have hrest := hf x.val hx.touches
  exact ⟨hx.touches.trans hrest.touches, hx.events.bind hrest.events⟩

theorem mono {R' : Set Nat} {P' : Event → Prop} {x : Traced Event Vm}
    (hx : Writes R P vm x) (hR : R ⊆ R') (hP : ∀ e, P e → P' e) :
    Writes R' P' vm x :=
  ⟨hx.touches.mono hR, hx.events.mono hP⟩

end Writes

theorem vmBitSet_writes {R : Set Nat} {vm : Vm} {pos limit : Nat} (v : Bool)
    (hpos : pos ∈ R) (hlimit : pos < limit) :
    Writes R (Event.Control limit) vm (vmBitSet vm pos v) := by
  refine ⟨⟨_, vmBitSet_val vm pos v, fun p hp => ?_⟩, vmBitSet_control hlimit⟩
  rw [Mem.bit_setBit, if_neg]
  rintro rfl
  exact hp hpos

theorem vmWriteUint_writes {R : Set Nat} {vm : Vm} (hs : vm.space.isSome)
    {pos w v limit : Nat} (hw0 : 0 < w) (hw : w ≤ 64) (hR : Set.Ico pos (pos + w) ⊆ R)
    (hpos : pos + w ≤ limit) (hlimit : limit ≤ 2 ^ 64) :
    Writes R (Event.Control limit) vm (vmWriteUint vm pos w v) := by
  refine ⟨⟨_, vmWriteUint_val hs v hw0 hw (by omega), fun p hp => ?_⟩,
    vmWriteUint_control hpos hlimit⟩
  refine Mem.bit_writeField_of_notMem _ fun hin => hp (hR ?_)
  exact Set.mem_Ico.mpr hin

/-! ## The accesses of the device -/

/-- A transfer that has passed the bound test of `service_in` or `service_out`:
both fields fit their width and the sum, as computed, is inside the space. -/
def Event.Dma (g : VmGeometry) : Event → Prop
  | .fread start n => 8 * start < 2 ^ g.addrBits ∧ 8 * n < 2 ^ g.addrBits ∧
      add64 (8 * start) (8 * n) ≤ g.spaceBits
  | .fwrite start n => 8 * start < 2 ^ g.addrBits ∧ 8 * n < 2 ^ g.addrBits ∧
      add64 (8 * start) (8 * n) ≤ g.spaceBits
  | _ => False

/-- An access of the device: a register, or a transfer. -/
def Event.Device (g : VmGeometry) (e : Event) : Prop :=
  e.Control g.workspaceBase ∨ e.Dma g

/-- The registers the OUT service writes. -/
def outRegs (g : VmGeometry) : Set Nat :=
  {p | p = g.mmio.outReq ∨ p = g.mmio.outDone ∨ p = g.mmio.outErr ∨
    p ∈ Set.Ico g.mmio.outGot (g.mmio.outGot + g.addrBits)}

/-- What a service leaves alone: the hook log, the diagnostics, the machine up
to `R`. -/
structure Serves (R : Set Nat) (w w' : World) : Prop where
  vm : Touches R w.vm w'.vm
  hookLog : w'.hookLog = w.hookLog
  stderr : w'.stderr = w.stderr

theorem Serves.refl {w : World} (R : Set Nat) (hs : w.vm.space.isSome) :
    Serves R w w :=
  ⟨Touches.refl R hs, rfl, rfl⟩

theorem Serves.trans {R : Set Nat} {a b c : World} (hab : Serves R a b)
    (hbc : Serves R b c) : Serves R a c :=
  ⟨hab.vm.trans hbc.vm, hbc.hookLog.trans hab.hookLog, hbc.stderr.trans hab.stderr⟩

/-- `x`, run for `w`, serves it within `R` and only makes device accesses. -/
structure Serving (R : Set Nat) (g : VmGeometry) (w : World) (x : Traced Event World) :
    Prop where
  serves : Serves R w x.val
  events : x.All (Event.Device g)

namespace Serving

variable {R : Set Nat} {g : VmGeometry} {w : World}

theorem done {vm : Vm} (h : Touches R w.vm vm) :
    Serving R g w (pure (w.withVm vm)) :=
  ⟨⟨h, rfl, rfl⟩, all_pure _⟩

theorem bindRead {α : Type} {x : Traced Event α} {f : α → Traced Event World}
    (hx : x.All (Event.Device g)) (hf : Serving R g w (f x.val)) :
    Serving R g w (x >>= f) :=
  ⟨hf.serves, hx.bind hf.events⟩

theorem bindVm {vm : Vm} {x : Traced Event Vm} {f : Vm → Traced Event World}
    (hvm : Touches R w.vm vm) (hx : Writes R (Event.Device g) vm x)
    (hf : ∀ vm', Touches R w.vm vm' → Serving R g w (f vm')) :
    Serving R g w (x >>= f) :=
  bindRead hx.events (hf x.val (hvm.trans hx.touches))

end Serving

/-! ## Single register accesses -/

theorem bitSet_device {g : VmGeometry} {R : Set Nat} {vm : Vm} (v : Bool) {pos : Nat}
    (hpos : pos ∈ R) (hlt : pos < g.workspaceBase) :
    Writes R (Event.Device g) vm (vmBitSet vm pos v) :=
  (vmBitSet_writes v hpos hlt).mono subset_rfl fun _ => Or.inl

theorem bitSetIf_device {g : VmGeometry} {R : Set Nat} {vm : Vm} (c : Bool)
    (hvm : vm.toVmGeometry = g) (hs : vm.space.isSome) (reg : MmioLayout → Nat)
    (hreg : reg g.mmio ∈ R) (hlt : reg g.mmio < g.workspaceBase) :
    Writes R (Event.Device g) vm (vmBitSetIf c vm reg) := by
  unfold vmBitSetIf
  split
  · rw [hvm]
    exact bitSet_device true hreg hlt
  · exact Writes.pure hs

section Service

variable {g : VmGeometry} (hg : g.Wf) {R : Set Nat}
include hg

theorem workspaceBase_le_two_pow : g.workspaceBase ≤ 2 ^ 64 := by
  have hle := hg.workspaceBase_le
  have hbits := hg.spaceBits_le
  omega

theorem writeUint_device {vm : Vm} (hs : vm.space.isSome) {pos v : Nat}
    (hR : Set.Ico pos (pos + g.addrBits) ⊆ R)
    (hle : pos + g.addrBits ≤ g.workspaceBase) :
    Writes R (Event.Device g) vm (vmWriteUint vm pos g.addrBits v) :=
  (vmWriteUint_writes hs (by have := hg.addrBits_ge; omega) hg.addrBits_le hR hle
    (workspaceBase_le_two_pow hg)).mono subset_rfl fun _ => Or.inl

theorem readUint_device (vm : Vm) {pos : Nat}
    (hle : pos + g.addrBits ≤ g.workspaceBase) :
    (vmReadUint vm pos g.addrBits).All (Event.Device g) :=
  (vmReadUint_control hle (workspaceBase_le_two_pow hg)).mono fun _ => Or.inl

theorem readUint_lt (vm : Vm) {pos : Nat}
    (hle : pos + g.addrBits ≤ g.workspaceBase) :
    (vmReadUint vm pos g.addrBits).val < 2 ^ g.addrBits := by
  have hlimit := workspaceBase_le_two_pow hg
  rw [vmReadUint_val vm hg.addrBits_le (by omega)]
  exact uintAt_lt _ _ _

end Service

/-! ## One channel -/

/-- The registers a channel writes are in `R` and below the workspace. -/
structure Channel.Fits (ch : Channel) (g : VmGeometry) (R : Set Nat) : Prop where
  req : ch.req g.mmio ∈ R ∧ ch.req g.mmio < g.workspaceBase
  done : ch.done g.mmio ∈ R ∧ ch.done g.mmio < g.workspaceBase
  err : ch.err g.mmio ∈ R ∧ ch.err g.mmio < g.workspaceBase
  got : Set.Ico (ch.got g.mmio) (ch.got g.mmio + g.addrBits) ⊆ R ∧
    ch.got g.mmio + g.addrBits ≤ g.workspaceBase
  addr : ch.addr g.mmio + g.addrBits ≤ g.workspaceBase
  len : ch.len g.mmio + g.addrBits ≤ g.workspaceBase

theorem outChannel_fits {g : VmGeometry} (hg : g.Wf) :
    outChannel.Fits g (outRegs g) := by
  have hin := hg.within
  exact
    { req := ⟨Or.inl rfl, hin.outReq.2⟩
      done := ⟨Or.inr (Or.inl rfl), hin.outDone.2⟩
      err := ⟨Or.inr (Or.inr (Or.inl rfl)), hin.outErr.2⟩
      got := ⟨fun _ hp => Or.inr (Or.inr (Or.inr hp)), hin.outGot.2⟩
      addr := hin.outSrc.2
      len := hin.outLen.2 }

theorem inChannel_fits {g : VmGeometry} (hg : g.Wf) :
    inChannel.Fits g Set.univ := by
  have hin := hg.within
  exact
    { req := ⟨trivial, hin.inReq.2⟩
      done := ⟨trivial, hin.inDone.2⟩
      err := ⟨trivial, hin.inErr.2⟩
      got := ⟨fun _ _ => trivial, hin.inGot.2⟩
      addr := hin.inDst.2
      len := hin.inLen.2 }

section Channel

variable {g : VmGeometry} (hg : g.Wf) {R : Set Nat} {ch : Channel} (hch : ch.Fits g R)
include hch

theorem reject_writes {vm : Vm} (hvm : vm.toVmGeometry = g) :
    Writes R (Event.Device g) vm (ch.reject vm) := by
  unfold Channel.reject
  rw [hvm]
  refine Writes.bind (bitSet_device true hch.err.1 hch.err.2) ?_
  intro vm₁ h₁
  rw [h₁.geometry, hvm]
  refine Writes.bind (bitSet_device true hch.done.1 hch.done.2) ?_
  intro vm₂ h₂
  rw [h₂.geometry, h₁.geometry, hvm]
  exact bitSet_device false hch.req.1 hch.req.2

include hg

theorem complete_serving {w : World} (hw : w.vm.toVmGeometry = g)
    (hs : w.vm.space.isSome) (count : Nat) : Serving R g w (ch.complete w count) := by
  unfold Channel.complete
  rw [hw, hg.nBits_eq]
  refine Serving.bindVm (Touches.refl R hs)
    (writeUint_device hg hs hch.got.1 hch.got.2) ?_
  intro vm₁ h₁
  rw [h₁.geometry, hw]
  refine Serving.bindVm h₁ (bitSet_device true hch.done.1 hch.done.2) ?_
  intro vm₂ h₂
  rw [h₂.geometry, hw]
  exact Serving.bindVm h₂ (bitSet_device false hch.req.1 hch.req.2)
    fun _ h => Serving.done h

/-- The fields may hold anything: `transfer` is only reached with a request
that has passed both tests. -/
theorem handle_serving {transfer : World → Nat → Nat → Traced Event (World × Nat)}
    (htransfer : ∀ w : World, w.vm.toVmGeometry = g → w.vm.space.isSome →
      ∀ start n, 8 * start < 2 ^ g.addrBits → 8 * n < 2 ^ g.addrBits →
        add64 (8 * start) (8 * n) ≤ g.spaceBits →
        Serves R w (transfer w start n).val.1 ∧
          (transfer w start n).All (Event.Device g))
    {w : World} {vm : Vm} (hw : w.vm.toVmGeometry = g) (hvm : Touches R w.vm vm) :
    Serving R g w (ch.handle transfer w vm) := by
  have hgeo := hvm.geometry.trans hw
  have hreject : Serving R g w (do
      let vm ← ch.reject vm
      return w.withVm vm) :=
    Serving.bindVm hvm (reject_writes hch hgeo) fun _ h => Serving.done h
  unfold Channel.handle
  rw [hgeo, hg.nBits_eq]
  refine Serving.bindRead (readUint_device hg vm hch.addr) ?_
  have haddr := readUint_lt hg vm hch.addr
  generalize (vmReadUint vm (ch.addr g.mmio) g.addrBits).val = addr at haddr ⊢
  refine Serving.bindRead (readUint_device hg vm hch.len) ?_
  have hlen := readUint_lt hg vm hch.len
  generalize (vmReadUint vm (ch.len g.mmio) g.addrBits).val = len at hlen ⊢
  split
  · exact hreject
  · split
    · exact hreject
    · next halign hfit =>
        -- aligned fields: the byte range is exactly the bit range that was tested
        have hexact : 8 * (addr / 8) = addr ∧ 8 * (len / 8) = len := by omega
        obtain ⟨hserves, hevents⟩ := htransfer (w.withVm vm) hgeo hvm.space
          (addr / 8) (len / 8) (by omega) (by omega) (by
            rw [hexact.1, hexact.2]
            exact not_lt.mp hfit)
        have hr : Serves R w (transfer (w.withVm vm) (addr / 8) (len / 8)).val.1 :=
          Serves.trans (b := w.withVm vm) ⟨hvm, rfl, rfl⟩ hserves
        have hdone := complete_serving hg hch (hr.vm.geometry.trans hw) hr.vm.space
          (transfer (w.withVm vm) (addr / 8) (len / 8)).val.2
        exact Serving.bindRead hevents ⟨hr.trans hdone.serves, hdone.events⟩

end Channel

/-! ## The two services -/

section Service

variable {g : VmGeometry} (hg : g.Wf)
include hg

theorem transmit_serves {w : World} (hw : w.vm.toVmGeometry = g)
    (hs : w.vm.space.isSome) {start n : Nat} (hdma : (Event.fwrite start n).Dma g) :
    Serves (outRegs g) w (transmit w start n).val.1 ∧
      (transmit w start n).All (Event.Device g) := by
  have hch := outChannel_fits hg
  unfold transmit
  by_cases hn : n ≠ 0
  · rw [if_pos hn]
    have hset := bitSetIf_device ((fwrite (bytesAt w.vm.mem start n) w.out).1 != n)
      hw hs (·.outErr) hch.err.1 hch.err.2
    have hemit : (emit (Event.fwrite start n)).All (Event.Device g) :=
      (all_emit _).mpr (Or.inr hdma)
    exact ⟨⟨hset.touches, rfl, rfl⟩, hemit.bind (hset.events.bind (all_pure _))⟩
  · rw [if_neg hn]
    exact ⟨Serves.refl _ hs, all_pure _⟩

/-- **The OUT service** writes its own registers only. -/
theorem serviceOut_serving {w : World} (hw : w.vm.toVmGeometry = g)
    (hs : w.vm.space.isSome) : Serving (outRegs g) g w (serviceOut w) := by
  have hch := outChannel_fits hg
  unfold serviceOut
  rw [hw]
  refine Serving.bindRead ((vmBitGet_control hch.req.2).mono fun _ => Or.inl) ?_
  split
  · exact ⟨Serves.refl _ hs, all_pure _⟩
  refine Serving.bindVm (Touches.refl _ hs)
    (bitSet_device false hch.done.1 hch.done.2) ?_
  intro vm₁ h₁
  rw [h₁.geometry, hw]
  refine Serving.bindVm h₁ (bitSet_device false hch.err.1 hch.err.2) ?_
  intro vm₂ h₂
  rw [h₂.geometry, hw, hg.nBits_eq]
  refine Serving.bindVm h₂
    (writeUint_device hg h₂.space hch.got.1 hch.got.2) ?_
  intro vm₃ h₃
  exact handle_serving hg hch (fun w hw hs start n h₁ h₂ h₃ =>
    transmit_serves hg hw hs ⟨h₁, h₂, h₃⟩) hw h₃

theorem receive_serves {w : World} (hw : w.vm.toVmGeometry = g)
    (hs : w.vm.space.isSome) {start n : Nat} (hdma : (Event.fread start n).Dma g) :
    Serves Set.univ w (receive w start n).val.1 ∧
      (receive w start n).All (Event.Device g) := by
  have hin := hg.within
  unfold receive
  by_cases hn : n ≠ 0
  · rw [if_pos hn]
    have hemit : (emit (Event.fread start n)).All (Event.Device g) :=
      (all_emit _).mpr (Or.inr hdma)
    have hstore : Touches Set.univ w.vm
        (w.vm.withMem (storeBytes w.vm.mem start (fread n w.inp).1)) :=
      ⟨_, rfl, fun p hp => absurd trivial hp⟩
    have heof := bitSetIf_device ((fread n w.inp).1.length == 0 && (fread n w.inp).2.eof)
      (hstore.geometry.trans hw) hstore.space (·.inEof) (Set.mem_univ _) hin.inEof.2
    have hvm := hstore.trans heof.touches
    have herr := bitSetIf_device (fread n w.inp).2.err (hvm.geometry.trans hw)
      hvm.space (·.inErr) (Set.mem_univ _) hin.inErr.2
    exact ⟨⟨hvm.trans herr.touches, rfl, rfl⟩,
      hemit.bind (heof.events.bind (herr.events.bind (all_pure _)))⟩
  · rw [if_neg hn]
    exact ⟨Serves.refl _ hs, all_pure _⟩

/-- **The IN service** keeps the layout and only accesses the space. -/
theorem serviceIn_serving {w : World} (hw : w.vm.toVmGeometry = g)
    (hs : w.vm.space.isSome) : Serving Set.univ g w (serviceIn w) := by
  have hch := inChannel_fits hg
  unfold serviceIn
  rw [hw]
  refine Serving.bindRead ((vmBitGet_control hch.req.2).mono fun _ => Or.inl) ?_
  split
  · exact ⟨Serves.refl _ hs, all_pure _⟩
  refine Serving.bindVm (Touches.refl _ hs)
    (bitSet_device false trivial hch.done.2) ?_
  intro vm₁ h₁
  rw [h₁.geometry, hw]
  refine Serving.bindVm h₁ (bitSet_device false trivial hg.within.inEof.2) ?_
  intro vm₂ h₂
  rw [h₂.geometry, hw]
  refine Serving.bindVm h₂ (bitSet_device false trivial hch.err.2) ?_
  intro vm₃ h₃
  rw [h₃.geometry, hw, hg.nBits_eq]
  refine Serving.bindVm h₃
    (writeUint_device hg h₃.space hch.got.1 hch.got.2) ?_
  intro vm₄ h₄
  exact handle_serving hg hch (fun w hw hs start n h₁ h₂ h₃ =>
    receive_serves hg hw hs ⟨h₁, h₂, h₃⟩) hw h₄

end Service

/-! ## Idle channels -/

/-- Without a request the OUT service does nothing. -/
theorem serviceOut_idle {w : World} (h : w.vm.mem.bit w.vm.mmio.outReq = false) :
    (serviceOut w).val = w := by
  unfold serviceOut
  rw [val_bind, vmBitGet_val, h]
  rfl

/-- Without a request the IN service does nothing. -/
theorem serviceIn_idle {w : World} (h : w.vm.mem.bit w.vm.mmio.inReq = false) :
    (serviceIn w).val = w := by
  unfold serviceIn
  rw [val_bind, vmBitGet_val, h]
  rfl

end SpaceVerifier.Runtime
