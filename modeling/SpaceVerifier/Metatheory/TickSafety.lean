import SpaceVerifier.Metatheory.TickShape

/-!
# One tick, and the memory accesses of every run

On a machine with the layout of `vm_init` the slots are fetched from the
processor area and nothing wraps, so the shape of a tick gives its accesses one
by one. None of them lies outside the space, whatever the memory and the
streams hold.
-/

namespace SpaceVerifier.Runtime

open Foundation Foundation.Traced

/-! ## Machines that run -/

/-- The machine has layout `g` and a space. -/
structure Ready (g : VmGeometry) (w : World) : Prop where
  geometry : w.vm.toVmGeometry = g
  space : w.vm.space.isSome

namespace Ready

variable {g : VmGeometry} {w : World} (h : Ready g w)
include h

theorem serves {R : Set Nat} {w' : World} (hs : Serves R w w') : Ready g w' :=
  ⟨hs.vm.geometry.trans h.geometry, hs.vm.space⟩

theorem processorN : w.vm.processorN = g.processorN :=
  congrArg VmGeometry.processorN h.geometry

theorem reset : Ready g (w.withVm w.vm.resetErr) := ⟨h.geometry, h.space⟩

theorem served : Ready g (served w) := h.reset.serves (mmioPhase_yields h.space).result

theorem begun : Ready g (begun w) := by
  constructor <;> rw [vm_begun]
  · exact h.served.geometry
  · exact h.served.space

theorem beforeSlot (i : Nat) : Ready g (w.beforeSlot i) :=
  ⟨(w.vm.geometry_beforeSlot i).trans h.geometry, Vm.space_beforeSlot h.space i⟩

end Ready

/-! ## One slot -/

/-- The instruction slot `i` holds. -/
def slotInst (g : VmGeometry) (m : Mem) (i : Nat) : VmInst :=
  instAt m.bit (i * (3 * g.addrBits)) g.addrBits

theorem slotInst_lt (g : VmGeometry) (m : Mem) (i : Nat) :
    (slotInst g m i).n < 2 ^ g.addrBits ∧ (slotInst g m i).dst < 2 ^ g.addrBits ∧
      (slotInst g m i).src < 2 ^ g.addrBits :=
  ⟨uintAt_lt _ _ _, uintAt_lt _ _ _, uintAt_lt _ _ _⟩

/-- A slot's instruction depends on the processor area only. -/
theorem slotInst_congr {g : VmGeometry} (hg : g.Wf) {m m' : Mem} {i : Nat}
    (hi : i < g.processorN) (h : ∀ p < g.processorBits, m.bit p = m'.bit p) :
    slotInst g m i = slotInst g m' i := by
  have hfit := hg.slot_le hi
  exact instAt_congr fun p _ hp => h p (by omega)

section Slot

variable {g : VmGeometry} (hg : g.Wf) {w : World} (hw : Ready g w) {i : Nat}
  (hi : i < g.processorN)
include hg hw hi

/-- Slot `i` lies in the processor area, and its address does not wrap. -/
theorem slot_inside : vmProcSlotIp w.vm i = i * (3 * g.addrBits) ∧
    i * (3 * g.addrBits) + 3 * g.addrBits ≤ g.processorBits ∧ g.processorBits ≤ 2 ^ 64 := by
  have hg' : w.vm.toVmGeometry.Wf := by rw [hw.geometry]; exact hg
  have hfit := hg.slot_le hi
  have hbase := hg.processorBits_le
  have hle := hg.workspaceBase_le
  have hbits := hg.spaceBits_le
  refine ⟨?_, by omega, by omega⟩
  rw [(vmProcSlotIp_eq hg' (hi.trans hg.processorN_lt)).1, hw.geometry]

theorem fetch_val :
    (vmReadInst w.vm (vmProcSlotIp w.vm i)).val = slotInst g w.vm.mem i := by
  have hg' : w.vm.toVmGeometry.Wf := by rw [hw.geometry]; exact hg
  obtain ⟨hip, hfit, hbits⟩ := slot_inside hg hw hi
  rw [hip, vmReadInst_val hg' (by rw [hw.geometry]; omega), hw.geometry]
  rfl

theorem fetch_control :
    (vmReadInst w.vm (vmProcSlotIp w.vm i)).All (Event.Control g.processorBits) := by
  have hg' : w.vm.toVmGeometry.Wf := by rw [hw.geometry]; exact hg
  obtain ⟨hip, hfit, hbits⟩ := slot_inside hg hw hi
  rw [hip]
  exact vmReadInst_control hg' (by rw [hw.geometry]; exact hfit) hbits

theorem slotIns_eq : slotIns w.vm i = slotInst g (w.vm.beforeSlot i).mem i :=
  fetch_val hg (hw.beforeSlot i) hi

/-- What slot `i` accesses: its code, the fetch, and the copy if both bound
tests pass. -/
theorem slotTrace_all {P : Event → Prop}
    (hcode : ∀ e : Event, e.Control g.processorBits → P e)
    (hfetch : P (.fetch i (slotIns w.vm i)))
    (hcopy : (slotIns w.vm i).n ≠ 0 → ¬ BadSlot w.vm i →
      P (.bitcpy (slotIns w.vm i).n (slotIns w.vm i).src (slotIns w.vm i).dst)) :
    ∀ e ∈ slotTrace w.vm i, P e :=
  slotTrace_forall ((fetch_control hg (hw.beforeSlot i) hi).mono hcode) hfetch hcopy

end Slot

/-! ## Layout and space along a run -/

/-- The world between the two services of a tick. -/
def inWorld (w : World) : World := (serviceOut (w.withVm w.vm.resetErr)).val

theorem inWorld_ready {g : VmGeometry} {w : World} (hw : Ready g w) : Ready g (inWorld w) :=
  hw.reset.serves (serviceOut_yields hw.reset.space).result

theorem vmTick_ready {g : VmGeometry} {w : World} (hw : Ready g w) :
    Ready g (vmTick w).val.2 := by
  obtain ⟨r, t, htick, hshape⟩ := vmTick_shape hw.space
  rw [htick]
  cases hshape with
  | halt => exact ⟨hw.served.geometry, hw.served.space⟩
  | ok =>
      have hlast := hw.begun.beforeSlot (served w).vm.processorN
      exact ⟨hlast.geometry, hlast.space⟩
  | @err j _ _ =>
      have hlast := hw.begun.beforeSlot j
      exact ⟨hlast.geometry, hlast.space⟩

section Run

variable {g : VmGeometry} (hg : g.Wf)
include hg

theorem mmioPhase_device {w : World} (hw : Ready g w) :
    (mmioPhase w).All (Event.Device g) := by
  have hmid := inWorld_ready hw
  have hout := serviceOut_serving hg hw.reset.geometry hw.reset.space
  have hin := serviceIn_serving hg hmid.geometry hmid.space
  exact hout.events.bind hin.events

theorem headTrace_device {w : World} (hw : Ready g w) :
    ∀ e ∈ headTrace w, e.Device g := by
  intro e he
  rcases List.mem_append.mp he with he | he
  · exact mmioPhase_device hg hw e he
  · rw [hw.served.geometry] at he
    exact Or.inl (vmBitGet_control hg.within.halt.2 e he)

/-- The accesses of a tick: those of the device, the halt bit, the slots. -/
theorem vmTick_all {P : Event → Prop} {w : World} (hw : Ready g w)
    (hdevice : ∀ e : Event, e.Device g → P e)
    (hfetch : ∀ i < g.processorN, P (.fetch i (slotIns (served w).vm i)))
    (hcopy : ∀ i < g.processorN, (slotIns (served w).vm i).n ≠ 0 →
      ¬ BadSlot (served w).vm i → P (.bitcpy (slotIns (served w).vm i).n
        (slotIns (served w).vm i).src (slotIns (served w).vm i).dst)) :
    (vmTick w).All P := by
  have hhead : ∀ e ∈ headTrace w, P e := fun e he => hdevice e (headTrace_device hg hw e he)
  have hcode : ∀ e : Event, e.Control g.processorBits → P e := fun e he =>
    hdevice e (Or.inl (he.mono hg.processorBits_le))
  have hslots : ∀ k ≤ g.processorN, ∀ e ∈ slotsTrace (served w).vm k, P e := by
    intro k hk e he
    obtain ⟨i, hi, he⟩ := List.mem_flatMap.mp he
    have hlt := (List.mem_range.mp hi).trans_le hk
    exact slotTrace_all hg hw.served hlt hcode (hfetch i hlt) (hcopy i hlt) e he
  have hP := hw.served.processorN
  obtain ⟨r, t, htick, hshape⟩ := vmTick_shape hw.space
  rw [htick]
  cases hshape with
  | halt => exact hhead
  | ok => exact List.forall_mem_append.mpr ⟨hhead, hslots _ hP.le⟩
  | err _ hfirst =>
      have hj := hfirst.1.1
      exact List.forall_mem_append.mpr ⟨hhead, hslots _ (by omega)⟩

end Run

/-! ## Nothing outside the space -/

/-- The access lies inside `[0, limit)`, all sums being exact. -/
def Event.Inside (limit : Nat) : Event → Prop
  | .bitGet pos => pos < limit
  | .bitSet pos => pos < limit
  | .readUint pos width => pos + width ≤ limit
  | .writeUint pos width => pos + width ≤ limit
  | .fread start n => 8 * (start + n) ≤ limit
  | .fwrite start n => 8 * (start + n) ≤ limit
  | .bitcpy n src dst => src + n ≤ limit ∧ dst + n ≤ limit
  | .fetch _ _ => True

theorem Event.Control.inside {limit limit' : Nat} {e : Event} (h : e.Control limit)
    (hle : limit ≤ limit') : e.Inside limit' := by
  cases e <;> simp only [Event.Control, Event.Inside] at * <;> omega

/-- Fields of at most 56 bits cannot wrap a 64-bit sum. -/
theorem add64_fields {g : VmGeometry} (ha : g.addrBits ≤ 56) {a b : Nat}
    (h₁ : a < 2 ^ g.addrBits) (h₂ : b < 2 ^ g.addrBits) : add64 a b = a + b := by
  have hpow : 2 ^ g.addrBits ≤ 2 ^ 56 := Nat.pow_le_pow_right (by decide) ha
  exact add64_of_lt (by omega)

section Safety

variable {g : VmGeometry} (hg : g.Wf) (ha : g.addrBits ≤ 56)
include hg ha

theorem Event.Device.inside {e : Event} (h : e.Device g) : e.Inside g.spaceBits := by
  rcases h with h | h
  · exact h.inside hg.workspaceBase_le
  · cases e <;> simp only [Event.Dma, Event.Inside] at *
    all_goals
      obtain ⟨h₁, h₂, hfit⟩ := h
      rw [add64_fields ha h₁ h₂] at hfit
      omega

/-- No sum of a fetched instruction wraps. -/
theorem slotIns_add64 {w : World} (hw : Ready g w) {i : Nat} (hi : i < g.processorN) :
    add64 (slotIns w.vm i).src (slotIns w.vm i).n =
        (slotIns w.vm i).src + (slotIns w.vm i).n ∧
      add64 (slotIns w.vm i).dst (slotIns w.vm i).n =
        (slotIns w.vm i).dst + (slotIns w.vm i).n := by
  rw [slotIns_eq hg hw hi]
  obtain ⟨hn, hdst, hsrc⟩ := slotInst_lt g (w.vm.beforeSlot i).mem i
  exact ⟨add64_fields ha hsrc hn, add64_fields ha hdst hn⟩

/-- An instruction that passes both bound tests stays inside the space. -/
theorem slotIns_inside {w : World} (hw : Ready g w) {i : Nat} (hi : i < g.processorN)
    (hn : (slotIns w.vm i).n ≠ 0) (hgood : ¬ BadSlot w.vm i) :
    (slotIns w.vm i).src + (slotIns w.vm i).n ≤ g.spaceBits ∧
      (slotIns w.vm i).dst + (slotIns w.vm i).n ≤ g.spaceBits := by
  obtain ⟨hsrc, hdst⟩ := slotIns_add64 hg ha hw hi
  unfold BadSlot VmInst.OutOfBounds at hgood
  rw [hsrc, hdst, hw.geometry] at hgood
  constructor
  · by_contra hout
    exact hgood ⟨hn, Or.inl (not_le.mp hout)⟩
  · by_contra hout
    exact hgood ⟨hn, Or.inr (not_le.mp hout)⟩

/-- A tick stays inside the space, for any contents of the slots. -/
theorem vmTick_inside {w : World} (hw : Ready g w) :
    (vmTick w).All (Event.Inside g.spaceBits) := by
  refine vmTick_all hg hw ?_ ?_ ?_
  · intro e he
    exact he.inside hg ha
  · intro i hi
    trivial
  · intro i hi hn hgood
    exact slotIns_inside hg ha hw.served hi hn hgood

end Safety

/-! ## Runs of ticks -/

/-- `k` calls of `vm_tick`, whatever they return. -/
def ticks : Nat → World → Traced Event World
  | 0, w => pure w
  | k + 1, w => do
      let r ← vmTick w
      ticks k r.2

/-- The run rule: what every tick keeps, a run keeps, and what every tick
accesses, a run accesses. -/
theorem ticks_yields {P : Event → Prop} {I : World → Prop}
    (hstep : ∀ w, I w → (vmTick w).Yields P fun r => I r.2) {w : World} (h : I w)
    (k : Nat) : (ticks k w).Yields P I := by
  induction k generalizing w with
  | zero => exact yields_pure h
  | succ k ih => exact (hstep w h).bind fun r hr => ih hr

theorem vmRun_yields {P : Event → Prop} {I : World → Prop}
    (hstep : ∀ w, I w → (vmTick w).Yields P fun r => I r.2) {w : World} (h : I w)
    (life : Nat) : (vmRun life w).Yields P fun r => I r.2 := by
  induction life generalizing w with
  | zero => exact yields_pure h
  | succ life ih =>
      refine (hstep w h).bind fun r hr => ?_
      split
      · exact yields_pure hr
      · exact ih hr

theorem ticks_ready {g : VmGeometry} {w : World} (hw : Ready g w) (k : Nat) :
    Ready g (ticks k w).val :=
  (@ticks_yields (fun _ => True) _
    (fun _ h => ⟨vmTick_ready h, fun _ _ => trivial⟩) w hw k).result

/-- The first tick of a run split off. -/
theorem ticks_succ (k : Nat) (w : World) :
    (ticks (k + 1) w).val = (ticks k (vmTick w).val.2).val := by
  rw [ticks, val_bind]

/-- The last tick of a run split off. -/
theorem ticks_succ_last (k : Nat) (w : World) :
    (ticks (k + 1) w).val = (vmTick (ticks k w).val).val.2 := by
  induction k generalizing w with
  | zero => rw [ticks_succ, ticks, ticks, val_pure, val_pure]
  | succ k ih => rw [ticks_succ, ih, ← ticks_succ]

/-- A space of fewer than 2^53 bytes has addresses of at most 56 bits. -/
theorem addrBits_le_of_limit {calloc : Nat → Bool} {S P : Nat} {vm : Vm}
    (h : Accepted calloc S P vm) (hlimit : CallocLimit calloc (2 ^ 53)) :
    vm.toVmGeometry.Wf ∧ vm.addrBits ≤ 56 := by
  obtain ⟨hg, hS, -⟩ := h.wf (hlimit.mono (by decide))
  refine ⟨hg, ?_⟩
  have hsmall : S < 2 ^ 53 := by
    by_contra hge
    have hgranted := (vmInit_eq_some_zero h.init).2.1
    rw [hlimit S (not_lt.mp hge)] at hgranted
    cases hgranted
  have hclog : Nat.clog 2 (8 * S) ≤ 56 := Nat.clog_le_of_le_pow (by omega)
  rw [hg.addrBits_eq, hg.spaceBits_eq, hS, addrWidth]
  omega

/-- **The machine never addresses memory outside its space.** Every access of
any number of ticks of an accepted machine lies inside `[0, space_bits)`,
whatever its memory and its streams hold. -/
theorem accepted_ticks_inside {calloc : Nat → Bool} {S P : Nat} {vm : Vm}
    (h : Accepted calloc S P vm) (hlimit : CallocLimit calloc (2 ^ 48)) (w : World)
    (hw : w.vm.toVmGeometry = vm.toVmGeometry) (k : Nat) :
    (ticks k w).All (Event.Inside vm.spaceBits) := by
  obtain ⟨hg, ha⟩ := addrBits_le_of_limit h (hlimit.mono (by decide))
  cases hs : w.vm.space with
  | some m =>
      have hready : Ready vm.toVmGeometry w := ⟨hw, by rw [hs]; rfl⟩
      exact (ticks_yields
        (fun _ h => ⟨vmTick_ready h, vmTick_inside hg ha h⟩) hready k).events
  | none =>
      -- without a space every tick returns at once
      have htick : ∀ w : World, w.vm.space = none → (vmTick w).Yields
          (Event.Inside vm.spaceBits) fun r => r.2.vm.space = none := by
        intro w hnone
        rw [show vmTick w = pure (.err, w) by simp [vmTick, hnone]]
        exact yields_pure hnone
      exact (@ticks_yields _ (fun w => w.vm.space = none) htick w hs k).events

/-- A machine between an exhausted input and a closed output, without hooks. -/
def bareWorld (vm : Vm) : World :=
  { vm, inp := ⟨fun _ => .eof, 0, false, false⟩, out := ⟨fun _ => 0, 0, []⟩
    hookLog := [], stderr := [] }

theorem accepted_ticks_inside_small :
    (ticks 2 (bareWorld (smallVm.withMem fun _ => 0xFF))).All (Event.Inside 128) :=
  accepted_ticks_inside smallVm_accepted hostCalloc_limit _ rfl 2

end SpaceVerifier.Runtime
