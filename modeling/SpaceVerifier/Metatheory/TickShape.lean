import SpaceVerifier.Metatheory.Handshake
import Mathlib.Order.Bounds.Basic

/-!
# The shape of a tick, on any machine

Nothing here assumes a layout that `vm_init` would accept. The device changes
the memory, the streams and nothing else; the slot loop rewrites its own code,
so its result is given slot by slot: `beforeSlot i` is what the copies of the
slots before `i` have left, and the loop ends at the first slot out of bounds.
-/

namespace SpaceVerifier.Runtime

open Foundation Foundation.Traced

/-! ## The device -/

/-- An access of the device, not of a slot. -/
def Event.NoSlot : Event → Prop
  | .bitcpy _ _ _ => False
  | .fetch _ _ => False
  | _ => True

theorem Touches.withMem (vm : Vm) (m : Mem) : Touches Set.univ vm (vm.withMem m) :=
  ⟨m, rfl, fun _ hp => absurd trivial hp⟩

/-- A machine that was touched before and is touched again. -/
theorem Touches.yields {P : Event → Prop} {R : Set Nat} {a b : Vm} {x : Traced Event Vm}
    (hab : Touches R a b) (hx : x.Yields P (Touches R b)) : x.Yields P (Touches R a) :=
  hx.mono fun _ => hab.trans

theorem vmBitGet_yields (vm : Vm) (pos : Nat) :
    (vmBitGet vm pos).Yields Event.NoSlot fun _ => True :=
  (yields_emit trivial).bind fun _ _ => yields_pure trivial

theorem vmBitSet_yields (vm : Vm) (pos : Nat) (v : Bool) :
    (vmBitSet vm pos v).Yields Event.NoSlot (Touches Set.univ vm) :=
  (yields_emit trivial).bind fun _ _ => yields_pure (Touches.withMem vm _)

theorem vmReadUint_yields (vm : Vm) (pos w : Nat) :
    (vmReadUint vm pos w).Yields Event.NoSlot fun _ => True := by
  refine (yields_emit trivial).bind fun _ _ => ?_
  split
  · exact yields_pure trivial
  · refine forUp_yields trivial fun i _ v _ => ?_
    exact (vmBitGet_yields vm _).bind fun _ _ => yields_pure trivial

theorem vmReadInst_yields (vm : Vm) (ip : Nat) :
    (vmReadInst vm ip).Yields Event.NoSlot fun _ => True := by
  unfold vmReadInst
  refine (vmReadUint_yields vm _ _).bind fun n _ => ?_
  refine (vmReadUint_yields vm _ _).bind fun dst _ => ?_
  exact (vmReadUint_yields vm _ _).bind fun src _ => yields_pure trivial

theorem vmWriteUint_yields {vm : Vm} (hs : vm.space.isSome) (pos w v : Nat) :
    (vmWriteUint vm pos w v).Yields Event.NoSlot (Touches Set.univ vm) := by
  refine (yields_emit trivial).bind fun _ _ => ?_
  split
  · exact yields_pure (Touches.refl _ hs)
  · refine forUp_yields (Touches.refl _ hs) fun i _ vm' h => ?_
    exact h.yields (vmBitSet_yields vm' _ _)

theorem vmBitSetIf_yields {vm : Vm} (hs : vm.space.isSome) (c : Bool)
    (reg : MmioLayout → Nat) :
    (vmBitSetIf c vm reg).Yields Event.NoSlot (Touches Set.univ vm) := by
  unfold vmBitSetIf
  split
  · exact vmBitSet_yields vm _ _
  · exact yields_pure (Touches.refl _ hs)

/-! ## The two services -/

/-- The world around a machine that was touched. -/
theorem Touches.serves {w : World} {vm : Vm} (h : Touches Set.univ w.vm vm) :
    Serves Set.univ w (w.withVm vm) :=
  ⟨h, rfl, rfl⟩

theorem reject_yields (ch : Channel) (vm : Vm) :
    (ch.reject vm).Yields Event.NoSlot (Touches Set.univ vm) := by
  unfold Channel.reject
  refine (vmBitSet_yields vm _ _).bind fun vm₁ h₁ => ?_
  refine (h₁.yields (vmBitSet_yields vm₁ _ _)).bind fun vm₂ h₂ => ?_
  exact h₂.yields (vmBitSet_yields vm₂ _ _)

theorem complete_yields (ch : Channel) {w : World} (hs : w.vm.space.isSome) (count : Nat) :
    (ch.complete w count).Yields Event.NoSlot (Serves Set.univ w) := by
  unfold Channel.complete
  refine (vmWriteUint_yields hs _ _ _).bind fun vm₁ h₁ => ?_
  refine (h₁.yields (vmBitSet_yields vm₁ _ _)).bind fun vm₂ h₂ => ?_
  refine (h₂.yields (vmBitSet_yields vm₂ _ _)).bind fun vm₃ h₃ => ?_
  exact yields_pure h₃.serves

theorem handle_yields (ch : Channel)
    {transfer : World → Nat → Nat → Traced Event (World × Nat)}
    (htransfer : ∀ w : World, w.vm.space.isSome → ∀ start n,
      (transfer w start n).Yields Event.NoSlot fun r => Serves Set.univ w r.1)
    {w : World} {vm : Vm} (hvm : Touches Set.univ w.vm vm) :
    (ch.handle transfer w vm).Yields Event.NoSlot (Serves Set.univ w) := by
  have hreject : (do
      let vm ← ch.reject vm
      return w.withVm vm).Yields Event.NoSlot (Serves Set.univ w) :=
    (hvm.yields (reject_yields ch vm)).bind fun _ h => yields_pure h.serves
  unfold Channel.handle
  refine (vmReadUint_yields vm _ _).bind fun addr _ => ?_
  refine (vmReadUint_yields vm _ _).bind fun len _ => ?_
  split
  · exact hreject
  · split
    · exact hreject
    · refine (htransfer (w.withVm vm) hvm.space _ _).bind fun r hr => ?_
      have hserves := hvm.serves.trans hr
      exact (complete_yields ch hr.vm.space r.2).mono fun _ => hserves.trans

theorem transmit_yields {w : World} (hs : w.vm.space.isSome) (start n : Nat) :
    (transmit w start n).Yields Event.NoSlot fun r => Serves Set.univ w r.1 := by
  unfold transmit
  split
  · refine (yields_emit trivial).bind fun _ _ => ?_
    refine (vmBitSetIf_yields hs _ _).bind fun vm h => ?_
    exact yields_pure ⟨h, rfl, rfl⟩
  · exact yields_pure (Serves.refl _ hs)

theorem receive_yields {w : World} (hs : w.vm.space.isSome) (start n : Nat) :
    (receive w start n).Yields Event.NoSlot fun r => Serves Set.univ w r.1 := by
  unfold receive
  split
  · refine (yields_emit trivial).bind fun _ _ => ?_
    have hstore := Touches.withMem w.vm (storeBytes w.vm.mem start (fread n w.inp).1)
    refine (hstore.yields (vmBitSetIf_yields hstore.space _ _)).bind fun vm₁ h₁ => ?_
    refine (h₁.yields (vmBitSetIf_yields h₁.space _ _)).bind fun vm₂ h₂ => ?_
    exact yields_pure ⟨h₂, rfl, rfl⟩
  · exact yields_pure (Serves.refl _ hs)

theorem serviceOut_yields {w : World} (hs : w.vm.space.isSome) :
    (serviceOut w).Yields Event.NoSlot (Serves Set.univ w) := by
  unfold serviceOut
  refine (vmBitGet_yields w.vm _).bind fun req _ => ?_
  split
  · exact yields_pure (Serves.refl _ hs)
  · refine (vmBitSet_yields w.vm _ _).bind fun vm₁ h₁ => ?_
    refine (h₁.yields (vmBitSet_yields vm₁ _ _)).bind fun vm₂ h₂ => ?_
    refine (h₂.yields (vmWriteUint_yields h₂.space _ _ _)).bind fun vm₃ h₃ => ?_
    exact handle_yields _ (fun _ => transmit_yields) h₃

theorem serviceIn_yields {w : World} (hs : w.vm.space.isSome) :
    (serviceIn w).Yields Event.NoSlot (Serves Set.univ w) := by
  unfold serviceIn
  refine (vmBitGet_yields w.vm _).bind fun req _ => ?_
  split
  · exact yields_pure (Serves.refl _ hs)
  · refine (vmBitSet_yields w.vm _ _).bind fun vm₁ h₁ => ?_
    refine (h₁.yields (vmBitSet_yields vm₁ _ _)).bind fun vm₂ h₂ => ?_
    refine (h₂.yields (vmBitSet_yields vm₂ _ _)).bind fun vm₃ h₃ => ?_
    refine (h₃.yields (vmWriteUint_yields h₃.space _ _ _)).bind fun vm₄ h₄ => ?_
    exact handle_yields _ (fun _ => receive_yields) h₄

/-- The device phase of any machine: only the memory and the streams change,
and no slot runs. -/
theorem mmioPhase_yields {w : World} (hs : w.vm.space.isSome) :
    (mmioPhase w).Yields Event.NoSlot (Serves Set.univ (w.withVm w.vm.resetErr)) := by
  unfold mmioPhase
  have hreset : (w.withVm w.vm.resetErr).vm.space.isSome := hs
  refine (serviceOut_yields hreset).bind fun w₁ h₁ => ?_
  exact (serviceIn_yields h₁.vm.space).mono fun _ => h₁.trans

/-! ## The slots -/

/-- The instruction in slot `i` of the machine. -/
def fetched (vm : Vm) (i : Nat) : VmInst := (vmReadInst vm (vmProcSlotIp vm i)).val

/-- The machine before slot `i`: every earlier slot has been fetched from what
its predecessors have left, and copied unless it was a NOP. -/
def Vm.beforeSlot (vm : Vm) : Nat → Vm
  | 0 => vm
  | i + 1 =>
      let vm := vm.beforeSlot i
      let ins := fetched vm i
      if ins.n = 0 then vm
      else vm.withMem (bitcpy vm.mem ins.n 0 ins.src 0 ins.dst).val

/-- The instruction the loop fetches at slot `i`. -/
def slotIns (vm : Vm) (i : Nat) : VmInst := fetched (vm.beforeSlot i) i

/-- The instruction is not a NOP and fails one of the two bound tests. -/
def VmInst.OutOfBounds (ins : VmInst) (spaceBits : Nat) : Prop :=
  ins.n ≠ 0 ∧ (spaceBits < add64 ins.src ins.n ∨ spaceBits < add64 ins.dst ins.n)

instance (ins : VmInst) (spaceBits : Nat) : Decidable (ins.OutOfBounds spaceBits) :=
  inferInstanceAs (Decidable (_ ∧ _))

/-- The loop, when it comes to slot `i`, finds it out of bounds. -/
def BadSlot (vm : Vm) (i : Nat) : Prop := (slotIns vm i).OutOfBounds vm.spaceBits

instance (vm : Vm) (i : Nat) : Decidable (BadSlot vm i) :=
  inferInstanceAs (Decidable (VmInst.OutOfBounds _ _))

/-- The source is tested first. -/
def boundsKind (ins : VmInst) (spaceBits : Nat) : VmErrKind :=
  if spaceBits < add64 ins.src ins.n then .srcBounds else .dstBounds

/-- The accesses of slot `i`: the fetch, and the copy unless it is a NOP or bad. -/
def slotTrace (vm : Vm) (i : Nat) : List Event :=
  (vmReadInst (vm.beforeSlot i) (vmProcSlotIp (vm.beforeSlot i) i)).trace ++
    .fetch i (slotIns vm i) ::
      if (slotIns vm i).n = 0 ∨ BadSlot vm i then []
      else [.bitcpy (slotIns vm i).n (slotIns vm i).src (slotIns vm i).dst]

/-- The accesses of the first `k` slots. -/
def slotsTrace (vm : Vm) (k : Nat) : List Event := (List.range k).flatMap (slotTrace vm)

/-- The call of `note_copy` for slot `i`; none for a NOP. -/
def slotNote (vm : Vm) (i : Nat) : Option HookEvent :=
  if (slotIns vm i).n = 0 then none
  else some (.noteCopy (slotIns vm i).dst (slotIns vm i).n (slotIns vm i).src)

/-- The calls of `note_copy` for the first `k` slots, in slot order. -/
def slotNotes (vm : Vm) (k : Nat) : List HookEvent := (List.range k).filterMap (slotNote vm)

/-- The world before slot `i`: the copies are made and announced. -/
def World.beforeSlot (w : World) (i : Nat) : World :=
  { w with
    vm := w.vm.beforeSlot i
    hookLog := w.hookLog ++ if w.vm.hooks.noteCopy then slotNotes w.vm i else [] }

theorem slotsTrace_succ (vm : Vm) (k : Nat) :
    slotsTrace vm (k + 1) = slotsTrace vm k ++ slotTrace vm k := by
  unfold slotsTrace
  rw [List.range_succ, List.flatMap_append, List.flatMap_singleton]

theorem fetch_mem_slotsTrace (vm : Vm) {i k : Nat} (hi : i < k) :
    .fetch i (slotIns vm i) ∈ slotsTrace vm k := by
  refine List.mem_flatMap.mpr ⟨i, List.mem_range.mpr hi, ?_⟩
  exact List.mem_append_right _ List.mem_cons_self

/-- What holds of the accesses of one slot. -/
theorem slotTrace_forall {P : Event → Prop} {vm : Vm} {i : Nat}
    (hcode : (vmReadInst (vm.beforeSlot i) (vmProcSlotIp (vm.beforeSlot i) i)).All P)
    (hfetch : P (.fetch i (slotIns vm i)))
    (hcopy : (slotIns vm i).n ≠ 0 → ¬ BadSlot vm i →
      P (.bitcpy (slotIns vm i).n (slotIns vm i).src (slotIns vm i).dst)) :
    ∀ e ∈ slotTrace vm i, P e := by
  intro e he
  rcases List.mem_append.mp he with he | he
  · exact hcode e he
  · rcases List.mem_cons.mp he with rfl | he
    · exact hfetch
    · split at he
      · cases he
      · next hrun =>
          obtain rfl := List.mem_singleton.mp he
          rw [not_or] at hrun
          exact hcopy hrun.1 hrun.2

theorem slotNotes_succ (vm : Vm) (k : Nat) :
    slotNotes vm (k + 1) = slotNotes vm k ++ (slotNote vm k).toList := by
  unfold slotNotes
  rw [List.range_succ, List.filterMap_append]
  cases h : slotNote vm k <;> simp [h]

@[simp] theorem World.beforeSlot_zero (w : World) : w.beforeSlot 0 = w := by
  simp [World.beforeSlot, Vm.beforeSlot, slotNotes]

@[simp] theorem World.vm_beforeSlot (w : World) (i : Nat) :
    (w.beforeSlot i).vm = w.vm.beforeSlot i := rfl

/-- The slots change nothing but the memory. -/
theorem Vm.beforeSlot_eq (vm : Vm) (i : Nat) : ∃ s, vm.beforeSlot i = { vm with space := s } := by
  induction i with
  | zero => exact ⟨vm.space, rfl⟩
  | succ i ih =>
      obtain ⟨s, hs⟩ := ih
      rw [Vm.beforeSlot]
      split
      · exact ⟨s, hs⟩
      · exact ⟨some _, by rw [hs]; rfl⟩

section Fields

variable (vm : Vm) (i : Nat)

@[simp] theorem Vm.geometry_beforeSlot : (vm.beforeSlot i).toVmGeometry = vm.toVmGeometry := by
  obtain ⟨s, hs⟩ := vm.beforeSlot_eq i
  rw [hs]

@[simp] theorem Vm.hooks_beforeSlot : (vm.beforeSlot i).hooks = vm.hooks := by
  obtain ⟨s, hs⟩ := vm.beforeSlot_eq i
  rw [hs]

@[simp] theorem Vm.tickCounter_beforeSlot : (vm.beforeSlot i).tickCounter = vm.tickCounter := by
  obtain ⟨s, hs⟩ := vm.beforeSlot_eq i
  rw [hs]

@[simp] theorem Vm.lastErr_beforeSlot : (vm.beforeSlot i).lastErr = vm.lastErr := by
  obtain ⟨s, hs⟩ := vm.beforeSlot_eq i
  rw [hs]

end Fields

theorem Vm.space_beforeSlot {vm : Vm} (hs : vm.space.isSome) (i : Nat) :
    (vm.beforeSlot i).space.isSome := by
  induction i with
  | zero => exact hs
  | succ i ih =>
      rw [Vm.beforeSlot]
      split
      · exact ih
      · rfl

/-! ## The loop -/

/-- A copy of slot `i` makes the memory of the next slot. -/
theorem mem_beforeSlot_succ {vm : Vm} {i : Nat} {ins : VmInst} (hins : slotIns vm i = ins)
    (hn : ins.n ≠ 0) : (vm.beforeSlot (i + 1)).mem =
      (bitcpy (vm.beforeSlot i).mem ins.n 0 ins.src 0 ins.dst).val := by
  subst hins
  have hcopy : vm.beforeSlot (i + 1) = (vm.beforeSlot i).withMem _ := if_neg hn
  rw [hcopy]
  rfl

/-- A slot within bounds turns the world before it into the world before the
next one. -/
theorem execCopy_beforeSlot (w : World) {i : Nat} (hn : (slotIns w.vm i).n ≠ 0) :
    (execCopy (w.beforeSlot i) (slotIns w.vm i)).val = w.beforeSlot (i + 1) := by
  have hnote : slotNote w.vm i =
      some (.noteCopy (slotIns w.vm i).dst (slotIns w.vm i).n (slotIns w.vm i).src) :=
    if_neg hn
  have hvm : w.vm.beforeSlot (i + 1) = (w.vm.beforeSlot i).withMem (bitcpy
      (w.vm.beforeSlot i).mem (slotIns w.vm i).n 0 (slotIns w.vm i).src 0
        (slotIns w.vm i).dst).val := if_neg hn
  unfold execCopy
  simp only [World.vm_beforeSlot, Vm.hooks_beforeSlot]
  unfold World.beforeSlot World.note
  rw [hvm, slotNotes_succ, hnote]
  cases w.vm.hooks.noteCopy <;> simp [World.withVm]

theorem beforeSlot_nop (w : World) {i : Nat} (hn : (slotIns w.vm i).n = 0) :
    w.beforeSlot (i + 1) = w.beforeSlot i := by
  have hnote : slotNote w.vm i = none := if_pos hn
  have hvm : w.vm.beforeSlot (i + 1) = w.vm.beforeSlot i := if_pos hn
  unfold World.beforeSlot
  rw [hvm, slotNotes_succ, hnote]
  simp

/-- What the loop does at slot `i`: stop there, or go on behind it. -/
theorem execSlots_beforeSlot (w : World) (k i : Nat) :
    (execSlots (k + 1) i (w.beforeSlot i)).val =
      if BadSlot w.vm i then
        (.err, recordErr (w.beforeSlot i) (boundsKind (slotIns w.vm i) w.vm.spaceBits) i
          (slotIns w.vm i))
      else (execSlots k (i + 1) (w.beforeSlot (i + 1))).val := by
  rw [execSlots]
  simp only [val_bind, val_ite, World.vm_beforeSlot, Vm.geometry_beforeSlot]
  change (if (slotIns w.vm i).n = 0 then _
    else if add64 (slotIns w.vm i).src (slotIns w.vm i).n > w.vm.spaceBits then _
    else if add64 (slotIns w.vm i).dst (slotIns w.vm i).n > w.vm.spaceBits then _
    else (execSlots k (i + 1) (execCopy (w.beforeSlot i) (slotIns w.vm i)).val).val) = _
  by_cases hn : (slotIns w.vm i).n = 0
  · rw [if_pos hn, if_neg fun hbad => hbad.1 hn, beforeSlot_nop w hn]
  · rw [if_neg hn, execCopy_beforeSlot w hn]
    by_cases hsrc : add64 (slotIns w.vm i).src (slotIns w.vm i).n > w.vm.spaceBits
    · rw [if_pos hsrc, if_pos ⟨hn, Or.inl hsrc⟩, boundsKind, if_pos hsrc]
      rfl
    · rw [if_neg hsrc, boundsKind, if_neg hsrc]
      by_cases hdst : add64 (slotIns w.vm i).dst (slotIns w.vm i).n > w.vm.spaceBits
      · rw [if_pos hdst, if_pos ⟨hn, Or.inr hdst⟩]
        rfl
      · rw [if_neg hdst, if_neg fun hbad => hbad.2.elim hsrc hdst]

/-- What the loop accesses at slot `i`, and behind it. -/
theorem trace_execSlots (w : World) (k i : Nat) :
    (execSlots (k + 1) i (w.beforeSlot i)).trace =
      slotTrace w.vm i ++ if BadSlot w.vm i then []
        else (execSlots k (i + 1) (w.beforeSlot (i + 1))).trace := by
  rw [execSlots, trace_bind, trace_bind, World.vm_beforeSlot, Vm.geometry_beforeSlot]
  change _ ++ ([Event.fetch i (slotIns w.vm i)] ++
    (if (slotIns w.vm i).n = 0 then _
    else if add64 (slotIns w.vm i).src (slotIns w.vm i).n > w.vm.spaceBits then _
    else if add64 (slotIns w.vm i).dst (slotIns w.vm i).n > w.vm.spaceBits then _
    else _ : Traced Event (VmRc × World)).trace) = _
  unfold slotTrace
  rw [List.append_assoc, List.cons_append, List.cons_append, List.nil_append]
  congr 2
  by_cases hn : (slotIns w.vm i).n = 0
  · rw [if_pos hn, if_pos (Or.inl hn), if_neg fun hbad => hbad.1 hn, beforeSlot_nop w hn]
    rfl
  · rw [if_neg hn]
    by_cases hbad : BadSlot w.vm i
    · rw [if_pos hbad, if_pos (Or.inr hbad)]
      split
      · rfl
      · next hsrc =>
          rw [if_pos (hbad.2.resolve_left hsrc)]
          rfl
    · rw [if_neg fun h => hbad ⟨hn, Or.inl h⟩, if_neg fun h => hbad ⟨hn, Or.inr h⟩,
        if_neg hbad, if_neg (not_or.mpr ⟨hn, hbad⟩), ← execCopy_beforeSlot w hn]
      rfl

/-- No bad slot: the loop runs to its end. -/
theorem execSlots_ok {w : World} {k i : Nat} (h : ∀ j, i ≤ j → j < i + k → ¬ BadSlot w.vm j) :
    (execSlots k i (w.beforeSlot i)).val = (.ok, w.beforeSlot (i + k)) ∧
      slotsTrace w.vm i ++ (execSlots k i (w.beforeSlot i)).trace =
        slotsTrace w.vm (i + k) := by
  induction k generalizing i with
  | zero => exact ⟨rfl, List.append_nil _⟩
  | succ k ih =>
      have hi := h i le_rfl (by omega)
      obtain ⟨hval, htrace⟩ := @ih (i + 1) fun j h₁ h₂ => h j (by omega) (by omega)
      rw [show i + 1 + k = i + (k + 1) by omega] at hval htrace
      rw [execSlots_beforeSlot, trace_execSlots, if_neg hi, if_neg hi, ← List.append_assoc,
        ← slotsTrace_succ]
      exact ⟨hval, htrace⟩

/-- The first bad slot ends the loop before it changes anything. -/
theorem execSlots_err {w : World} {k i j : Nat} (hij : i ≤ j) (hj : j < i + k)
    (hbad : BadSlot w.vm j) (hfirst : ∀ m, i ≤ m → m < j → ¬ BadSlot w.vm m) :
    (execSlots k i (w.beforeSlot i)).val =
        (.err, recordErr (w.beforeSlot j) (boundsKind (slotIns w.vm j) w.vm.spaceBits) j
          (slotIns w.vm j)) ∧
      slotsTrace w.vm i ++ (execSlots k i (w.beforeSlot i)).trace =
        slotsTrace w.vm (j + 1) := by
  induction k generalizing i with
  | zero => omega
  | succ k ih =>
      rw [execSlots_beforeSlot, trace_execSlots]
      rcases Nat.eq_or_lt_of_le hij with rfl | hlt
      · rw [if_pos hbad, if_pos hbad, List.append_nil, ← slotsTrace_succ]
        exact ⟨rfl, rfl⟩
      · have hi := hfirst i le_rfl hlt
        obtain ⟨hval, htrace⟩ := ih hlt (by omega) fun m h₁ h₂ => hfirst m (by omega) h₂
        rw [if_neg hi, if_neg hi, ← List.append_assoc, ← slotsTrace_succ]
        exact ⟨hval, htrace⟩

/-! ## The tick -/

/-- The world after the device phase. -/
def served (w : World) : World := (mmioPhase w).val

theorem served_vm {w : World} (hs : w.vm.space.isSome) :
    Touches Set.univ w.vm.resetErr (served w).vm :=
  (mmioPhase_yields hs).result.vm

/-- Without a request the device does nothing. -/
theorem served_idle {w : World} (hout : w.vm.mem.bit w.vm.mmio.outReq = false)
    (hin : w.vm.mem.bit w.vm.mmio.inReq = false) : served w = w.withVm w.vm.resetErr := by
  have hfirst : (serviceOut (w.withVm w.vm.resetErr)).val = w.withVm w.vm.resetErr :=
    serviceOut_idle hout
  unfold served mmioPhase
  rw [val_bind, hfirst]
  exact serviceIn_idle hin

/-- The world the first slot starts from. -/
def begun (w : World) : World :=
  (served w).note (served w).vm.hooks.tickBegin (.tickBegin (served w).vm.processorN)

/-- The end of a tick that has run all its slots. -/
def World.ended (w : World) : World := (w.note w.vm.hooks.tickEnd .tickEnd).withVm w.vm.bump

/-- The bad slots among those a tick would run. -/
def badSlots (vm : Vm) : Set Nat := {i | i < vm.processorN ∧ BadSlot vm i}

/-- What a tick accesses before its slots. -/
def headTrace (w : World) : List Event :=
  (mmioPhase w).trace ++ (vmBitGet (served w).vm (served w).vm.mmio.halt).trace

/-- The outcomes of a tick, with their accesses: halt, run all slots, or stop at
the first bad one. -/
inductive TickShape (w : World) : VmRc × World → List Event → Prop
  | halt (hhalt : (served w).vm.mem.bit (served w).vm.mmio.halt = true) :
      TickShape w (.halt, (served w).withVm (served w).vm.bump) (headTrace w)
  | ok (hhalt : (served w).vm.mem.bit (served w).vm.mmio.halt = false)
      (hgood : ∀ i < (served w).vm.processorN, ¬ BadSlot (served w).vm i) :
      TickShape w (.ok, ((begun w).beforeSlot (served w).vm.processorN).ended)
        (headTrace w ++ slotsTrace (served w).vm (served w).vm.processorN)
  | err {j : Nat} (hhalt : (served w).vm.mem.bit (served w).vm.mmio.halt = false)
      (hfirst : IsLeast (badSlots (served w).vm) j) :
      TickShape w
        (.err, recordErr ((begun w).beforeSlot j)
          (boundsKind (slotIns (served w).vm j) (served w).vm.spaceBits) j
          (slotIns (served w).vm j))
        (headTrace w ++ slotsTrace (served w).vm (j + 1))

@[simp] theorem World.vm_note (w : World) (c : Bool) (e : HookEvent) :
    (w.note c e).vm = w.vm := by
  unfold World.note
  split <;> rfl

@[simp] theorem vm_begun (w : World) : (begun w).vm = (served w).vm :=
  World.vm_note _ _ _

theorem headTrace_noSlot {w : World} (hs : w.vm.space.isSome) :
    ∀ e ∈ headTrace w, e.NoSlot := by
  intro e he
  rcases List.mem_append.mp he with he | he
  · exact (mmioPhase_yields hs).events e he
  · exact (vmBitGet_yields _ _).events e he

/-- With a space, a tick is the device phase, the halt bit and the slots. -/
theorem vmTick_of_space {w : World} (hs : w.vm.space.isSome) :
    (vmTick w).val =
        (if (served w).vm.mem.bit (served w).vm.mmio.halt then
          (.halt, (served w).withVm (served w).vm.bump)
        else (slotPhase (served w)).val) ∧
      (vmTick w).trace = headTrace w ++
        if (served w).vm.mem.bit (served w).vm.mmio.halt then []
        else (slotPhase (served w)).trace := by
  have hnone : w.vm.space.isNone = false := Option.isNone_eq_false_iff.mpr hs
  unfold vmTick headTrace
  rw [hnone, if_neg Bool.false_ne_true, List.append_assoc, trace_bind, trace_bind]
  simp only [val_bind, val_ite, vmBitGet_val]
  constructor
  · rfl
  · change _ ++ (_ ++ (if (served w).vm.mem.bit (served w).vm.mmio.halt then _ else _ :
      Traced Event (VmRc × World)).trace) = _
    split <;> rfl

theorem slotPhase_of_begun (w : World) :
    (slotPhase (served w)).val =
        (if (execSlots (served w).vm.processorN 0 (begun w)).val.1 = .err then
          (execSlots (served w).vm.processorN 0 (begun w)).val
        else (.ok, (execSlots (served w).vm.processorN 0 (begun w)).val.2.ended)) ∧
      (slotPhase (served w)).trace =
        (execSlots (served w).vm.processorN 0 (begun w)).trace := by
  unfold slotPhase
  rw [trace_bind]
  simp only [val_bind, val_ite, World.vm_note]
  constructor
  · rfl
  · split <;> exact List.append_nil _

/-- **What a tick can do.** -/
theorem vmTick_shape {w : World} (hs : w.vm.space.isSome) :
    ∃ r t, vmTick w = ⟨r, t⟩ ∧ TickShape w r t := by
  refine ⟨(vmTick w).val, (vmTick w).trace, rfl, ?_⟩
  obtain ⟨hval, htrace⟩ := vmTick_of_space hs
  obtain ⟨hslots, hslotsTrace⟩ := slotPhase_of_begun w
  rw [hval, htrace]
  cases hhalt : (served w).vm.mem.bit (served w).vm.mmio.halt with
  | true =>
      rw [if_pos rfl, if_pos rfl, List.append_nil]
      exact TickShape.halt hhalt
  | false =>
      rw [if_neg Bool.false_ne_true, if_neg Bool.false_ne_true, hslots, hslotsTrace]
      by_cases hbad : ∃ i, i < (served w).vm.processorN ∧ BadSlot (served w).vm i
      · have hfirst : IsLeast (badSlots (served w).vm) (Nat.find hbad) :=
          ⟨Nat.find_spec hbad, fun i hi => Nat.find_min' hbad hi⟩
        have hbefore : ∀ m, 0 ≤ m → m < Nat.find hbad → ¬ BadSlot (begun w).vm m := by
          intro m _ hm hm'
          rw [vm_begun] at hm'
          exact Nat.find_min hbad hm ⟨hm.trans hfirst.1.1, hm'⟩
        obtain ⟨hrun, hevents⟩ := @execSlots_err (begun w) (served w).vm.processorN 0
          (Nat.find hbad) (Nat.zero_le _) (by rw [Nat.zero_add]; exact hfirst.1.1)
          (by rw [vm_begun]; exact hfirst.1.2) hbefore
        rw [World.beforeSlot_zero, vm_begun] at hrun hevents
        rw [hrun, if_pos rfl, show (execSlots _ 0 (begun w)).trace = _ from hevents]
        exact TickShape.err hhalt hfirst
      · push Not at hbad
        have hgood : ∀ j, 0 ≤ j → j < 0 + (served w).vm.processorN →
            ¬ BadSlot (begun w).vm j := by
          intro j _ hj
          rw [vm_begun]
          exact hbad j (by omega)
        obtain ⟨hrun, hevents⟩ := execSlots_ok hgood
        rw [World.beforeSlot_zero, Nat.zero_add] at hrun hevents
        rw [vm_begun] at hevents
        rw [hrun, if_neg (by rintro ⟨⟩), show (execSlots _ 0 (begun w)).trace = _ from hevents]
        exact TickShape.ok hhalt hbad

end SpaceVerifier.Runtime
