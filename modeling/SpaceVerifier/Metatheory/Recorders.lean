import SpaceVerifier.Runtime.Callbacks
import SpaceVerifier.Metatheory.CoreMachine

/-!
# Callbacks that record

A callback that leaves the machine and its streams alone cannot be told from a
missing one by them. The hooks that `Runtime.Tick` models are such callbacks.
-/

namespace SpaceVerifier.Runtime

open Foundation Foundation.Traced

/-- The two worlds have the same machine and the same streams. -/
def World.SameMachine (w w' : World) : Prop := w.vm = w'.vm ∧ w.inp = w'.inp ∧ w.out = w'.out

/-- Callbacks that may use the data of the host and print, and that leave the machine and
its streams as they find them. -/
structure Callbacks.Recording {U : Type} (cb : Callbacks U) : Prop where
  tickBegin : ∀ f, cb.tickBegin = some f → ∀ n s, (f n s).2.SameMachine s.2
  noteCopy : ∀ f, cb.noteCopy = some f → ∀ dst n src s, (f dst n src s).2.SameMachine s.2
  tickEnd : ∀ f, cb.tickEnd = some f → ∀ s, (f s).2.SameMachine s.2

namespace Callbacks.Recording

variable {U : Type} {cb : Callbacks U} (hcb : cb.Recording) (s : U × World)

theorem none : (Callbacks.none : Callbacks U).Recording where
  tickBegin := by rintro f ⟨⟩
  noteCopy := by rintro f ⟨⟩
  tickEnd := by rintro f ⟨⟩

include hcb

theorem callTickBegin : (callTickBegin cb s).2.SameMachine s.2 := by
  unfold Runtime.callTickBegin
  split
  · next f hf => exact hcb.tickBegin f hf _ s
  · exact ⟨rfl, rfl, rfl⟩

theorem callNoteCopy (ins : VmInst) : (callNoteCopy cb s ins).2.SameMachine s.2 := by
  unfold Runtime.callNoteCopy
  split
  · next f hf => exact hcb.noteCopy f hf _ _ _ s
  · exact ⟨rfl, rfl, rfl⟩

theorem callTickEnd : (callTickEnd cb s).2.SameMachine s.2 := by
  unfold Runtime.callTickEnd
  split
  · next f hf => exact hcb.tickEnd f hf s
  · exact ⟨rfl, rfl, rfl⟩

end Callbacks.Recording

/-! ## The core is the same -/

section Core

variable {U : Type} {cb : Callbacks U} {g : VmGeometry} {w w' v : World}

theorem SameCore.mem_eq (h : SameCore Set.univ g w w') : w.vm.mem = w'.vm.mem :=
  eq_of_eqOn_univ h.bits

theorem SameCore.readUint (h : SameCore Set.univ g w w') (pos width : Nat) :
    (vmReadUint w.vm pos width).val = (vmReadUint w'.vm pos width).val := by
  unfold vmReadUint vmBitGet
  rw [h.mem_eq]

theorem SameCore.readInst (h : SameCore Set.univ g w w') (ip : Nat) :
    (vmReadInst w.vm ip).val = (vmReadInst w'.vm ip).val := by
  unfold vmReadInst
  simp only [val_bind, val_pure]
  rw [h.readUint, h.readUint, h.readUint, h.left.geometry, h.right.geometry]

theorem SameCore.of_sameMachine (h : SameCore Set.univ g w w') (hv : v.SameMachine w) :
    SameCore Set.univ g v w' := by
  obtain ⟨hvm, hinp, hout⟩ := hv
  exact ⟨⟨hvm ▸ h.left.geometry, hvm ▸ h.left.space⟩, h.right, hvm ▸ h.bits,
    hinp.trans h.inp, hout.trans h.out, hvm ▸ h.tickCounter⟩

theorem SameCore.note (h : SameCore Set.univ g w w') (installed : Bool) (e : HookEvent) :
    SameCore Set.univ g w (w'.note installed e) := by
  cases installed
  · exact h
  · exact ⟨h.left, ⟨h.right.geometry, h.right.space⟩, h.bits, h.inp, h.out, h.tickCounter⟩

theorem SameCore.recordErr (h : SameCore Set.univ g w w') (kind : VmErrKind) (slot : Nat)
    (ins : VmInst) :
    SameCore Set.univ g (recordErr w kind slot ins) (recordErr w' kind slot ins) :=
  ⟨⟨h.left.geometry, h.left.space⟩, ⟨h.right.geometry, h.right.space⟩, h.bits, h.inp, h.out,
    h.tickCounter⟩

theorem SameCore.bump (h : SameCore Set.univ g w w') :
    SameCore Set.univ g (w.withVm w.vm.bump) (w'.withVm w'.vm.bump) :=
  ⟨⟨h.left.geometry, h.left.space⟩, ⟨h.right.geometry, h.right.space⟩, h.bits, h.inp, h.out,
    congrArg (fun t => (t + 1) % 2 ^ 64) h.tickCounter⟩

section Slots

variable (hcb : cb.Recording)
include hcb

theorem execCopyWith_same {s : U × World} (h : SameCore Set.univ g s.2 w') (ins : VmInst) :
    SameCore Set.univ g (execCopyWith cb s ins).val.2 (execCopy w' ins).val := by
  have hcall := (h.of_sameMachine (hcb.callNoteCopy s ins)).note w'.vm.hooks.noteCopy
    (.noteCopy ins.dst ins.n ins.src)
  refine ⟨⟨hcall.left.geometry, rfl⟩, ⟨hcall.right.geometry, rfl⟩, ?_, hcall.inp, hcall.out,
    hcall.tickCounter⟩
  exact VmInst.local_univ ins _ _ hcall.bits

/-- The slots, whoever is told of their copies. -/
theorem execSlotsWith_same (k i : Nat) {s : U × World} (h : SameCore Set.univ g s.2 w') :
    (execSlotsWith cb k i s).val.1 = (execSlots k i w').val.1 ∧
      SameCore Set.univ g (execSlotsWith cb k i s).val.2.2 (execSlots k i w').val.2 := by
  induction k generalizing i s w' with
  | zero => exact ⟨rfl, h⟩
  | succ k ih =>
      have hgeo : s.2.vm.toVmGeometry = w'.vm.toVmGeometry :=
        h.left.geometry.trans h.right.geometry.symm
      have hip : vmProcSlotIp s.2.vm i = vmProcSlotIp w'.vm i := by
        unfold vmProcSlotIp
        rw [hgeo]
      have hins := h.readInst (vmProcSlotIp w'.vm i)
      have hsize := congrArg VmGeometry.spaceBits hgeo
      rw [execSlotsWith, execSlots]
      simp only [val_bind, val_ite, val_pure]
      rw [hip, hins, hsize]
      split
      · exact ih (i + 1) h
      split
      · exact ⟨rfl, h.recordErr _ _ _⟩
      split
      · exact ⟨rfl, h.recordErr _ _ _⟩
      · exact ih (i + 1) (execCopyWith_same hcb h _)

theorem slotPhaseWith_same {s : U × World} (h : SameCore Set.univ g s.2 w') :
    (slotPhaseWith cb s).val.1 = (slotPhase w').val.1 ∧
      SameCore Set.univ g (slotPhaseWith cb s).val.2.2 (slotPhase w').val.2 := by
  have hbegun := (h.of_sameMachine (hcb.callTickBegin s)).note w'.vm.hooks.tickBegin
    (.tickBegin w'.vm.processorN)
  obtain ⟨hrc, hslots⟩ := execSlotsWith_same hcb g.processorN 0 hbegun
  unfold slotPhaseWith slotPhase
  simp only [val_bind, val_ite, val_pure, hbegun.left.processorN, hbegun.right.processorN]
  rw [← h.right.processorN] at hrc hslots ⊢
  rw [hrc]
  split
  · exact ⟨hrc, hslots⟩
  · exact ⟨rfl, ((hslots.of_sameMachine (hcb.callTickEnd _)).note _ .tickEnd).bump⟩

end Slots

section Ticks

theorem vmTickWith_val {s : U × World} (hs : s.2.vm.space.isSome) :
    (vmTickWith cb s).val =
      if halts s.2 then (.halt, s.1, (served s.2).withVm (served s.2).vm.bump)
      else (slotPhaseWith cb (s.1, served s.2)).val := by
  have hnone : s.2.vm.space.isNone = false := Option.isNone_eq_false_iff.mpr hs
  unfold vmTickWith
  rw [hnone, if_neg Bool.false_ne_true]
  simp only [val_bind, val_ite, vmBitGet_val]
  rfl

variable (hg : g.Wf) (ha : g.addrBits ≤ 56) (hcb : cb.Recording)
include hg ha hcb

/-- **A tick whose callbacks record** is the tick that has no callbacks. -/
theorem vmTickWith_same {s : U × World} (h : SameCore Set.univ g s.2 w') :
    (vmTickWith cb s).val.1 = (vmTick w').val.1 ∧
      SameCore Set.univ g (vmTickWith cb s).val.2.2 (vmTick w').val.2 := by
  have hserved := served_same hg (Set.subset_univ _) ha h
  rw [vmTickWith_val h.left.space, (vmTick_of_space h.right.space).1,
    halts_same hg (Set.subset_univ _) ha h]
  unfold halts
  split
  · exact ⟨rfl, hserved.bump⟩
  · exact slotPhaseWith_same hcb hserved

theorem vmRunWith_same (life : Nat) {s : U × World} (h : SameCore Set.univ g s.2 w') :
    (vmRunWith cb life s).val.1 = (vmRun life w').val.1 ∧
      SameCore Set.univ g (vmRunWith cb life s).val.2.2 (vmRun life w').val.2 := by
  induction life generalizing s w' with
  | zero => exact ⟨rfl, h⟩
  | succ life ih =>
      obtain ⟨hrc, hnext⟩ := vmTickWith_same hg ha hcb h
      rw [vmRunWith, vmRun]
      simp only [val_bind, val_ite, val_pure]
      rw [hrc]
      split
      · exact ⟨hrc, hnext⟩
      · exact ih hnext

end Ticks

end Core

/-! ## The hooks of the tick model -/

/-- Callbacks that append what they are told to the log of the world. -/
def recorders (U : Type) (hooks : VmHooks) : Callbacks U :=
  { tickBegin := if hooks.tickBegin then
      some fun n s => (s.1, s.2.note true (.tickBegin n)) else none
    noteCopy := if hooks.noteCopy then
      some fun dst n src s => (s.1, s.2.note true (.noteCopy dst n src)) else none
    tickEnd := if hooks.tickEnd then some fun s => (s.1, s.2.note true .tickEnd) else none }

section Log

variable {U : Type}

theorem recorders_recording (hooks : VmHooks) : (recorders U hooks).Recording := by
  have hlog : ∀ (w : World) e, (w.note true e).SameMachine w := fun _ _ => ⟨rfl, rfl, rfl⟩
  constructor
  · intro f hf n s
    obtain ⟨-, hf⟩ := Option.ite_none_right_eq_some.mp hf
    obtain rfl := Option.some.inj hf
    exact hlog _ _
  · intro f hf dst n src s
    obtain ⟨-, hf⟩ := Option.ite_none_right_eq_some.mp hf
    obtain rfl := Option.some.inj hf
    exact hlog _ _
  · intro f hf s
    obtain ⟨-, hf⟩ := Option.ite_none_right_eq_some.mp hf
    obtain rfl := Option.some.inj hf
    exact hlog _ _

variable (u : U) {w : World} {hooks : VmHooks}

theorem callTickBegin_recorders : callTickBegin (recorders U hooks) (u, w) =
    (u, w.note hooks.tickBegin (.tickBegin w.vm.processorN)) := by
  obtain ⟨tickBegin, noteCopy, tickEnd⟩ := hooks
  cases tickBegin <;> rfl

theorem callNoteCopy_recorders (ins : VmInst) : callNoteCopy (recorders U hooks) (u, w) ins =
    (u, w.note hooks.noteCopy (.noteCopy ins.dst ins.n ins.src)) := by
  obtain ⟨tickBegin, noteCopy, tickEnd⟩ := hooks
  cases noteCopy <;> rfl

theorem callTickEnd_recorders : callTickEnd (recorders U hooks) (u, w) =
    (u, w.note hooks.tickEnd .tickEnd) := by
  obtain ⟨tickBegin, noteCopy, tickEnd⟩ := hooks
  cases tickEnd <;> rfl

variable (hh : w.vm.hooks = hooks)
include hh

theorem execCopyWith_recorders (ins : VmInst) :
    (execCopyWith (recorders U hooks) (u, w) ins).val = (u, (execCopy w ins).val) ∧
      (execCopy w ins).val.vm.hooks = hooks := by
  have hnote := World.vm_note w w.vm.hooks.noteCopy (.noteCopy ins.dst ins.n ins.src)
  unfold execCopyWith execCopy
  simp only [val_bind, val_pure, callNoteCopy_recorders]
  refine ⟨by rw [← hh], ?_⟩
  show (w.note w.vm.hooks.noteCopy (.noteCopy ins.dst ins.n ins.src)).vm.hooks = hooks
  rw [hnote, hh]

/-- The slots note their copies alike. -/
theorem execSlotsWith_recorders (k i : Nat) :
    (execSlotsWith (recorders U hooks) k i (u, w)).val =
        ((execSlots k i w).val.1, u, (execSlots k i w).val.2) ∧
      (execSlots k i w).val.2.vm.hooks = hooks := by
  induction k generalizing i w with
  | zero => exact ⟨rfl, hh⟩
  | succ k ih =>
      rw [execSlotsWith, execSlots]
      simp only [val_bind, val_ite, val_pure]
      split
      · exact ih hh (i + 1)
      split
      · exact ⟨rfl, hh⟩
      split
      · exact ⟨rfl, hh⟩
      · obtain ⟨hcopy, hhooks⟩ :=
          execCopyWith_recorders u hh (vmReadInst w.vm (vmProcSlotIp w.vm i)).val
        rw [hcopy]
        exact ih hhooks (i + 1)

/-- **The hooks of the tick model are callbacks** that keep a log. -/
theorem vmTickWith_recorders (hs : w.vm.space.isSome) :
    (vmTickWith (recorders U hooks) (u, w)).val = ((vmTick w).val.1, u, (vmTick w).val.2) := by
  have hserved : (served w).vm.hooks = hooks := (served_vm hs).hooks.trans hh
  rw [vmTickWith_val hs, (vmTick_of_space hs).1]
  unfold halts
  split
  · rfl
  · unfold slotPhaseWith slotPhase
    have hbegun : ((served w).note hooks.tickBegin
        (.tickBegin (served w).vm.processorN)).vm.hooks = hooks := by
      rw [World.vm_note, hserved]
    obtain ⟨hslots, hhooks⟩ := execSlotsWith_recorders u hbegun (served w).vm.processorN 0
    simp only [val_bind, val_ite, val_pure, callTickBegin_recorders, World.vm_note, hserved,
      hslots, hhooks, callTickEnd_recorders]
    split <;> rfl

end Log

end SpaceVerifier.Runtime
