import SpaceVerifier.Metatheory.TickDiagnosis

/-!
# The hook trace

A recorder behind the three hooks sees `tick_begin`, one `note_copy` for every
copy, `tick_end`. The two error exits of the slot loop leave the tick without
its `tick_end`, and no later call makes up for it: the trace is bracketed
exactly as long as no slot is out of bounds.
-/

namespace SpaceVerifier.Runtime

open Foundation Foundation.Traced

/-! ## Blocks -/

/-- The call of `note_copy` that announces a copy. -/
def Event.noted : Event → Option HookEvent
  | .bitcpy n src dst => some (.noteCopy dst n src)
  | _ => none

/-- At most one block for the tick of `w`. Its `note_copy` events are in slot
order, and they are the copies the tick has executed. -/
inductive Block (w : World) : List HookEvent → Prop
  | none (hnone : (vmTick w).trace.filterMap Event.noted = []) : Block w []
  | tick (cap : Nat) {k : Nat} (hk : k ≤ (served w).vm.processorN)
      (hcopies : slotNotes (served w).vm k = (vmTick w).trace.filterMap Event.noted) :
      Block w (.tickBegin cap :: slotNotes (served w).vm k ++ [.tickEnd])

/-- A sequence of calls of `vm_tick` with all hooks installed: `start i` is the
world of call `i`. Between two calls the host may change what it likes, but the
recorder is left to the machine. -/
structure Calls (start : Nat → World) : Prop where
  hooks : ∀ i, (start i).vm.hooks = ⟨true, true, true⟩
  hookLog : ∀ i, (start (i + 1)).hookLog = (vmTick (start i)).val.2.hookLog

/-- The events of the first `k` calls are a sequence of blocks. -/
def Bracketed (start : Nat → World) (k : Nat) : Prop :=
  ∃ blocks : Nat → List HookEvent,
    (start k).hookLog = (start 0).hookLog ++ (List.range k).flatMap blocks ∧
      ∀ i < k, Block (start i) (blocks i)

/-- The tick ends before its slots, or none of them is out of bounds. -/
def InBounds (w : World) : Prop :=
  w.vm.space = none ∨ (served w).vm.mem.bit (served w).vm.mmio.halt = true ∨
    ∀ i < (served w).vm.processorN, ¬ BadSlot (served w).vm i

/-! ## Copies in the trace -/

theorem Event.NoSlot.noted {e : Event} (h : e.NoSlot) : e.noted = none := by
  cases e <;> first | rfl | exact h.elim

theorem noted_eq_nil {t : List Event} (h : ∀ e ∈ t, e.NoSlot) :
    t.filterMap Event.noted = [] :=
  List.filterMap_eq_nil_iff.mpr fun e he => (h e he).noted

theorem noted_slotTrace {vm : Vm} {i : Nat} (hgood : ¬ BadSlot vm i) :
    (slotTrace vm i).filterMap Event.noted = (slotNote vm i).toList := by
  have hcode := noted_eq_nil
    (vmReadInst_yields (vm.beforeSlot i) (vmProcSlotIp (vm.beforeSlot i) i)).events
  unfold slotTrace slotNote
  rw [List.filterMap_append, hcode, List.nil_append, List.filterMap_cons_none rfl]
  by_cases hn : (slotIns vm i).n = 0
  · rw [if_pos (Or.inl hn), if_pos hn]
    rfl
  · rw [if_neg (not_or.mpr ⟨hn, hgood⟩), if_neg hn]
    rfl

/-- Slots within bounds execute their copies, in slot order. -/
theorem noted_slotsTrace {vm : Vm} {k : Nat} (hgood : ∀ i < k, ¬ BadSlot vm i) :
    (slotsTrace vm k).filterMap Event.noted = slotNotes vm k := by
  induction k with
  | zero => rfl
  | succ k ih =>
      rw [slotsTrace_succ, List.filterMap_append, ih fun i hi => hgood i (Nat.lt_succ_of_lt hi),
        noted_slotTrace (hgood k (Nat.lt_succ_self k)), slotNotes_succ]

/-! ## What one tick records -/

theorem hookLog_ended {w : World} (h : w.vm.hooks.tickEnd = true) :
    w.ended.hookLog = w.hookLog ++ [.tickEnd] := by
  show (w.note _ _).hookLog = _
  rw [h]
  rfl

section Tick

variable {w : World} (hhooks : w.vm.hooks = ⟨true, true, true⟩)
include hhooks

theorem hooks_served (hs : w.vm.space.isSome) : (served w).vm.hooks = ⟨true, true, true⟩ :=
  (served_vm hs).hooks.trans hhooks

theorem hookLog_begun (hs : w.vm.space.isSome) :
    (begun w).hookLog = w.hookLog ++ [.tickBegin (served w).vm.processorN] := by
  have hlog : (served w).hookLog = w.hookLog := (mmioPhase_yields hs).result.hookLog
  unfold begun
  rw [hooks_served hhooks hs]
  show (served w).hookLog ++ _ = _
  rw [hlog]

theorem hookLog_beforeSlot (hs : w.vm.space.isSome) (i : Nat) :
    ((begun w).beforeSlot i).hookLog =
      w.hookLog ++ .tickBegin (served w).vm.processorN :: slotNotes (served w).vm i := by
  show (begun w).hookLog ++ (if (begun w).vm.hooks.noteCopy then _ else _) = _
  rw [hookLog_begun hhooks hs, vm_begun, hooks_served hhooks hs, if_pos rfl, List.append_assoc]
  rfl

/-- A tick within bounds records at most one block. -/
theorem vmTick_block (h : InBounds w) :
    ∃ b, Block w b ∧ (vmTick w).val.2.hookLog = w.hookLog ++ b := by
  cases hspace : w.vm.space with
  | none =>
      have htick : vmTick w = pure (.err, w) := by
        simp [vmTick, hspace]
      refine ⟨[], Block.none ?_, ?_⟩
      · rw [htick]
        rfl
      · rw [htick, List.append_nil]
        rfl
  | some m =>
      have hs : w.vm.space.isSome := by rw [hspace]; rfl
      have hhead := noted_eq_nil (headTrace_noSlot hs)
      obtain ⟨r, t, htick, hshape⟩ := vmTick_shape hs
      cases hshape with
      | halt =>
          refine ⟨[], Block.none ?_, ?_⟩
          · rw [htick, hhead]
          · rw [htick, List.append_nil]
            exact (mmioPhase_yields hs).result.hookLog
      | ok _ hgood =>
          refine ⟨_, Block.tick (served w).vm.processorN le_rfl ?_, ?_⟩
          · rw [htick, List.filterMap_append, hhead, noted_slotsTrace hgood, List.nil_append]
          · have hend : ((begun w).beforeSlot (served w).vm.processorN).vm.hooks.tickEnd =
                true := by
              rw [World.vm_beforeSlot, Vm.hooks_beforeSlot, vm_begun, hooks_served hhooks hs]
            rw [htick]
            show ((begun w).beforeSlot (served w).vm.processorN).ended.hookLog = _
            rw [hookLog_ended hend, hookLog_beforeSlot hhooks hs, List.append_assoc]
      | err hhalt hfirst =>
          rcases h with h | h | h
          · rw [hspace] at h
            cases h
          · rw [hhalt] at h
            cases h
          · exact absurd hfirst.1.2 (h _ hfirst.1.1)

/-- A tick with a bad slot opens a block and does not close it. -/
theorem vmTick_unclosed (h : ¬ InBounds w) : ∃ j,
    (vmTick w).val.2.hookLog =
      w.hookLog ++ .tickBegin (served w).vm.processorN :: slotNotes (served w).vm j := by
  have hs : w.vm.space.isSome := by
    rw [Option.isSome_iff_ne_none]
    exact fun hnone => h (Or.inl hnone)
  obtain ⟨r, t, htick, hshape⟩ := vmTick_shape hs
  rw [htick]
  cases hshape with
  | halt hhalt => exact absurd (Or.inr (Or.inl hhalt)) h
  | ok _ hgood => exact absurd (Or.inr (Or.inr hgood)) h
  | @err j => exact ⟨j, hookLog_beforeSlot hhooks hs j⟩

end Tick

/-! ## Open blocks -/

def HookEvent.delta : HookEvent → Int
  | .tickBegin _ => 1
  | .noteCopy _ _ _ => 0
  | .tickEnd => -1

/-- How many blocks a trace has opened and not closed. -/
def unclosed (log : List HookEvent) : Int := (log.map HookEvent.delta).sum

@[simp] theorem unclosed_nil : unclosed [] = 0 := rfl

@[simp] theorem unclosed_cons (e : HookEvent) (log : List HookEvent) :
    unclosed (e :: log) = e.delta + unclosed log := by
  simp [unclosed]

@[simp] theorem unclosed_append (log log' : List HookEvent) :
    unclosed (log ++ log') = unclosed log + unclosed log' := by
  simp [unclosed]

@[simp] theorem unclosed_slotNotes (vm : Vm) (k : Nat) : unclosed (slotNotes vm k) = 0 := by
  induction k with
  | zero => rfl
  | succ k ih =>
      rw [slotNotes_succ, unclosed_append, ih]
      unfold slotNote
      split <;> rfl

theorem Block.unclosed {w : World} {b : List HookEvent} (h : Block w b) :
    Runtime.unclosed b = 0 := by
  cases h with
  | none => rfl
  | tick cap => simp [HookEvent.delta]

theorem unclosed_flatMap {blocks : Nat → List HookEvent} {k : Nat}
    (h : ∀ i < k, unclosed (blocks i) = 0) : unclosed ((List.range k).flatMap blocks) = 0 := by
  induction k with
  | zero => rfl
  | succ k ih =>
      rw [List.range_succ, List.flatMap_append, unclosed_append,
        ih fun i hi => h i (by omega), List.flatMap_singleton, h k (by omega)]
      rfl

/-- A bracketed trace leaves nothing open. -/
theorem Bracketed.unclosed {start : Nat → World} {k : Nat} (h : Bracketed start k) :
    Runtime.unclosed (start k).hookLog = Runtime.unclosed (start 0).hookLog := by
  obtain ⟨blocks, hlog, hblocks⟩ := h
  rw [hlog, unclosed_append, unclosed_flatMap fun i hi => (hblocks i hi).unclosed, add_zero]

/-! ## Whole sequences of calls -/

section Calls

variable {start : Nat → World} (h : Calls start)
include h

theorem Calls.unclosed_succ (i : Nat) :
    unclosed (start i).hookLog ≤ unclosed (start (i + 1)).hookLog := by
  rw [h.hookLog]
  by_cases hin : InBounds (start i)
  · obtain ⟨b, hb, hlog⟩ := vmTick_block (h.hooks i) hin
    rw [hlog, unclosed_append, hb.unclosed, add_zero]
  · obtain ⟨j, hlog⟩ := vmTick_unclosed (h.hooks i) hin
    rw [hlog]
    simp [HookEvent.delta]

theorem Calls.unclosed_lt {i : Nat} (hin : ¬ InBounds (start i)) :
    unclosed (start i).hookLog < unclosed (start (i + 1)).hookLog := by
  obtain ⟨j, hlog⟩ := vmTick_unclosed (h.hooks i) hin
  rw [h.hookLog, hlog]
  simp [HookEvent.delta]

theorem Calls.bracketed {k : Nat} (hin : ∀ i < k, InBounds (start i)) : Bracketed start k := by
  have hex : ∀ i, ∃ b, i < k → Block (start i) b ∧
      (start (i + 1)).hookLog = (start i).hookLog ++ b := by
    intro i
    by_cases hi : i < k
    · obtain ⟨b, hb, hlog⟩ := vmTick_block (h.hooks i) (hin i hi)
      exact ⟨b, fun _ => ⟨hb, (h.hookLog i).trans hlog⟩⟩
    · exact ⟨[], fun hlt => absurd hlt hi⟩
  choose blocks hblocks using hex
  have hlog : ∀ n ≤ k,
      (start n).hookLog = (start 0).hookLog ++ (List.range n).flatMap blocks := by
    intro n hn
    induction n with
    | zero => simp
    | succ n ih =>
        rw [(hblocks n hn).2, ih (Nat.le_of_succ_le hn), List.range_succ, List.flatMap_append,
          List.flatMap_singleton, List.append_assoc]
  exact ⟨blocks, hlog k le_rfl, fun i hi => (hblocks i hi).1⟩

/-- **The hook trace is well bracketed if and only if no call runs into a slot
out of bounds**, for any sequence of calls of any machine. -/
theorem hookTrace_bracketed_iff (k : Nat) :
    Bracketed start k ↔ ∀ i < k, InBounds (start i) := by
  constructor
  · intro hk i hi
    by_contra hin
    have hmono : Monotone fun i => unclosed (start i).hookLog :=
      monotone_nat_of_le_succ h.unclosed_succ
    have hless : unclosed (start 0).hookLog < unclosed (start k).hookLog :=
      calc unclosed (start 0).hookLog
        _ ≤ unclosed (start i).hookLog := hmono (Nat.zero_le i)
        _ < unclosed (start (i + 1)).hookLog := h.unclosed_lt hin
        _ ≤ unclosed (start k).hookLog := hmono hi
    exact hless.ne hk.unclosed.symm
  · exact h.bracketed

end Calls

/-! ## The error exits -/

theorem vmTick_hooks (w : World) : (vmTick w).val.2.vm.hooks = w.vm.hooks := by
  cases hspace : w.vm.space with
  | none => simp [vmTick, hspace]
  | some m =>
      have hs : w.vm.space.isSome := by rw [hspace]; rfl
      have hserved : (served w).vm.hooks = w.vm.hooks := (served_vm hs).hooks
      obtain ⟨r, t, htick, hshape⟩ := vmTick_shape hs
      rw [htick]
      cases hshape with
      | halt => exact hserved
      | ok =>
          show ((begun w).vm.beforeSlot _).hooks = _
          rw [Vm.hooks_beforeSlot, vm_begun, hserved]
      | err =>
          show ((begun w).vm.beforeSlot _).hooks = _
          rw [Vm.hooks_beforeSlot, vm_begun, hserved]

/-- Calls one after the other, without a host between them. -/
theorem calls_ticks {w : World} (h : w.vm.hooks = ⟨true, true, true⟩) :
    Calls fun i => (ticks i w).val := by
  constructor
  · intro i
    induction i with
    | zero => exact h
    | succ i ih =>
        rw [ticks_succ_last, vmTick_hooks]
        exact ih
  · intro i
    rw [ticks_succ_last]

/-- With a space, the error exits are those of the slot loop. -/
theorem vmTick_err_iff {w : World} (hs : w.vm.space.isSome) :
    (vmTick w).val.1 = .err ↔ ¬ InBounds w := by
  obtain ⟨r, t, htick, hshape⟩ := vmTick_shape hs
  rw [htick]
  cases hshape with
  | halt hhalt => exact iff_of_false (by rintro ⟨⟩) fun hno => hno (Or.inr (Or.inl hhalt))
  | ok _ hgood => exact iff_of_false (by rintro ⟨⟩) fun hno => hno (Or.inr (Or.inr hgood))
  | err hhalt hfirst =>
      refine iff_of_true rfl ?_
      rintro (h | h | h)
      · rw [h] at hs
        cases hs
      · rw [hhalt] at h
        cases h
      · exact h _ hfirst.1.1 hfirst.1.2

/-- The smallest machine with a recorder behind its hooks. -/
def hookedWorld (m : Mem) : World :=
  bareWorld { smallVm with space := some m, hooks := ⟨true, true, true⟩ }

/-- One copy of eight bits inside the workspace. -/
def copyMem : Mem := fun j => [8, 88, 80].getD j 0

theorem hookTrace_bracketed_copy :
    Bracketed (fun i => (ticks i (hookedWorld copyMem)).val) 1 := by
  have hmem : (hookedWorld copyMem).vm.mem = copyMem := rfl
  have hin : InBounds (hookedWorld copyMem) := by
    by_contra hno
    rw [← vmTick_err_iff rfl, vmTick_small_err_iff ⟨rfl, rfl⟩ hmem (by decide)] at hno
    exact absurd hno (by decide)
  rw [hookTrace_bracketed_iff (calls_ticks rfl)]
  intro i hi
  obtain rfl := Nat.lt_one_iff.mp hi
  exact hin

/-- A slot out of bounds: the block of its tick is never closed. -/
theorem hookTrace_unbracketed :
    Calls (fun i => (ticks i (hookedWorld brokenMem)).val) ∧
      ¬ Bracketed (fun i => (ticks i (hookedWorld brokenMem)).val) 1 := by
  have hcalls : Calls fun i => (ticks i (hookedWorld brokenMem)).val := calls_ticks rfl
  have hmem : (hookedWorld brokenMem).vm.mem = brokenMem := rfl
  have hout : ¬ InBounds (hookedWorld brokenMem) := by
    rw [← vmTick_err_iff rfl, vmTick_small_err_iff ⟨rfl, rfl⟩ hmem (by decide)]
    decide
  refine ⟨hcalls, fun h => ?_⟩
  have hopened := @Calls.unclosed_lt _ hcalls 0 hout
  exact hopened.ne h.unclosed.symm

end SpaceVerifier.Runtime
