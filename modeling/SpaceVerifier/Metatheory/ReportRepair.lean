import SpaceVerifier.Metatheory.ReportAccounts
import SpaceVerifier.Metatheory.VerifyThenRun

/-!
# A report as a list of things to do

The scan line of L2 compares neighbours only, so a report does not list every
overlap. It lists enough: silence the slots that its violations and the first
slots that its conflicts name, and what is left has no overlap and no violation.
So one report is all a repair has to look at.
-/

namespace SpaceVerifier.Verifier

open Foundation

/-! ## Layers with silenced slots -/

/-- The report asks for slot `slot` of layer `tick`. -/
def Report.Names (rep : Report) (tick slot : Nat) : Prop :=
  (∃ m, rep.memory = some m ∧ ∃ v ∈ m.violations, v.tick = tick ∧ v.slot = slot) ∨
    ∃ l2, rep.conflict = some l2 ∧ ∃ c ∈ l2.conflicts, c.tick = tick ∧ c.slotA = slot

/-- The instruction is a NOP now, or nothing asks for it and it is as it was. -/
def Silenced (named : Nat → Prop) (ins ins' : Instruction) : Prop :=
  ins'.isNop = true ∨ (ins' = ins ∧ ¬ named ins.slot)

/-- `layers'` are the layers with at least the named slots silenced. -/
structure Repairs (rep : Report) (layers layers' : List (List Instruction)) : Prop where
  length : layers'.length = layers.length
  silenced : ∀ i instrs', layers'[i]? = some instrs' → ∃ instrs, layers[i]? = some instrs ∧
    List.Forall₂ (Silenced (rep.Names i)) instrs instrs'

section Layer

variable {named : Nat → Prop} {instrs instrs' : List Instruction}

theorem active_silenced (h : List.Forall₂ (Silenced named) instrs instrs') :
    (active instrs').Sublist (active instrs) ∧ ∀ ins ∈ active instrs', ¬ named ins.slot := by
  unfold active
  induction h with
  | nil => exact ⟨List.Sublist.refl _, fun ins hins => absurd hins List.not_mem_nil⟩
  | cons hhead _ ih =>
      obtain ⟨hsub, hfree⟩ := ih
      rcases hhead with hnop | ⟨rfl, hnot⟩
      · rw [List.filter_cons_of_neg (by simp [hnop])]
        exact ⟨hsub.trans (List.Sublist.filter _ (List.sublist_cons_self _ _)), hfree⟩
      · constructor
        · rw [List.filter_cons, List.filter_cons]
          split
          · exact hsub.cons_cons _
          · exact hsub
        · intro ins hins
          rcases List.mem_cons.mp (List.mem_of_mem_filter hins) with rfl | hrest
          · exact hnot
          · exact hfree ins (List.mem_filter.mpr ⟨hrest, (List.mem_filter.mp hins).2⟩)

/-- **What L2 does not name has no conflict.** Two ranges that share a bit are not
always compared, but the first slot of some conflict is one of their two slots. -/
theorem silenced_conflictFree (hslots : (instrs.map (·.slot)).Nodup) (tick : Nat)
    (hnamed : ∀ c ∈ checkTick instrs tick, named c.slotA)
    (h : List.Forall₂ (Silenced named) instrs instrs') : ConflictFree instrs' := by
  obtain ⟨hsub, hfree⟩ := active_silenced h
  have hintervals : (tickIntervals instrs').Sublist (tickIntervals instrs) := hsub.flatMap _
  have hkeys := (tickIntervals_keys_nodup hslots).sublist (hintervals.map _)
  rw [List.Nodup, List.pairwise_map] at hkeys
  rw [ConflictFree, roundRanges_eq_map, List.pairwise_map]
  have hunnamed : ∀ i ∈ tickIntervals instrs', ¬ named i.slot := by
    intro i hi
    obtain ⟨ins, hins, hn, -, hslot⟩ := mem_tickIntervals.mp hi
    rw [← hslot]
    exact hfree ins (mem_active.mpr ⟨hins, hn⟩)
  refine hkeys.imp_of_mem fun hi hj hkey => ?_
  by_contra hmeet
  obtain ⟨c, hc, hslot⟩ := @exists_named instrs tick _ _ (hintervals.subset hi)
    (hintervals.subset hj) (fun heq => hkey (congrArg Interval.key heq)) hmeet
  rcases hslot with hslot | hslot
  · exact hunnamed _ hi (hslot ▸ hnamed c hc)
  · exact hunnamed _ hj (hslot ▸ hnamed c hc)

theorem checkInstrs_of_nil {cfg : Config} {tick : Nat}
    (h : ∀ ins ∈ instrs, checkInstr cfg tick ins = .ok []) :
    checkInstrs cfg tick instrs = .ok [] := by
  induction instrs with
  | nil => rfl
  | cons ins rest ih =>
      obtain ⟨hins, hrest⟩ := List.forall_mem_cons.mp h
      rw [checkInstrs, hins, ih hrest]
      rfl

/-- What L1 does not name passes L1. -/
theorem silenced_checkLayer {cfg : Config} {tick : Nat} {res : MemoryCheckResult}
    (hres : checkLayer cfg instrs tick = .ok res) (hnamed : ∀ v ∈ res.violations, named v.slot)
    (h : List.Forall₂ (Silenced named) instrs instrs') :
    ∃ res', checkLayer cfg instrs' tick = .ok res' ∧ res'.status = .pass := by
  obtain ⟨vs, hvs, hres⟩ := bind_eq_ok.mp hres
  obtain rfl := Except.ok.inj hres
  obtain ⟨vss, hvss, rfl⟩ := checkInstrs_eq_ok.mp hvs
  have hnil : ∀ ins' ∈ instrs', checkInstr cfg tick ins' = .ok [] := by
    intro ins' hins'
    obtain ⟨ins, hins, hnop | ⟨rfl, hnot⟩⟩ := exists_left_of_forall₂ h hins'
    · rw [checkInstr, hnop]
      rfl
    · obtain ⟨here, hhere, hcheck⟩ := exists_right_of_forall₂ (mapM_eq_ok_iff.mp hvss) hins
      rw [hcheck]
      -- a violation of this instruction would name its slot
      refine congrArg Except.ok (List.eq_nil_iff_forall_not_mem.mpr fun v hv => hnot ?_)
      obtain ⟨-, reason, rfl⟩ := checkInstr_mem hcheck hv
      exact hnamed _ (List.mem_flatten_of_mem hhere hv)
  exact ⟨_, bind_eq_ok.mpr ⟨_, checkInstrs_of_nil hnil, rfl⟩, rfl⟩

end Layer

/-! ## The whole report -/

section Report

variable {env env' : Env} {args args' : Args} {rep : Report} {cfg : Config}
  {layers layers' : List (List Instruction)}

/-- **One report is enough to repair.** Silence at least the slots that a printed
report names, in whatever files: with the same configuration they pass. -/
theorem repaired_passes (h : Prints env args rep) (hparse : Parses env args cfg layers)
    (hparse' : Parses env' args' cfg layers') (hl1 : args'.l2Only = false → args.l2Only = false)
    (hrepairs : Repairs rep layers layers') : (main env' args').status = 0 := by
  obtain ⟨cfg₀, layers₀, memory, hparse₀, hne, hmem, -, rfl⟩ := prints_iff.mp h
  obtain ⟨rfl, rfl⟩ := hparse₀.unique hparse
  have hslots : ∀ instrs ∈ layers₀, (instrs.map (·.slot)).Nodup := by
    intro instrs hinstrs
    obtain ⟨path, -, data, -, hread⟩ := exists_left_of_forall₂ hparse.images hinstrs
    obtain ⟨k, -, hk⟩ := read_slots hread
    rw [hk]
    exact List.nodup_range
  have hne' : layers' ≠ [] := by
    rw [← List.length_pos_iff, hrepairs.length]
    exact List.length_pos_iff.mpr hne
  refine status_of_clean ⟨cfg₀, layers', hparse', fun hoff => ?_, ?_⟩ ?_
  · cases memory with
    | none =>
        have hon := l1Part_none.mp hmem
        rw [hl1 hoff] at hon
        cases hon
    | some m =>
        obtain ⟨parts, -, hparts, hall⟩ := merge_parts (l1Part_some.mp hmem).2
        intro i instrs' hi
        obtain ⟨instrs, hinstrs, hsilenced⟩ := hrepairs.silenced i instrs' hi
        obtain ⟨res, hpart, hres⟩ := hparts i instrs hinstrs
        rw [Nat.zero_add] at hres
        refine silenced_checkLayer hres (fun v hv => Or.inl ⟨m, rfl, v, ?_, ?_, rfl⟩) hsilenced
        · rw [hall]
          exact List.mem_flatten_of_mem
            (List.mem_map_of_mem (List.mem_of_getElem? hpart)) hv
        · exact (checkLayer_mem hres hv).1
  · intro instrs' hinstrs'
    obtain ⟨i, hi⟩ := List.mem_iff_getElem?.mp hinstrs'
    obtain ⟨instrs, hinstrs, hsilenced⟩ := hrepairs.silenced i instrs' hi
    have hnodup := hslots instrs (List.mem_of_getElem? hinstrs)
    refine silenced_conflictFree hnodup i
      (fun c hc => Or.inr ⟨_, rfl, c, ?_, (checkTick_mem hnodup hc).1, rfl⟩) hsilenced
    show c ∈ layerConflicts 0 layers₀
    rw [layerConflicts_eq_flatten]
    refine List.mem_flatten_of_mem (List.mem_of_getElem? (i := i) ?_) hc
    rw [List.getElem?_mapIdx, hinstrs, Nat.zero_add]
    rfl
  · intro hnone
    have himages := hparse'.images
    rw [hnone] at himages
    exact hne' (List.forall₂_nil_left_iff.mp himages)

end Report

/-! ## The repaired clash -/

theorem clash_repairs : Repairs clashReport [clashLayer 8] [clashLayer 0] where
  length := rfl
  silenced := by
    intro i instrs' hi
    have hfirst : ∀ c ∈ (checkLayers [clashLayer 8]).conflicts, c.slotA = 0 := by decide
    have hunnamed : ¬ clashReport.Names 0 1 := by
      rintro (⟨m, hm, v, hv, -, hslot⟩ | ⟨l2, hl2, c, hc, -, hslot⟩)
      · obtain rfl := Option.some.inj hm
        obtain rfl := List.mem_singleton.mp hv
        cases hslot
      · obtain rfl := Option.some.inj hl2
        rw [hfirst c hc] at hslot
        cases hslot
    cases i with
    | zero =>
        obtain rfl := Option.some.inj hi
        exact ⟨_, rfl, .cons (Or.inl rfl) (.cons (Or.inr ⟨rfl, hunnamed⟩) .nil)⟩
    | succ i => cases hi

/-- The image fails, and passes without the slot that its violation names, which is
also the first one of its conflict. -/
theorem repaired_passes_clash :
    (main clashEnv (clashArgs "clash.bin")).status = 1 ∧
      (main clashEnv (clashArgs "fixed.bin")).status = 0 :=
  ⟨by decide +kernel, repaired_passes clash_prints clash_parses fixed_parses (fun _ => rfl) clash_repairs⟩

end SpaceVerifier.Verifier
