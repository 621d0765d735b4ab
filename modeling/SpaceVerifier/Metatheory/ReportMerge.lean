import SpaceVerifier.Metatheory.ExitCodes

/-!
# The report of several layers

A layer is judged on its own: it never meets the instructions of another layer,
and its number is only copied into the entries about it. So the report of a
command line is put together from the reports of its parts, and every entry of
it is about a slot of one of the files.
-/

namespace SpaceVerifier.Verifier

open Foundation

/-! ## One report behind the other -/

def Violation.later (k : Nat) (v : Violation) : Violation := { v with tick := v.tick + k }

def Conflict.later (k : Nat) (c : Conflict) : Conflict := { c with tick := c.tick + k }

def Status.and : Status → Status → Status
  | .pass, s => s
  | .fail, _ => .fail

/-- The result of L1 on `k` layers and on the ones behind them. -/
def MemoryCheckResult.andThen (k : Nat) (r r' : MemoryCheckResult) : MemoryCheckResult :=
  { status := r.status.and r'.status
    violations := r.violations ++ r'.violations.map (Violation.later k)
    totalChecked := r.totalChecked + r'.totalChecked
    totalNop := r.totalNop + r'.totalNop }

/-- The same for L2, which counts its layers. -/
def ConflictCheckResult.andThen (r r' : ConflictCheckResult) : ConflictCheckResult :=
  { status := r.status.and r'.status
    conflicts := r.conflicts ++ r'.conflicts.map (Conflict.later r.layersChecked)
    layersChecked := r.layersChecked + r'.layersChecked
    totalNonNop := r.totalNonNop + r'.totalNonNop }

/-- A level that one of the reports does not have is not in the common report. -/
def Report.andThen (r r' : Report) : Report :=
  { memory := do
      let c ← r.conflict
      return (← r.memory).andThen c.layersChecked (← r'.memory)
    conflict := do return (← r.conflict).andThen (← r'.conflict) }

/-! ## The number of a layer -/

section Later

variable {cfg : Config} {tick k : Nat}

theorem Violation.later_later (j k : Nat) (v : Violation) :
    (v.later j).later k = v.later (j + k) := by
  simp only [Violation.later, Nat.add_assoc]

/-- The number of the layer is only copied into the violations. -/
theorem checkInstr_later {ins : Instruction} {vs : List Violation}
    (h : checkInstr cfg tick ins = .ok vs) :
    checkInstr cfg (tick + k) ins = .ok (vs.map (Violation.later k)) := by
  cases hnop : ins.isNop with
  | true =>
      rw [checkInstr, hnop] at h ⊢
      obtain rfl := Except.ok.inj h
      rfl
  | false =>
      obtain ⟨bits, hbits, hcase⟩ := (checkInstr_eq_ok hnop).mp h
      refine (checkInstr_eq_ok hnop).mpr ⟨bits, hbits, ?_⟩
      rcases hcase with ⟨hout, rfl⟩ | ⟨hin, hit, hhit, hregions⟩
      · exact Or.inl ⟨hout, rfl⟩
      · refine Or.inr ⟨hin, hit, hhit, ?_⟩
        have hpart : (protectedPart tick ins hit).map (Violation.later k) =
            protectedPart (tick + k) ins hit := by
          cases hit <;> rfl
        rcases hregions with ⟨hnone, rfl⟩ | ⟨hsome, inside, hinside, rfl⟩
        · exact Or.inl ⟨hnone, hpart⟩
        · refine Or.inr ⟨hsome, inside, hinside, ?_⟩
          rw [List.map_append, hpart]
          cases inside <;> rfl

theorem checkInstrs_later {instrs : List Instruction} {vs : List Violation}
    (h : checkInstrs cfg tick instrs = .ok vs) :
    checkInstrs cfg (tick + k) instrs = .ok (vs.map (Violation.later k)) := by
  induction instrs generalizing vs with
  | nil =>
      obtain rfl := Except.ok.inj h
      rfl
  | cons ins rest ih =>
      obtain ⟨here, hhere, h⟩ := bind_eq_ok.mp h
      obtain ⟨others, hothers, h⟩ := bind_eq_ok.mp h
      obtain rfl := Except.ok.inj h
      refine bind_eq_ok.mpr ⟨_, checkInstr_later hhere, ?_⟩
      refine bind_eq_ok.mpr ⟨_, ih hothers, ?_⟩
      rw [List.map_append]
      rfl

theorem checkLayer_later {instrs : List Instruction} {res : MemoryCheckResult}
    (h : checkLayer cfg instrs tick = .ok res) :
    checkLayer cfg instrs (tick + k) =
      .ok { res with violations := res.violations.map (Violation.later k) } := by
  obtain ⟨vs, hvs, h⟩ := bind_eq_ok.mp h
  obtain rfl := Except.ok.inj h
  refine bind_eq_ok.mpr ⟨_, checkInstrs_later hvs, ?_⟩
  rw [List.isEmpty_map]
  rfl

/-- The merged result, its layers numbered `k` higher. -/
theorem merge_later {layers : List (List Instruction)} {m : MemoryCheckResult}
    (h : mergeMemoryResults cfg tick layers = .ok m) :
    mergeMemoryResults cfg (tick + k) layers =
      .ok { m with violations := m.violations.map (Violation.later k) } := by
  induction layers generalizing tick m with
  | nil =>
      obtain rfl := Except.ok.inj h
      rfl
  | cons instrs rest ih =>
      obtain ⟨res, hres, h⟩ := bind_eq_ok.mp h
      obtain ⟨others, hothers, h⟩ := bind_eq_ok.mp h
      obtain rfl := Except.ok.inj h
      have hrest := ih hothers
      rw [show tick + 1 + k = tick + k + 1 by omega] at hrest
      refine bind_eq_ok.mpr ⟨_, checkLayer_later hres, ?_⟩
      refine bind_eq_ok.mpr ⟨_, hrest, ?_⟩
      rw [List.map_append]
      rfl

theorem checkTick_later (instrs : List Instruction) :
    checkTick instrs (tick + k) = (checkTick instrs tick).map (Conflict.later k) := by
  have hscan : ∀ l : List Interval,
      scanLine (tick + k) l = (scanLine tick l).map (Conflict.later k) := by
    intro l
    induction l using scanLine.induct with
    | case1 prev curr rest ih =>
        rw [scanLine, scanLine, List.map_append, ih]
        congr 1
        unfold neighbourConflict
        split <;> rfl
    | case2 l hshort =>
        rcases l with _ | ⟨prev, _ | ⟨curr, rest⟩⟩
        · rfl
        · rfl
        · exact (hshort prev curr rest rfl).elim
  have hself : ∀ ins, selfConflict (tick + k) ins =
      (selfConflict tick ins).map (Conflict.later k) := by
    intro ins
    unfold selfConflict
    simp only
    split <;> rfl
  unfold checkTick
  rw [List.map_append, hscan, List.map_flatMap]
  congr 2
  exact funext hself

theorem layerConflicts_later (layers : List (List Instruction)) :
    layerConflicts (tick + k) layers =
      (layerConflicts tick layers).map (Conflict.later k) := by
  induction layers generalizing tick with
  | nil => rfl
  | cons instrs rest ih =>
      rw [layerConflicts, layerConflicts, List.map_append, checkTick_later, ← ih,
        show tick + k + 1 = tick + 1 + k by omega]

end Later

/-! ## Two lists of layers -/

theorem Status.and_eq_pass {s s' : Status} : s.and s' = .pass ↔ s = .pass ∧ s' = .pass := by
  cases s <;> simp [Status.and]

theorem layerConflicts_append (tick : Nat) (layers layers' : List (List Instruction)) :
    layerConflicts tick (layers ++ layers') =
      layerConflicts tick layers ++ layerConflicts (tick + layers.length) layers' := by
  induction layers generalizing tick with
  | nil => rfl
  | cons instrs rest ih =>
      rw [List.cons_append, layerConflicts, layerConflicts, ih, List.append_assoc,
        List.length_cons, show tick + 1 + rest.length = tick + (rest.length + 1) by omega]

/-- **L2 of two lists of layers**, one behind the other. -/
theorem checkLayers_append (layers layers' : List (List Instruction)) :
    checkLayers (layers ++ layers') = (checkLayers layers).andThen (checkLayers layers') := by
  have hlist : layerConflicts 0 (layers ++ layers') = layerConflicts 0 layers ++
      (layerConflicts 0 layers').map (Conflict.later layers.length) := by
    rw [layerConflicts_append, ← layerConflicts_later]
  unfold checkLayers ConflictCheckResult.andThen
  simp only [hlist, List.length_append, List.map_append, List.sum_append]
  congr 1
  cases layerConflicts 0 layers <;> cases layerConflicts 0 layers' <;> rfl

/-- The merge of a first layer, as `mergeMemoryResults` makes it. -/
def MemoryCheckResult.cons (res others : MemoryCheckResult) : MemoryCheckResult :=
  { status := if res.status = .fail then .fail else others.status
    violations := res.violations ++ others.violations
    totalChecked := res.totalChecked + others.totalChecked
    totalNop := res.totalNop + others.totalNop }

def MemoryCheckResult.later (k : Nat) (res : MemoryCheckResult) : MemoryCheckResult :=
  { res with violations := res.violations.map (Violation.later k) }

theorem MemoryCheckResult.cons_andThen (k : Nat) (res m₁ m₂ : MemoryCheckResult) :
    res.cons (m₁.andThen k (m₂.later 1)) = (res.cons m₁).andThen (k + 1) m₂ := by
  have hlater : (m₂.violations.map (Violation.later 1)).map (Violation.later k) =
      m₂.violations.map (Violation.later (k + 1)) := by
    rw [List.map_map]
    congr 1
    funext v
    rw [Function.comp_apply, Violation.later_later, Nat.add_comm]
  unfold cons andThen later
  simp only [hlater, List.append_assoc, Nat.add_assoc]
  congr 1
  cases res.status <;> rfl

/-- **L1 of two lists of layers**: it raises where one of the two does. -/
theorem merge_append {cfg : Config} {tick : Nat} {layers layers' : List (List Instruction)}
    {m : MemoryCheckResult} :
    mergeMemoryResults cfg tick (layers ++ layers') = .ok m ↔
      ∃ m₁ m₂, mergeMemoryResults cfg tick layers = .ok m₁ ∧
        mergeMemoryResults cfg tick layers' = .ok m₂ ∧ m = m₁.andThen layers.length m₂ := by
  induction layers generalizing tick m with
  | nil =>
      have hempty : ∀ m₂ : MemoryCheckResult,
          (⟨.pass, [], 0, 0⟩ : MemoryCheckResult).andThen 0 m₂ = m₂ := by
        intro m₂
        have hzero : Violation.later 0 = id := rfl
        unfold MemoryCheckResult.andThen
        simp [hzero, Status.and]
      constructor
      · exact fun h => ⟨_, m, rfl, h, (hempty m).symm⟩
      · rintro ⟨m₁, m₂, h₁, h₂, rfl⟩
        obtain rfl := Except.ok.inj h₁
        rw [List.length_nil, hempty]
        exact h₂
  | cons instrs rest ih =>
      constructor
      · intro h
        obtain ⟨res, hres, h⟩ := bind_eq_ok.mp h
        obtain ⟨others, hothers, h⟩ := bind_eq_ok.mp h
        obtain rfl := Except.ok.inj h
        obtain ⟨m₁, m₂', h₁, h₂', rfl⟩ := ih.mp hothers
        -- which layers can be judged does not depend on their numbers
        obtain ⟨m₂, h₂⟩ := (merge_ok_iff tick).mpr ((merge_ok_iff (tick + 1)).mp ⟨m₂', h₂'⟩)
        obtain rfl := Except.ok.inj (h₂'.symm.trans (merge_later h₂))
        refine ⟨res.cons m₁, m₂, ?_, h₂, MemoryCheckResult.cons_andThen _ _ _ _⟩
        exact bind_eq_ok.mpr ⟨res, hres, bind_eq_ok.mpr ⟨m₁, h₁, rfl⟩⟩
      · rintro ⟨m₁', m₂, h₁', h₂, rfl⟩
        obtain ⟨res, hres, h⟩ := bind_eq_ok.mp h₁'
        obtain ⟨m₁, h₁, h⟩ := bind_eq_ok.mp h
        obtain rfl := Except.ok.inj h
        have hrest := ih.mpr ⟨m₁, m₂.later 1, h₁, merge_later h₂, rfl⟩
        refine bind_eq_ok.mpr ⟨res, hres, bind_eq_ok.mpr ⟨_, hrest, ?_⟩⟩
        exact congrArg Except.ok (MemoryCheckResult.cons_andThen _ _ _ _)

/-! ## Two command lines -/

/-- `main` prints this report. -/
def Prints (env : Env) (args : Args) (rep : Report) : Prop :=
  ∃ r, main env args = .returned r ∧ r.report = some rep

def Outcome.hasReport : Outcome → Bool
  | .returned r => r.report.isSome
  | _ => false

section Lines

variable {env : Env} {args : Args}

theorem prints_of_hasReport (h : (main env args).hasReport = true) :
    ∃ rep, Prints env args rep := by
  cases hmain : main env args with
  | returned r =>
      rw [hmain] at h
      obtain ⟨rep, hrep⟩ := Option.isSome_iff_exists.mp h
      exact ⟨rep, r, hmain, hrep⟩
  | exited code =>
      rw [hmain] at h
      cases h
  | raised e =>
      rw [hmain] at h
      cases h

/-- Status 2 comes without a report. -/
theorem report_of_code_two {r : MainResult} (h : verify env args = .ok r)
    (hcode : r.code = 2) : r.report = none := by
  obtain ⟨cfg, -, h⟩ := bind_eq_ok.mp h
  obtain ⟨loaded, -, h⟩ := bind_eq_ok.mp h
  cases loaded with
  | error path =>
      obtain rfl := Except.ok.inj h
      rfl
  | ok datas =>
      cases datas with
      | nil =>
          obtain rfl := Except.ok.inj h
          rfl
      | cons data datas =>
          obtain ⟨layers, memory, printed, -, -, -, rfl⟩ := verifyLayers_ok_iff.mp h
          rcases checkedResult_code (layersReport layers memory) printed with h0 | h1
          · rw [h0] at hcode
            cases hcode
          · rw [h1] at hcode
            cases hcode

/-- A command line whose layers parse names one. -/
theorem Parses.named {cfg : Config} {layers : List (List Instruction)}
    (h : Parses env args cfg layers) (hne : layers ≠ []) :
    args.imagePaths ≠ [] ∨ args.patterns ≠ [] := by
  by_contra hno
  obtain ⟨himage, hpatterns⟩ := not_or.mp hno
  have himages := h.images
  rw [Args.layerPaths, not_not.mp himage, not_not.mp hpatterns] at himages
  exact hne (List.forall₂_nil_left_iff.mp himages)

/-- A printed report is the one that `main` built from parsed layers. -/
theorem Prints.checked {rep : Report} (h : Prints env args rep) :
    ∃ cfg layers memory printed, Parses env args cfg layers ∧ layers ≠ [] ∧
      L1Part cfg args layers memory ∧ rep = layersReport layers memory ∧
      rep.print env.host args.format = .ok printed ∧
      main env args = .returned (checkedResult rep printed) := by
  obtain ⟨r, hmain, hrep⟩ := h
  have hverify := verify_of_main hmain
  rcases verify_cases hverify with ⟨hcode, -⟩ | hchecked
  · rw [report_of_code_two hverify hcode] at hrep
    cases hrep
  · obtain ⟨cfg, layers, memory, printed, hparse, hne, hmem, hprint, rfl⟩ := hchecked
    obtain rfl := Option.some.inj hrep
    exact ⟨cfg, layers, memory, printed, hparse, hne, hmem, rfl, hprint, hmain⟩

/-- What is printed, and when. -/
theorem prints_iff {rep : Report} :
    Prints env args rep ↔ ∃ cfg layers memory, Parses env args cfg layers ∧ layers ≠ [] ∧
      L1Part cfg args layers memory ∧ rep.Printable env.host args.format ∧
      rep = layersReport layers memory := by
  constructor
  · intro h
    obtain ⟨cfg, layers, memory, printed, hparse, hne, hmem, heq, hprint, -⟩ := h.checked
    exact ⟨cfg, layers, memory, hparse, hne, hmem, print_ok_iff.mp ⟨printed, hprint⟩, heq⟩
  · rintro ⟨cfg, layers, memory, hparse, hne, hmem, hprintable, rfl⟩
    obtain ⟨printed, hprint⟩ := print_ok_iff.mpr hprintable
    refine ⟨checkedResult (layersReport layers memory) printed, ?_, rfl⟩
    rw [main_eq (hparse.named hne), verify_of_parses hparse hne hmem hprint]

/-- The exit status is that of the report. -/
theorem Prints.status {rep : Report} (h : Prints env args rep) :
    (main env args).status = if rep.overallStatus = .pass then 0 else 1 := by
  obtain ⟨cfg, layers, memory, printed, -, -, -, -, -, hmain⟩ := h.checked
  rw [hmain]
  rfl

theorem Prints.status_zero_iff {rep : Report} (h : Prints env args rep) :
    (main env args).status = 0 ↔ rep.overallStatus = .pass := by
  rw [h.status]
  split
  · next hpass => exact iff_of_true rfl hpass
  · next hfail => exact iff_of_false (by decide) hfail

end Lines

/-- The first part of a command line: its image and its patterns up to `pats`. -/
def Args.front (args : Args) (pats : List String) : Args := { args with layers := some pats }

/-- The rest of it: the patterns behind them. -/
def Args.back (args : Args) (pats : List String) : Args :=
  { args with image := none, layers := some pats }

theorem layerPaths_front_append (env : Env) (args : Args) (pats pats' : List String) :
    (args.front (pats ++ pats')).layerPaths env =
      (args.front pats).layerPaths env ++ (args.back pats').layerPaths env := by
  show args.imagePaths ++ matchedPaths env (pats ++ pats') =
    args.imagePaths ++ matchedPaths env pats ++ ([] ++ matchedPaths env pats')
  rw [matchedPaths, List.flatMap_append, List.nil_append, List.append_assoc]
  rfl

section Parts

variable {env : Env} {args : Args} {rep : Report}

theorem Prints.levels (h : Prints env args rep) :
    (∃ c, rep.conflict = some c) ∧ (rep.memory = none ↔ args.l2Only = true) := by
  obtain ⟨cfg, layers, memory, -, -, hmem, -, rfl⟩ := prints_iff.mp h
  refine ⟨⟨_, rfl⟩, ?_⟩
  cases memory with
  | none => exact iff_of_true rfl (l1Part_none.mp hmem)
  | some m =>
      refine iff_of_false (Option.some_ne_none m) fun hl2 => ?_
      exact Bool.false_ne_true ((l1Part_some.mp hmem).1.symm.trans hl2)

theorem prints_of_status (h : (main env args).status = 0) : ∃ rep, Prints env args rep := by
  obtain ⟨r, hmain, hcode⟩ := returned_of_status_zero h
  rcases verify_cases (verify_of_main hmain) with ⟨h2, -⟩ | hchecked
  · rw [h2] at hcode
    cases hcode
  · obtain ⟨cfg, layers, memory, printed, -, -, -, -, rfl⟩ := hchecked
    exact ⟨_, _, hmain, rfl⟩

/-- Status 0 is a printed report that passes. -/
theorem status_zero_iff :
    (main env args).status = 0 ↔ ∃ rep, Prints env args rep ∧ rep.overallStatus = .pass := by
  constructor
  · intro h
    obtain ⟨rep, hrep⟩ := prints_of_status h
    exact ⟨rep, hrep, hrep.status_zero_iff.mp h⟩
  · rintro ⟨rep, hrep, hpass⟩
    exact hrep.status_zero_iff.mpr hpass

/-- The common report of two parts passes when both do. -/
theorem overallStatus_andThen {args' : Args} {rep' : Report} (h : Prints env args rep)
    (h' : Prints env args' rep') (hlevel : args.l2Only = args'.l2Only) :
    (rep.andThen rep').overallStatus = .pass ↔
      rep.overallStatus = .pass ∧ rep'.overallStatus = .pass := by
  obtain ⟨⟨c, hc⟩, hm⟩ := h.levels
  obtain ⟨⟨c', hc'⟩, hm'⟩ := h'.levels
  obtain ⟨memory, conflict⟩ := rep
  obtain ⟨memory', conflict'⟩ := rep'
  obtain rfl : conflict = some c := hc
  obtain rfl : conflict' = some c' := hc'
  rw [hlevel, ← hm'] at hm
  simp only [overallStatus_eq_pass, Report.andThen]
  cases memory with
  | none =>
      obtain rfl : memory' = none := hm.mp rfl
      simp [ConflictCheckResult.andThen, Status.and_eq_pass]
  | some m =>
      cases memory' with
      | none => exact absurd (hm.mpr rfl) (by simp)
      | some m' =>
          simp [ConflictCheckResult.andThen, MemoryCheckResult.andThen, Status.and_eq_pass]
          tauto

end Parts

section Append

variable {env : Env} {args : Args} {pats pats' : List String}

/-- The levels of the common report are those of the parts. -/
theorem l1Part_append {cfg : Config} {layers layers' : List (List Instruction)}
    {memory : Option MemoryCheckResult} :
    L1Part cfg (args.front (pats ++ pats')) (layers ++ layers') memory ↔
      ∃ m m', L1Part cfg (args.front pats) layers m ∧ L1Part cfg (args.back pats') layers' m' ∧
        memory = do return (← m).andThen layers.length (← m') := by
  unfold L1Part
  cases hl2 : args.l2Only with
  | true =>
      simp only [Args.front, Args.back, hl2, if_true]
      constructor
      · rintro rfl
        exact ⟨none, none, rfl, rfl, rfl⟩
      · rintro ⟨m, m', rfl, rfl, rfl⟩
        rfl
  | false =>
      simp only [Args.front, Args.back, hl2, Bool.false_eq_true, if_false]
      constructor
      · rintro ⟨m, hm, rfl⟩
        obtain ⟨m₁, m₂, h₁, h₂, rfl⟩ := merge_append.mp hm
        exact ⟨some m₁, some m₂, ⟨m₁, h₁, rfl⟩, ⟨m₂, h₂, rfl⟩, rfl⟩
      · rintro ⟨_, _, ⟨m₁, h₁, rfl⟩, ⟨m₂, h₂, rfl⟩, rfl⟩
        exact ⟨_, merge_append.mpr ⟨m₁, m₂, h₁, h₂, rfl⟩, rfl⟩

theorem layersReport_append (layers layers' : List (List Instruction))
    (m m' : Option MemoryCheckResult) :
    layersReport (layers ++ layers') (do return (← m).andThen layers.length (← m')) =
      (layersReport layers m).andThen (layersReport layers' m') := by
  unfold layersReport
  rw [checkLayers_append]
  rfl

/-- The common report can be printed when both parts can: the entries are the same
up to the number of their layer, which is always small. -/
theorem printable_append {cfg : Config} {layers layers' : List (List Instruction)}
    {m m' memory : Option MemoryCheckResult} (hm : L1Part cfg (args.front pats) layers m)
    (hm' : L1Part cfg (args.back pats') layers' m')
    (hmem : L1Part cfg (args.front (pats ++ pats')) (layers ++ layers') memory)
    {host : PyHost} {format : Format} :
    (layersReport (layers ++ layers') memory).Printable host format ↔
      (layersReport layers m).Printable host format ∧
        (layersReport layers' m').Printable host format := by
  rw [layersReport_printable_iff hmem, layersReport_printable_iff hm,
    layersReport_printable_iff hm']
  simp only [List.forall_mem_append]
  show (args.l2Only = false → _) ∧ _ ↔
    ((args.l2Only = false → _) ∧ _) ∧ (args.l2Only = false → _) ∧ _
  tauto

variable (hfront : (args.front pats).layerPaths env ≠ [])
  (hback : (args.back pats').layerPaths env ≠ [])
include hfront hback

theorem prints_append {rep : Report} :
    Prints env (args.front (pats ++ pats')) rep ↔
      ∃ r r', Prints env (args.front pats) r ∧ Prints env (args.back pats') r' ∧
        rep = r.andThen r' := by
  constructor
  · intro h
    obtain ⟨cfg, all, memory, ⟨hconfig, himages⟩, -, hmem, hshown, rfl⟩ := prints_iff.mp h
    rw [layerPaths_front_append] at himages
    obtain ⟨layers, layers', hfiles, hfiles', rfl⟩ := forall₂_append_left.mp himages
    obtain ⟨m, m', hm, hm', rfl⟩ := l1Part_append.mp hmem
    have hne : layers ≠ [] := by
      rintro rfl
      exact hfront (List.forall₂_nil_right_iff.mp hfiles)
    have hne' : layers' ≠ [] := by
      rintro rfl
      exact hback (List.forall₂_nil_right_iff.mp hfiles')
    obtain ⟨hshown₁, hshown₂⟩ := (printable_append hm hm' hmem).mp hshown
    refine ⟨_, _, prints_iff.mpr ⟨cfg, layers, m, ⟨hconfig, hfiles⟩, hne, hm, hshown₁, rfl⟩,
      prints_iff.mpr ⟨cfg, layers', m', ⟨hconfig, hfiles'⟩, hne', hm', hshown₂, rfl⟩, ?_⟩
    exact layersReport_append layers layers' m m'
  · rintro ⟨r, r', h, h', rfl⟩
    obtain ⟨cfg, layers, m, ⟨hconfig, himages⟩, hne, hm, hshown, rfl⟩ := prints_iff.mp h
    obtain ⟨cfg', layers', m', ⟨hconfig', himages'⟩, -, hm', hshown', rfl⟩ := prints_iff.mp h'
    obtain rfl : cfg = cfg' := Except.ok.inj (hconfig.symm.trans hconfig')
    have hmem := l1Part_append.mpr ⟨m, m', hm, hm', rfl⟩
    refine prints_iff.mpr ⟨cfg, layers ++ layers', _, ⟨hconfig, ?_⟩,
      List.append_ne_nil_of_left_ne_nil hne _, hmem, ?_,
      (layersReport_append layers layers' m m').symm⟩
    · rw [layerPaths_front_append]
      exact forall₂_append_left.mpr ⟨layers, layers', himages, himages', rfl⟩
    · rw [← layersReport_append]
      exact (printable_append hm hm' hmem).mpr ⟨hshown, hshown'⟩

/-- **The report of a command line is made of the reports of its parts.** Where
the patterns are split in two command lines that both find layers, the whole
prints a report exactly when both parts do, and it is the one report behind the
other; its status is 0 exactly when both are. -/
theorem report_append :
    (∀ rep, Prints env (args.front (pats ++ pats')) rep ↔
      ∃ r r', Prints env (args.front pats) r ∧ Prints env (args.back pats') r' ∧
        rep = r.andThen r') ∧
    ((main env (args.front (pats ++ pats'))).status = 0 ↔
      (main env (args.front pats)).status = 0 ∧ (main env (args.back pats')).status = 0) := by
  have hparts := fun rep => @prints_append env args pats pats' hfront hback rep
  refine ⟨hparts, ?_⟩
  rw [status_zero_iff, status_zero_iff, status_zero_iff]
  constructor
  · rintro ⟨rep, hrep, hpass⟩
    obtain ⟨r, r', hr, hr', rfl⟩ := (hparts rep).mp hrep
    obtain ⟨hp, hp'⟩ := (overallStatus_andThen hr hr' rfl).mp hpass
    exact ⟨⟨r, hr, hp⟩, r', hr', hp'⟩
  · rintro ⟨⟨r, hr, hp⟩, r', hr', hp'⟩
    exact ⟨_, (hparts _).mpr ⟨r, r', hr, hr', rfl⟩,
      (overallStatus_andThen hr hr' rfl).mpr ⟨hp, hp'⟩⟩

end Append

/-! ## Files with a given text -/

def asciiBytes (text : String) : List Byte := text.toList.map fun c => BitVec.ofNat 8 c.toNat

/-- A JSON parser on the one text it is asked for. -/
def jsonFile (text : String) (v : PyVal) (bytes : List Byte) : Option PyVal :=
  if bytes = asciiBytes text then some v else none

theorem jsonFile_text (text : String) (v : PyVal) : jsonFile text v (asciiBytes text) = some v :=
  if_pos rfl

/-! ## Two copies that meet -/

def clashJson : String :=
  "\x7b\"space_bytes\":16,\"processor_n\":2,\"protected_regions\":" ++
    "[\x7b\"name\":\"system\",\"begin\":0,\"end\":64\x7d]\x7d"

/-- `clash.bin` copies to bits 60 to 67 and to bits 64 to 71; `fixed.bin` is without
its first copy. -/
def clashFile (path : String) : FileEntry :=
  if path = "clash.bin" then .file ([8, 60, 80, 8, 64, 96] ++ List.replicate 10 0)
  else if path = "fixed.bin" then .file ([0, 60, 80, 8, 64, 96] ++ List.replicate 10 0)
  else if path = "vm.json" then .file (asciiBytes clashJson)
  else .missing

def clashEnv : Env :=
  { file := clashFile
    glob := fun pat => if clashFile pat = .missing then [] else [pat]
    jsonLoad := jsonFile clashJson (.dict [("space_bytes", .int 16), ("processor_n", .int 2),
      ("protected_regions", .list [.dict [("name", .str "system"), ("begin", .int 0),
        ("end", .int 64)]])])
    ceilLog2 := fun _ => 7
    host := sampleHost }

def clashArgs (image : String) : Args :=
  { image := some image, layers := some [], config := some "vm.json", format := .text
    l2Only := false }

def systemRegion : Region := { name := .str "system", begin := .int 0, endBit := .int 64 }

def clashConfig : Config :=
  { spaceBytes := .int 16, processorN := .int 2, addrBits := .int 8
    protectedRegions := [systemRegion], allowedRegions := [] }

def clashLayer (n : Nat) : List Instruction := [⟨0, n, 60, 80⟩, ⟨1, 8, 64, 96⟩]

/-- One violation, of slot 0, and one conflict, of slots 0 and 1. -/
def clashReport : Report :=
  layersReport [clashLayer 8]
    (some ⟨.fail, [⟨0, 0, 8, 60, 80, .protectedRegion 60 8 systemRegion⟩], 2, 0⟩)

def fixedReport : Report := layersReport [clashLayer 0] (some ⟨.pass, [], 2, 1⟩)

theorem clash_parses : Parses clashEnv (clashArgs "clash.bin") clashConfig [clashLayer 8] :=
  ⟨rfl, .cons ⟨_, rfl, rfl⟩ .nil⟩

theorem fixed_parses : Parses clashEnv (clashArgs "fixed.bin") clashConfig [clashLayer 0] :=
  ⟨rfl, .cons ⟨_, rfl, rfl⟩ .nil⟩

theorem clash_printable : clashReport.Printable sampleHost .text := by
  have hok : (clashReport.print sampleHost .text).isOk = true := by decide +kernel
  cases hprint : clashReport.print sampleHost .text with
  | ok printed => exact print_ok_iff.mp ⟨printed, hprint⟩
  | error e =>
      rw [hprint] at hok
      cases hok

theorem clash_prints : Prints clashEnv (clashArgs "clash.bin") clashReport :=
  prints_iff.mpr ⟨_, _, _, clash_parses, List.cons_ne_nil _ _, l1Part_some.mpr ⟨rfl, rfl⟩,
    clash_printable, rfl⟩

/-- Both images in one command line: the entries of the first, and the verdict. -/
theorem report_append_clash :
    Prints clashEnv ((clashArgs "clash.bin").front ["fixed.bin"])
        (clashReport.andThen fixedReport) ∧
      (main clashEnv ((clashArgs "clash.bin").front ["fixed.bin"])).status ≠ 0 := by
  have hfront : ((clashArgs "clash.bin").front []).layerPaths clashEnv ≠ [] := by decide
  have hback : ((clashArgs "clash.bin").back ["fixed.bin"]).layerPaths clashEnv ≠ [] := by
    decide
  have hfixed : Prints clashEnv ((clashArgs "clash.bin").back ["fixed.bin"]) fixedReport :=
    prints_iff.mpr ⟨_, [clashLayer 0], _, ⟨rfl, .cons ⟨_, rfl, rfl⟩ .nil⟩,
      List.cons_ne_nil _ _, l1Part_some.mpr ⟨rfl, rfl⟩,
      printable_of_no_entries (fun m hm => by cases hm; rfl) (fun c hc => by cases hc; rfl), rfl⟩
  obtain ⟨hparts, hstatus⟩ := report_append hfront hback
  refine ⟨(hparts _).mpr ⟨_, _, clash_prints, hfixed, rfl⟩, fun h0 => ?_⟩
  exact absurd (clash_prints.status_zero_iff.mp (hstatus.mp h0).1) (by decide)

end SpaceVerifier.Verifier
