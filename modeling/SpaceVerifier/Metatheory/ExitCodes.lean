import SpaceVerifier.Metatheory.WellFormedInputs

/-!
# What the exit status says

The documented statuses are 0 for PASS, 1 for FAIL and 2 for an error. The
stages of `main` raise on inputs of the wrong shape, nothing catches it, and
the interpreter then ends with status 1.
-/

namespace SpaceVerifier.Verifier

open Foundation

/-! ## The merged verdict of L1 -/

/-- The merge raises only when one of its layers does. -/
theorem merge_ok_iff {cfg : Config} (tick : Nat) {layers : List (List Instruction)} :
    (∃ m, mergeMemoryResults cfg tick layers = .ok m) ↔
      ∀ instrs ∈ layers, ∀ ins ∈ instrs, L1Defined cfg ins := by
  induction layers generalizing tick with
  | nil => exact iff_of_true ⟨_, rfl⟩ fun _ h => absurd h List.not_mem_nil
  | cons instrs rest ih =>
      rw [List.forall_mem_cons, ← ih (tick + 1), ← checkLayer_ok_iff tick]
      simp only [mergeMemoryResults, bind_eq_ok, pure_eq_ok]
      constructor
      · rintro ⟨_, res, hres, others, hothers, -⟩
        exact ⟨⟨res, hres⟩, others, hothers⟩
      · rintro ⟨⟨res, hres⟩, others, hothers⟩
        exact ⟨_, res, hres, others, hothers, rfl⟩

theorem Status.ne_pass_iff {s : Status} : s ≠ .pass ↔ s = .fail := by
  cases s <;> decide

/-- The merged status is the conjunction over the layers. -/
theorem merge_pass_iff {cfg : Config} {tick : Nat} {layers : List (List Instruction)}
    {m : MemoryCheckResult} (h : mergeMemoryResults cfg tick layers = .ok m) :
    m.status = .pass ↔ ∀ i instrs, layers[i]? = some instrs →
      ∃ res, checkLayer cfg instrs (tick + i) = .ok res ∧ res.status = .pass := by
  induction layers generalizing tick m with
  | nil =>
      obtain rfl := Except.ok.inj h
      exact iff_of_true rfl fun i instrs hi => nomatch hi
  | cons first rest ih =>
      obtain ⟨res, hres, h⟩ := bind_eq_ok.mp h
      obtain ⟨others, hothers, h⟩ := bind_eq_ok.mp h
      obtain rfl := Except.ok.inj h
      have hrest := ih hothers
      constructor
      · intro hpass i instrs hi
        by_cases hfail : res.status = .fail
        · rw [if_pos hfail] at hpass
          cases hpass
        · rw [if_neg hfail] at hpass
          cases i with
          | zero =>
              obtain rfl := Option.some.inj hi
              exact ⟨res, hres, not_not.mp fun hne => hfail (Status.ne_pass_iff.mp hne)⟩
          | succ i =>
              rw [show tick + (i + 1) = tick + 1 + i by omega]
              exact hrest.mp hpass i instrs hi
      · intro hall
        obtain ⟨res', hres', hpass⟩ := hall 0 first rfl
        obtain rfl := Except.ok.inj (hres.symm.trans hres')
        show (if res.status = .fail then Status.fail else others.status) = .pass
        rw [hpass, if_neg (by decide)]
        refine hrest.mpr fun i instrs hi => ?_
        rw [show tick + 1 + i = tick + (i + 1) by omega]
        exact hall (i + 1) instrs hi

theorem merge_fail_iff {cfg : Config} {tick : Nat} {layers : List (List Instruction)}
    {m : MemoryCheckResult} (h : mergeMemoryResults cfg tick layers = .ok m) :
    m.status = .fail ↔ m.violations ≠ [] := by
  induction layers generalizing tick m with
  | nil =>
      obtain rfl := Except.ok.inj h
      exact iff_of_false (by decide) fun hne => hne rfl
  | cons first rest ih =>
      obtain ⟨res, hres, h⟩ := bind_eq_ok.mp h
      obtain ⟨others, hothers, h⟩ := bind_eq_ok.mp h
      obtain rfl := Except.ok.inj h
      have hfirst := checkLayer_fail_iff hres
      have hrest := ih hothers
      show (if res.status = .fail then Status.fail else others.status) = .fail ↔
        res.violations ++ others.violations ≠ []
      rw [ne_eq, List.append_eq_nil_iff, not_and_or, ← ne_eq, ← ne_eq, ← hfirst, ← hrest]
      split
      · next hf => exact iff_of_true rfl (Or.inl hf)
      · next hf => rw [or_iff_right hf]

/-! ## The verdict -/

theorem checkLayers_fail_iff (layers : List (List Instruction)) :
    (checkLayers layers).status = .fail ↔ (checkLayers layers).conflicts ≠ [] := by
  show (if (layerConflicts 0 layers).isEmpty then Status.pass else .fail) = .fail ↔
    layerConflicts 0 layers ≠ []
  cases layerConflicts 0 layers with
  | nil => exact iff_of_false (by decide) fun hne => hne rfl
  | cons c cs => exact iff_of_true rfl (List.cons_ne_nil c cs)

theorem overallStatus_eq_pass {r : Report} : r.overallStatus = .pass ↔
    (∀ m, r.memory = some m → m.status = .pass) ∧ ∀ c, r.conflict = some c → c.status = .pass := by
  unfold Report.overallStatus
  split
  · next hfail =>
      obtain ⟨m, hm, hs⟩ := Option.map_eq_some_iff.mp hfail
      refine iff_of_false (by decide) fun h => ?_
      rw [h.1 m hm] at hs
      cases hs
  · next hmem =>
      split
      · next hfail =>
          obtain ⟨c, hc, hs⟩ := Option.map_eq_some_iff.mp hfail
          refine iff_of_false (by decide) fun h => ?_
          rw [h.2 c hc] at hs
          cases hs
      · next hconf =>
          refine iff_of_true rfl ⟨fun m hm => ?_, fun c hc => ?_⟩
          · by_contra hne
            exact hmem (Option.map_eq_some_iff.mpr ⟨m, hm, Status.ne_pass_iff.mp hne⟩)
          · by_contra hne
            exact hconf (Option.map_eq_some_iff.mpr ⟨c, hc, Status.ne_pass_iff.mp hne⟩)

theorem checkedResult_code_one_iff {layers : List (List Instruction)}
    {memory : Option MemoryCheckResult} (printed : Printed) :
    (checkedResult (layersReport layers memory) printed).code = 1 ↔
      (∃ m, memory = some m ∧ m.status = .fail) ∨ (checkLayers layers).status = .fail := by
  show (if (layersReport layers memory).overallStatus = .pass then (0 : Int) else 1) = 1 ↔ _
  unfold Report.overallStatus layersReport
  by_cases hc : (checkLayers layers).status = .fail
  · cases memory <;> simp [hc]
  · cases memory <;> simp [hc]

/-! ## The documented statuses -/

/-- The command line names a layer, and only files that can be read. -/
structure NamesFiles (env : Env) (args : Args) : Prop where
  named : args.imagePaths ≠ [] ∨ args.patterns ≠ []
  image : ∀ path ∈ args.imagePaths, ∃ data, env.file path = .file data
  layers : ∀ pat ∈ args.patterns, env.glob pat ≠ [] ∧
    ∀ path ∈ env.glob pat, ∃ data, env.file path = .file data
  config : ∀ path, args.config = some path → path ≠ "" →
    ∃ data, env.file path = .file data

def PassesL1 (cfg : Config) (layers : List (List Instruction)) : Prop :=
  ∀ i instrs, layers[i]? = some instrs →
    ∃ res, checkLayer cfg instrs i = .ok res ∧ res.status = .pass

/-- Everything parses, and every layer satisfies L1, unless that is switched
off, and L2. -/
def Clean (env : Env) (args : Args) : Prop :=
  ∃ cfg layers, Parses env args cfg layers ∧
    (args.l2Only = false → PassesL1 cfg layers) ∧ ∀ instrs ∈ layers, ConflictFree instrs

/-- Everything parses, and a violation or a conflict is reported. -/
def Flagged (env : Env) (args : Args) : Prop :=
  (∃ cfg layers, Parses env args cfg layers) ∧
  ∃ r rep, main env args = .returned r ∧ r.report = some rep ∧
    ((∃ m, rep.memory = some m ∧ m.violations ≠ []) ∨
      ∃ c, rep.conflict = some c ∧ c.conflicts ≠ [])

/-- `0` = PASS, `1` = FAIL, `2` = error. -/
structure ExitsAsDocumented (env : Env) (args : Args) : Prop where
  pass : Clean env args → (main env args).status = 0
  fail : (main env args).status = 1 ↔ Flagged env args
  error : ¬ Clean env args → ¬ Flagged env args → (main env args).status = 2

/-- An image that parses, that L1 can judge, and whose findings can be printed. -/
structure ImageFits (host : PyHost) (args : Args) (cfg : Config) (data : List Byte) : Prop where
  parses : ImageParses cfg data
  judged : args.l2Only = false → ∀ instrs, read cfg data = .ok instrs →
    ∀ ins ∈ instrs, L1Comparable cfg ins
  findings : args.l2Only = false → ∀ instrs, read cfg data = .ok instrs →
    ∀ ins ∈ instrs, ins.isNop = false → FindingsFit host args.format cfg ins
  overlaps : ∀ instrs, read cfg data = .ok instrs → OverlapsFit host instrs

/-- The configuration is usable, and so is every image under it. -/
structure InputsWellFormed (env : Env) (args : Args) : Prop where
  config : ConfigFits env args.config
  images : ∀ cfg, Config.init env args.config = .ok cfg → ∀ path ∈ args.layerPaths env,
    ∀ data, env.file path = .file data → ImageFits env.host args cfg data

/-! ## What a report of these layers shows -/

section Shown

variable {host : PyHost} {format : Format} {cfg : Config} {layers : List (List Instruction)}

theorem checkLayer_printable_iff {tick : Nat} {instrs : List Instruction}
    {res : MemoryCheckResult} (h : checkLayer cfg instrs tick = .ok res) :
    (∀ v ∈ res.violations, v.Printable host format) ↔
      ∀ ins ∈ instrs, ins.isNop = false → FindingsFit host format cfg ins := by
  obtain ⟨vs, hvs, h⟩ := bind_eq_ok.mp h
  obtain rfl := Except.ok.inj h
  obtain ⟨vss, hvss, rfl⟩ := checkInstrs_eq_ok.mp hvs
  have hread := mapM_eq_ok_iff.mp hvss
  constructor
  · intro hall ins hins hnop
    obtain ⟨vs, hmem, hcheck⟩ := exists_right_of_forall₂ hread hins
    exact (findingsFit_iff hnop hcheck).mp fun v hv =>
      hall v (List.mem_flatten.mpr ⟨vs, hmem, hv⟩)
  · intro hall v hv
    obtain ⟨vs, hmem, hv⟩ := List.mem_flatten.mp hv
    obtain ⟨ins, hins, hcheck⟩ := exists_left_of_forall₂ hread hmem
    cases hnop : ins.isNop with
    | true =>
        rw [checkInstr, hnop] at hcheck
        obtain rfl := Except.ok.inj hcheck
        cases hv
    | false => exact (findingsFit_iff hnop hcheck).mpr (hall ins hins hnop) v hv

theorem merge_printable_iff {tick : Nat} {m : MemoryCheckResult}
    (h : mergeMemoryResults cfg tick layers = .ok m) :
    (∀ v ∈ m.violations, v.Printable host format) ↔ ∀ instrs ∈ layers,
      ∀ ins ∈ instrs, ins.isNop = false → FindingsFit host format cfg ins := by
  induction layers generalizing tick m with
  | nil =>
      obtain rfl := Except.ok.inj h
      exact iff_of_true (fun v hv => absurd hv List.not_mem_nil)
        fun instrs hi => absurd hi List.not_mem_nil
  | cons instrs rest ih =>
      obtain ⟨res, hres, h⟩ := bind_eq_ok.mp h
      obtain ⟨others, hothers, h⟩ := bind_eq_ok.mp h
      obtain rfl := Except.ok.inj h
      rw [List.forall_mem_append, List.forall_mem_cons, checkLayer_printable_iff hres,
        ih hothers]

theorem layerConflicts_printable_iff {tick : Nat} :
    (∀ c ∈ layerConflicts tick layers, c.Printable host) ↔
      ∀ instrs ∈ layers, OverlapsFit host instrs := by
  induction layers generalizing tick with
  | nil => simp [layerConflicts]
  | cons instrs rest ih =>
      rw [layerConflicts, List.forall_mem_append, List.forall_mem_cons, overlapsFit_iff, ih]

theorem l1Part_none {args : Args} :
    L1Part cfg args layers none ↔ args.l2Only = true := by
  unfold L1Part
  split
  · next hl2 => exact iff_of_true rfl hl2
  · next hl2 =>
      refine iff_of_false ?_ hl2
      rintro ⟨m, -, hm⟩
      cases hm

theorem l1Part_some {args : Args} {m : MemoryCheckResult} :
    L1Part cfg args layers (some m) ↔
      args.l2Only = false ∧ mergeMemoryResults cfg 0 layers = .ok m := by
  unfold L1Part
  split
  · next hl2 =>
      refine iff_of_false (Option.some_ne_none m) ?_
      rintro ⟨hl1, -⟩
      exact Bool.false_ne_true (hl1.symm.trans hl2)
  · next hl2 =>
      constructor
      · rintro ⟨m', hm', hm⟩
        rw [Option.some.inj hm]
        exact ⟨Bool.eq_false_iff.mpr hl2, hm'⟩
      · rintro ⟨-, hm⟩
        exact ⟨m, hm, rfl⟩

theorem layersReport_printable_iff {args : Args} {memory : Option MemoryCheckResult}
    (hmem : L1Part cfg args layers memory) :
    (layersReport layers memory).Printable host format ↔
      (args.l2Only = false → ∀ instrs ∈ layers, ∀ ins ∈ instrs, ins.isNop = false →
        FindingsFit host format cfg ins) ∧ ∀ instrs ∈ layers, OverlapsFit host instrs := by
  have hL2 : (∀ c, (layersReport layers memory).conflict = some c → ∀ k ∈ c.conflicts,
      k.Printable host) ↔ ∀ instrs ∈ layers, OverlapsFit host instrs := by
    rw [← @layerConflicts_printable_iff host layers 0]
    exact ⟨fun h => h _ rfl, fun h c hc => Option.some.inj hc ▸ h⟩
  have hL1 : (∀ m, memory = some m → ∀ v ∈ m.violations, v.Printable host format) ↔
      (args.l2Only = false → ∀ instrs ∈ layers, ∀ ins ∈ instrs, ins.isNop = false →
        FindingsFit host format cfg ins) := by
    cases memory with
    | none =>
        have hl2 := l1Part_none.mp hmem
        exact iff_of_true (fun m hm => nomatch hm) fun hf =>
          Bool.noConfusion (hl2.symm.trans hf)
    | some m =>
        obtain ⟨hl2, hm⟩ := l1Part_some.mp hmem
        rw [← merge_printable_iff hm]
        exact ⟨fun h _ => h m rfl, fun h m' hm' => Option.some.inj hm' ▸ h hl2⟩
  rw [← hL1, ← hL2]
  exact ⟨fun h => ⟨h.memory, h.conflict⟩, fun h => ⟨h.1, h.2⟩⟩

end Shown

section Status

variable {env : Env} {args : Args}

theorem Parses.unique {cfg cfg' : Config} {layers layers' : List (List Instruction)}
    (h : Parses env args cfg layers) (h' : Parses env args cfg' layers') :
    cfg = cfg' ∧ layers = layers' := by
  obtain rfl := Except.ok.inj (h.config.symm.trans h'.config)
  refine ⟨rfl, List.right_unique_forall₂' ?_ h.images h'.images⟩
  rintro path instrs instrs' ⟨data, hdata, hread⟩ ⟨data', hdata', hread'⟩
  obtain rfl := FileEntry.file.inj (hdata.symm.trans hdata')
  exact Except.ok.inj (hread.symm.trans hread')

/-- Every path to load is a file, and there is one. -/
theorem NamesFiles.layerPaths (h : NamesFiles env args) :
    args.layerPaths env ≠ [] ∧
      ∀ path ∈ args.layerPaths env, ∃ data, env.file path = .file data := by
  constructor
  · intro hnil
    obtain ⟨himage, hmatched⟩ := List.append_eq_nil_iff.mp hnil
    obtain ⟨pat, hpat⟩ := List.exists_mem_of_ne_nil _ (h.named.resolve_left fun hi => hi himage)
    obtain ⟨path, hpath⟩ := List.exists_mem_of_ne_nil _ (h.layers pat hpat).1
    have hin := mem_matchedPaths.mpr ⟨pat, hpat, hpath⟩
    rw [hmatched] at hin
    exact absurd hin List.not_mem_nil
  · intro path hpath
    rcases List.mem_append.mp hpath with himage | hmatched
    · exact h.image path himage
    · obtain ⟨pat, hpat, hin⟩ := mem_matchedPaths.mp hmatched
      exact (h.layers pat hpat).2 path hin

/-- On existing files a run that raises nothing ends in a verdict. -/
theorem NamesFiles.verify_checked (h : NamesFiles env args) {r : MainResult}
    (hr : verify env args = .ok r) :
    ∃ cfg layers memory printed, Parses env args cfg layers ∧
      L1Part cfg args layers memory ∧
      (layersReport layers memory).print env.host args.format = .ok printed ∧
      r = checkedResult (layersReport layers memory) printed := by
  obtain ⟨hne, hfiles⟩ := h.layerPaths
  rcases verify_cases hr with ⟨-, -, ⟨path, hpath, hmissing⟩ | hnil⟩ | hchecked
  · obtain ⟨data, hdata⟩ := hfiles path hpath
    rw [hmissing] at hdata
    cases hdata
  · exact absurd hnil hne
  · obtain ⟨cfg, layers, memory, printed, hparse, -, hmem, hprint, hres⟩ := hchecked
    exact ⟨cfg, layers, memory, printed, hparse, hmem, hprint, hres⟩

/-- **No stage raises** exactly on well-formed inputs. -/
theorem NamesFiles.verify_ok_iff (h : NamesFiles env args) :
    (∃ r, verify env args = .ok r) ↔ InputsWellFormed env args := by
  obtain ⟨hne, hfiles⟩ := h.layerPaths
  constructor
  · rintro ⟨r, hr⟩
    obtain ⟨cfg, layers, memory, printed, hparse, hmem, hprint, -⟩ := h.verify_checked hr
    obtain ⟨hfindings, hoverlaps⟩ :=
      (layersReport_printable_iff hmem).mp (print_ok_iff.mp ⟨printed, hprint⟩)
    refine ⟨init_ok_iff.mp ⟨cfg, hparse.config⟩, fun cfg' hcfg' path hpath data hdata => ?_⟩
    obtain rfl := Except.ok.inj (hparse.config.symm.trans hcfg')
    obtain ⟨instrs, hinstrs, data', hdata', hread⟩ :=
      exists_right_of_forall₂ hparse.images hpath
    obtain rfl := FileEntry.file.inj (hdata.symm.trans hdata')
    have hparses := read_ok_iff.mp ⟨instrs, hread⟩
    refine ⟨hparses, fun hl2 instrs' hread' ins hins => ?_, fun hl2 instrs' hread' => ?_,
      fun instrs' hread' => ?_⟩
    all_goals obtain rfl := Except.ok.inj (hread.symm.trans hread')
    · simp only [L1Part, hl2, Bool.false_eq_true, if_false] at hmem
      obtain ⟨m, hm, -⟩ := hmem
      exact (l1Defined_iff hparses).mp ((merge_ok_iff 0).mp ⟨m, hm⟩ instrs hinstrs ins hins)
    · exact hfindings hl2 instrs hinstrs
    · exact hoverlaps instrs hinstrs
  · rintro ⟨hconfig, hall⟩
    obtain ⟨cfg, hcfg⟩ := init_ok_iff.mpr hconfig
    obtain ⟨layers, hlayers⟩ : ∃ layers, List.Forall₂ (fun path instrs =>
        ∃ data, env.file path = .file data ∧ read cfg data = .ok instrs)
        (args.layerPaths env) layers := by
      refine exists_forall₂.mpr fun path hpath => ?_
      obtain ⟨data, hdata⟩ := hfiles path hpath
      obtain ⟨instrs, hread⟩ := read_ok_iff.mpr (hall cfg hcfg path hpath data hdata).parses
      exact ⟨instrs, data, hdata, hread⟩
    have hfits : ∀ instrs ∈ layers, ∃ data, read cfg data = .ok instrs ∧
        ImageFits env.host args cfg data := by
      intro instrs hinstrs
      obtain ⟨path, hpath, data, hdata, hread⟩ := exists_left_of_forall₂ hlayers hinstrs
      exact ⟨data, hread, hall cfg hcfg path hpath data hdata⟩
    have hlne : layers ≠ [] := by
      rintro rfl
      exact hne (List.eq_nil_of_length_eq_zero hlayers.length_eq)
    obtain ⟨memory, hmem⟩ : ∃ memory, L1Part cfg args layers memory := by
      unfold L1Part
      cases hl2 : args.l2Only with
      | true => exact ⟨none, rfl⟩
      | false =>
          have hjudged : ∀ instrs ∈ layers, ∀ ins ∈ instrs, L1Defined cfg ins := by
            intro instrs hinstrs ins hins
            obtain ⟨data, hread, hfit⟩ := hfits instrs hinstrs
            exact (l1Defined_iff hfit.parses).mpr (hfit.judged hl2 instrs hread ins hins)
          obtain ⟨m, hm⟩ := (merge_ok_iff 0).mpr hjudged
          exact ⟨some m, m, hm, rfl⟩
    obtain ⟨printed, hprint⟩ := print_ok_iff.mpr
      ((@layersReport_printable_iff env.host args.format _ _ _ _ hmem).mpr
        ⟨fun hl2 instrs hinstrs => by
          obtain ⟨data, hread, hfit⟩ := hfits instrs hinstrs
          exact hfit.findings hl2 instrs hread,
        fun instrs hinstrs => by
          obtain ⟨data, hread, hfit⟩ := hfits instrs hinstrs
          exact hfit.overlaps instrs hread⟩)
    exact ⟨_, verify_of_parses ⟨hcfg, hlayers⟩ hlne hmem hprint⟩

section Verdict

variable {cfg : Config} {layers : List (List Instruction)}
  {memory : Option MemoryCheckResult} (hmem : L1Part cfg args layers memory)
  (printed : Printed)
include hmem

/-- The verdict is that the layers satisfy L1, unless it is off, and L2. -/
theorem layersReport_pass_iff : (layersReport layers memory).overallStatus = .pass ↔
    (args.l2Only = false → PassesL1 cfg layers) ∧
      ∀ instrs ∈ layers, ConflictFree instrs := by
  rw [overallStatus_eq_pass]
  refine and_congr ?_ ?_
  · cases memory with
    | none =>
        have hl2 := l1Part_none.mp hmem
        exact iff_of_true (fun m hm => nomatch hm) fun hf =>
          Bool.noConfusion (hl2.symm.trans hf)
    | some m =>
        obtain ⟨hl2, hm⟩ := l1Part_some.mp hmem
        have hpass := merge_pass_iff hm
        simp only [Nat.zero_add] at hpass
        exact ⟨fun h _ => hpass.mp (h m rfl), fun h m' hm' =>
          Option.some.inj hm' ▸ hpass.mpr (h hl2)⟩
  · have hpass := checkLayers_pass_iff layers
    exact ⟨fun h => hpass.mp (h _ rfl), fun h c hc => Option.some.inj hc ▸ hpass.mpr h⟩

/-- Status 0 is this verdict. -/
theorem code_zero_iff : (checkedResult (layersReport layers memory) printed).code = 0 ↔
    (args.l2Only = false → PassesL1 cfg layers) ∧
      ∀ instrs ∈ layers, ConflictFree instrs := by
  rw [← layersReport_pass_iff hmem]
  show (if (layersReport layers memory).overallStatus = .pass then (0 : Int) else 1) = 0 ↔ _
  split
  · next hpass => exact iff_of_true rfl hpass
  · next hfail => exact iff_of_false (by decide) hfail

/-- A report that passes has nothing to show. -/
theorem printable_of_pass (hpass : (layersReport layers memory).overallStatus = .pass)
    {host : PyHost} {format : Format} : (layersReport layers memory).Printable host format := by
  obtain ⟨hm, hc⟩ := overallStatus_eq_pass.mp hpass
  refine printable_of_no_entries (fun m hsome => ?_) fun c hsome => ?_
  · obtain rfl : memory = some m := hsome
    by_contra hne
    have hfail := (merge_fail_iff (l1Part_some.mp hmem).2).mpr hne
    rw [hm m rfl] at hfail
    cases hfail
  · obtain rfl := Option.some.inj hsome
    by_contra hne
    have hfail := (checkLayers_fail_iff layers).mpr hne
    rw [hc _ rfl] at hfail
    cases hfail

/-- Status 1 is a report with a violation or a conflict. -/
theorem code_one_iff : (checkedResult (layersReport layers memory) printed).code = 1 ↔
    (∃ m, memory = some m ∧ m.violations ≠ []) ∨
      (checkLayers layers).conflicts ≠ [] := by
  rw [checkedResult_code_one_iff, checkLayers_fail_iff]
  refine or_congr_left ?_
  refine exists_congr fun m => and_congr_right fun hm => ?_
  subst hm
  unfold L1Part at hmem
  split at hmem
  · cases hmem
  · obtain ⟨m', hm', hsome⟩ := hmem
    obtain rfl := Option.some.inj hsome
    exact merge_fail_iff hm'

end Verdict

/-- An exception of any stage ends with the status of a failed verification. -/
theorem status_of_ill_formed (h : NamesFiles env args) (hno : ¬ InputsWellFormed env args) :
    (main env args).status = 1 ∧ ¬ Flagged env args := by
  rw [← h.verify_ok_iff] at hno
  obtain ⟨e, he⟩ := eq_error_of_not_ok hno
  have hmain : main env args = .raised e := by rw [main_eq h.named, he]
  constructor
  · rw [hmain]
    rfl
  · rintro ⟨-, r, rep, hr, -⟩
    rw [hmain] at hr
    cases hr

/-- A short image looks like a violation. -/
theorem status_of_short_image (h : NamesFiles env args) {cfg : Config} {path : String}
    {data : List Byte} (hcfg : Config.init env args.config = .ok cfg)
    (hpath : path ∈ args.layerPaths env) (hdata : env.file path = .file data)
    (hshort : (PyVal.int data.length).lt cfg.spaceBytes = .ok true) :
    (main env args).status = 1 ∧ ¬ Flagged env args := by
  refine status_of_ill_formed h ?_
  intro hwell
  have hlong := (hwell.images cfg hcfg path hpath data hdata).parses.long
  rw [hshort] at hlong
  cases hlong

/-- **Exactly when the exit status can be trusted.** On existing files the
status is the documented one if and only if the inputs are well formed. -/
theorem exitsAsDocumented_iff (h : NamesFiles env args) :
    ExitsAsDocumented env args ↔ InputsWellFormed env args := by
  constructor
  · intro hdoc
    by_contra hno
    obtain ⟨hstatus, hnot⟩ := status_of_ill_formed h hno
    exact hnot (hdoc.fail.mp hstatus)
  · intro hwell
    obtain ⟨r, hr⟩ := h.verify_ok_iff.mpr hwell
    obtain ⟨cfg, layers, memory, printed, hparse, hmem, -, rfl⟩ := h.verify_checked hr
    have hmain : main env args =
        .returned (checkedResult (layersReport layers memory) printed) := by
      rw [main_eq h.named, hr]
    have hstatus : (main env args).status =
        (checkedResult (layersReport layers memory) printed).code := by
      rw [hmain]
      rfl
    have hclean : Clean env args ↔ (main env args).status = 0 := by
      rw [hstatus, code_zero_iff hmem printed]
      constructor
      · rintro ⟨cfg', layers', hparse', hgood⟩
        obtain ⟨rfl, rfl⟩ := hparse.unique hparse'
        exact hgood
      · exact fun hgood => ⟨cfg, layers, hparse, hgood⟩
    have hflagged : Flagged env args ↔ (main env args).status = 1 := by
      rw [hstatus, code_one_iff hmem printed]
      constructor
      · rintro ⟨-, r, rep, hr', hrep, hshown⟩
        obtain rfl := Outcome.returned.inj (hmain.symm.trans hr')
        obtain rfl := Option.some.inj hrep
        exact hshown.imp id fun ⟨c, hc, hne⟩ => Option.some.inj hc ▸ hne
      · intro hshown
        exact ⟨⟨cfg, layers, hparse⟩, _, _, hmain, rfl,
          hshown.imp id fun hne => ⟨_, rfl, hne⟩⟩
    refine ⟨hclean.mp, hflagged.symm, fun hno hno' => ?_⟩
    rw [hclean] at hno
    rw [hflagged] at hno'
    rcases checkedResult_code (layersReport layers memory) printed with h0 | h1
    · exact absurd (hstatus.trans h0) hno
    · exact absurd (hstatus.trans h1) hno'

end Status

/-! ## In the sample directory -/

theorem sampleArgs_namesFiles (name : String) {data : List Byte}
    (hname : sampleFile name = .file data) : NamesFiles sampleEnv (sampleArgs [name]) := by
  have hglob : sampleEnv.glob name = [name] := by
    simp only [sampleEnv, hname]
  refine ⟨Or.inr (List.cons_ne_nil _ _), fun path hpath => absurd hpath List.not_mem_nil,
    fun pat hpat => ?_, fun path hpath _ => ?_⟩
  · obtain rfl := List.mem_singleton.mp hpat
    rw [hglob]
    refine ⟨List.cons_ne_nil _ _, fun path hpath => ⟨data, ?_⟩⟩
    obtain rfl := List.mem_singleton.mp hpath
    exact hname
  · obtain rfl := Option.some.inj hpath
    exact ⟨sampleJson, rfl⟩

theorem exitsAsDocumented_iff_sample :
    ExitsAsDocumented sampleEnv (sampleArgs ["a.bin"]) := by
  have hfiles := sampleArgs_namesFiles "a.bin" rfl
  have hstatus : (main sampleEnv (sampleArgs ["a.bin"])).status = 0 := by decide +kernel
  obtain ⟨r, hmain, -⟩ := returned_of_status_zero hstatus
  exact (exitsAsDocumented_iff hfiles).mpr (hfiles.verify_ok_iff.mp ⟨r, verify_of_main hmain⟩)

/-- An image of fifteen bytes under a configuration for sixteen: status 1. -/
theorem not_exitsAsDocumented_short :
    NamesFiles sampleEnv (sampleArgs ["short.bin"]) ∧
      (main sampleEnv (sampleArgs ["short.bin"])).status = 1 ∧
      ¬ ExitsAsDocumented sampleEnv (sampleArgs ["short.bin"]) := by
  have hfiles := sampleArgs_namesFiles "short.bin" rfl
  have hpath : "short.bin" ∈ (sampleArgs ["short.bin"]).layerPaths sampleEnv :=
    List.mem_cons_self
  obtain ⟨hstatus, hnot⟩ := status_of_short_image hfiles rfl hpath rfl rfl
  exact ⟨hfiles, hstatus, fun hdoc => hnot (hdoc.fail.mp hstatus)⟩

end SpaceVerifier.Verifier
