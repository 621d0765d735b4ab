import SpaceVerifier.Metatheory.ConflictList
import SpaceVerifier.Metatheory.ReportMerge

/-!
# What a report says

Every entry of a printed report is about a slot of one of the files, all entries
about a layer are there, and the totals count the slots of all files. Both
formats list the same number of entries, and exit status, JSON and text give the
same verdict, although each of them computes it on its own.
-/

namespace SpaceVerifier.Verifier

open Foundation

/-! ## Slots of an image -/

theorem readInstruction_slot {cfg : Config} {data : List Byte} {slot : Nat}
    {ins : Instruction} (h : readInstruction cfg data slot = .ok ins) : ins.slot = slot := by
  unfold readInstruction at h
  split at h
  · split at h
    · obtain rfl := Except.ok.inj h
      rfl
    · cases h
  · simp only [bind_eq_ok, pure_eq_ok] at h
    obtain ⟨_, -, _, -, _, -, _, -, _, -, rfl⟩ := h
    rfl

/-- An image has a slot for every number below `processor_n`, in order. -/
theorem read_slots {cfg : Config} {data : List Byte} {instrs : List Instruction}
    (h : read cfg data = .ok instrs) :
    ∃ k, cfg.processorN.range = .ok k ∧ instrs.map (·.slot) = List.range k := by
  obtain ⟨short, -, h⟩ := bind_eq_ok.mp h
  cases short with
  | true => cases h
  | false =>
      obtain ⟨k, hk, h⟩ := bind_eq_ok.mp h
      refine ⟨k, hk, ?_⟩
      have hslots : List.Forall₂ (fun slot (ins : Instruction) => slot = ins.slot)
          (List.range k) instrs :=
        (mapM_eq_ok_iff.mp h).imp fun _ _ hins => (readInstruction_slot hins).symm
      rw [← List.forall₂_map_right_iff, List.forall₂_eq_eq_eq] at hslots
      exact hslots.symm

/-! ## The entries about one layer -/

section Entries

variable {cfg : Config} {tick : Nat}

theorem checkInstr_mem {ins : Instruction} {vs : List Violation}
    (h : checkInstr cfg tick ins = .ok vs) {v : Violation} (hv : v ∈ vs) :
    ins.isNop = false ∧ ∃ reason, v = mkViolation tick ins reason := by
  cases hnop : ins.isNop with
  | true =>
      rw [checkInstr, hnop] at h
      obtain rfl := Except.ok.inj h
      cases hv
  | false =>
      refine ⟨rfl, ?_⟩
      have hparts : ∀ hit, v ∈ protectedPart tick ins hit →
          ∃ reason, v = mkViolation tick ins reason := by
        intro hit hv
        cases hit with
        | none => cases hv
        | some r => exact ⟨_, List.mem_singleton.mp hv⟩
      obtain ⟨bits, -, hcase⟩ := (checkInstr_eq_ok hnop).mp h
      rcases hcase with ⟨-, rfl⟩ | ⟨-, hit, -, ⟨-, rfl⟩ | ⟨-, inside, -, rfl⟩⟩
      · exact ⟨_, List.mem_singleton.mp hv⟩
      · exact hparts hit hv
      · rcases List.mem_append.mp hv with hv | hv
        · exact hparts hit hv
        · cases inside with
          | true => cases hv
          | false => exact ⟨_, List.mem_singleton.mp hv⟩

/-- The violation shows an instruction of the layer. -/
def Violation.Shows (v : Violation) (ins : Instruction) : Prop :=
  ins.isNop = false ∧ v.slot = ins.slot ∧ v.n = ins.n ∧ v.dst = ins.dst ∧ v.src = ins.src

theorem checkLayer_mem {instrs : List Instruction} {res : MemoryCheckResult}
    (h : checkLayer cfg instrs tick = .ok res) {v : Violation} (hv : v ∈ res.violations) :
    v.tick = tick ∧ ∃ ins ∈ instrs, v.Shows ins := by
  obtain ⟨vs, hvs, h⟩ := bind_eq_ok.mp h
  obtain rfl := Except.ok.inj h
  obtain ⟨vss, hvss, rfl⟩ := checkInstrs_eq_ok.mp hvs
  obtain ⟨vs, hmem, hv⟩ := List.mem_flatten.mp hv
  obtain ⟨ins, hins, hcheck⟩ := exists_left_of_forall₂ (mapM_eq_ok_iff.mp hvss) hmem
  obtain ⟨hnop, reason, rfl⟩ := checkInstr_mem hcheck hv
  exact ⟨rfl, ins, hins, hnop, rfl, rfl, rfl, rfl⟩

/-- The merged result is made of the results of its layers. -/
theorem merge_parts {layers : List (List Instruction)} {m : MemoryCheckResult}
    (h : mergeMemoryResults cfg tick layers = .ok m) :
    ∃ parts : List MemoryCheckResult, parts.length = layers.length ∧
      (∀ i instrs, layers[i]? = some instrs → ∃ res, parts[i]? = some res ∧
        checkLayer cfg instrs (tick + i) = .ok res) ∧
      m.violations = (parts.map (·.violations)).flatten := by
  induction layers generalizing tick m with
  | nil =>
      obtain rfl := Except.ok.inj h
      exact ⟨[], rfl, fun i instrs hi => (by cases hi), rfl⟩
  | cons first rest ih =>
      obtain ⟨res, hres, h⟩ := bind_eq_ok.mp h
      obtain ⟨others, hothers, h⟩ := bind_eq_ok.mp h
      obtain rfl := Except.ok.inj h
      obtain ⟨parts, hlen, hparts, hviol⟩ := ih hothers
      refine ⟨res :: parts, congrArg (· + 1) hlen, fun i instrs hi => ?_, ?_⟩
      · cases i with
        | zero =>
            obtain rfl := Option.some.inj hi
            exact ⟨res, rfl, hres⟩
        | succ i =>
            obtain ⟨res', hres', hcheck⟩ := hparts i instrs hi
            rw [show tick + 1 + i = tick + (i + 1) by omega] at hcheck
            exact ⟨res', hres', hcheck⟩
      · rw [List.map_cons, List.flatten_cons, ← hviol]

theorem merge_totals {layers : List (List Instruction)} {m : MemoryCheckResult}
    (h : mergeMemoryResults cfg tick layers = .ok m) :
    m.totalChecked = (layers.map List.length).sum ∧
      m.totalNop + (layers.map fun instrs => (active instrs).length).sum = m.totalChecked := by
  induction layers generalizing tick m with
  | nil =>
      obtain rfl := Except.ok.inj h
      exact ⟨rfl, rfl⟩
  | cons first rest ih =>
      obtain ⟨res, hres, h⟩ := bind_eq_ok.mp h
      obtain ⟨others, hothers, h⟩ := bind_eq_ok.mp h
      obtain rfl := Except.ok.inj h
      obtain ⟨vs, -, hres⟩ := bind_eq_ok.mp hres
      obtain rfl := Except.ok.inj hres
      obtain ⟨hchecked, hsum⟩ := ih hothers
      have hactive : first.countP (·.isNop) + (active first).length = first.length := by
        rw [active, ← List.countP_eq_length_filter, List.length_eq_countP_add_countP (·.isNop)]
        simp
      simp only [List.map_cons, List.sum_cons]
      omega

theorem checkTick_mem {instrs : List Instruction} (hslots : (instrs.map (·.slot)).Nodup)
    {c : Conflict} (hc : c ∈ checkTick instrs tick) : c.tick = tick ∧ c.Real instrs := by
  rcases List.mem_append.mp hc with hself | hscan
  · obtain ⟨ins, hins, hmem⟩ := List.mem_flatMap.mp hself
    refine ⟨?_, selfConflict_real hins hmem⟩
    obtain ⟨-, rfl⟩ := mem_selfConflict hmem
    rfl
  · obtain ⟨prev, curr, hin, hmem⟩ := mem_scanLine_iff.mp hscan
    refine ⟨?_, neighbourConflict_real hslots hin hmem⟩
    unfold neighbourConflict at hmem
    split at hmem
    · obtain rfl := List.mem_singleton.mp hmem
      rfl
    · cases hmem

theorem layerConflicts_eq_flatten (layers : List (List Instruction)) :
    layerConflicts tick layers =
      (layers.mapIdx fun i instrs => checkTick instrs (tick + i)).flatten := by
  induction layers generalizing tick with
  | nil => rfl
  | cons instrs rest ih =>
      rw [layerConflicts, ih, List.mapIdx_cons, List.flatten_cons]
      congr 2
      refine congrArg (List.mapIdx · rest) ?_
      funext i instrs
      rw [show tick + 1 + i = tick + (i + 1) by omega]

end Entries

/-! ## The account -/

/-- What the report of these layers, of `k` slots each, says. -/
structure Accounts (cfg : Config) (layers : List (List Instruction)) (k : Nat)
    (memory : Option MemoryCheckResult) (conflict : ConflictCheckResult) : Prop where
  layersChecked : conflict.layersChecked = layers.length
  conflicts : ∀ c ∈ conflict.conflicts, ∃ instrs, layers[c.tick]? = some instrs ∧ c.Real instrs
  ofLayer : ∀ i instrs, layers[i]? = some instrs →
    conflict.conflicts.filter (·.tick = i) = checkTick instrs i
  violations : ∀ m, memory = some m → ∀ v ∈ m.violations, ∃ instrs ins,
    layers[v.tick]? = some instrs ∧ instrs[v.slot]? = some ins ∧ v.Shows ins
  ofLayerL1 : ∀ m, memory = some m → ∀ i instrs, layers[i]? = some instrs →
    ∃ res, checkLayer cfg instrs i = .ok res ∧
      m.violations.filter (·.tick = i) = res.violations
  totals : ∀ m, memory = some m → m.totalChecked = layers.length * k ∧
    m.totalNop + conflict.totalNonNop = m.totalChecked

section Account

variable {cfg : Config} {layers : List (List Instruction)} {k : Nat}
  (hslots : ∀ instrs ∈ layers, instrs.map (·.slot) = List.range k)
include hslots

theorem conflicts_account :
    (∀ c ∈ (checkLayers layers).conflicts, ∃ instrs,
      layers[c.tick]? = some instrs ∧ c.Real instrs) ∧
    ∀ i instrs, layers[i]? = some instrs →
      (checkLayers layers).conflicts.filter (·.tick = i) = checkTick instrs i := by
  have hnodup : ∀ instrs ∈ layers, (instrs.map (·.slot)).Nodup := by
    intro instrs hinstrs
    rw [hslots instrs hinstrs]
    exact List.nodup_range
  have hblock : ∀ i block,
      (layers.mapIdx fun i instrs => checkTick instrs (0 + i))[i]? = some block →
      ∃ instrs, layers[i]? = some instrs ∧ block = checkTick instrs (0 + i) := by
    intro i block hi
    rw [List.getElem?_mapIdx, Option.map_eq_some_iff] at hi
    obtain ⟨instrs, hinstrs, rfl⟩ := hi
    exact ⟨instrs, hinstrs, rfl⟩
  have hlist : (checkLayers layers).conflicts =
      (layers.mapIdx fun i instrs => checkTick instrs (0 + i)).flatten :=
    layerConflicts_eq_flatten layers
  rw [hlist]
  constructor
  · intro c hc
    obtain ⟨block, hmem, hc⟩ := List.mem_flatten.mp hc
    obtain ⟨i, hi⟩ := List.mem_iff_getElem?.mp hmem
    obtain ⟨instrs, hinstrs, rfl⟩ := hblock i block hi
    obtain ⟨htick, hreal⟩ := checkTick_mem (hnodup instrs (List.mem_of_getElem? hinstrs)) hc
    rw [htick, Nat.zero_add]
    exact ⟨instrs, hinstrs, hreal⟩
  · intro i instrs hi
    have hthis : (layers.mapIdx fun i instrs => checkTick instrs (0 + i))[i]? =
        some (checkTick instrs (0 + i)) := by
      rw [List.getElem?_mapIdx, hi]
      rfl
    have htag : ∀ j block,
        (layers.mapIdx fun i instrs => checkTick instrs (0 + i))[j]? = some block →
        ∀ c ∈ block, c.tick = 0 + j := by
      intro j block hj c hc
      obtain ⟨instrs', hinstrs', rfl⟩ := hblock j block hj
      exact (checkTick_mem (hnodup instrs' (List.mem_of_getElem? hinstrs')) hc).1
    simpa only [Nat.zero_add] using filter_flatten_of_tag htag hthis

theorem violations_account {m : MemoryCheckResult}
    (h : mergeMemoryResults cfg 0 layers = .ok m) :
    (∀ v ∈ m.violations, ∃ instrs ins,
      layers[v.tick]? = some instrs ∧ instrs[v.slot]? = some ins ∧ v.Shows ins) ∧
    (∀ i instrs, layers[i]? = some instrs → ∃ res, checkLayer cfg instrs i = .ok res ∧
      m.violations.filter (·.tick = i) = res.violations) := by
  obtain ⟨parts, hlen, hparts, hviol⟩ := merge_parts h
  have hblock : ∀ i block, (parts.map (·.violations))[i]? = some block →
      ∃ instrs res, layers[i]? = some instrs ∧ checkLayer cfg instrs (0 + i) = .ok res ∧
        block = res.violations := by
    intro i block hi
    rw [List.getElem?_map, Option.map_eq_some_iff] at hi
    obtain ⟨res, hres, rfl⟩ := hi
    have hi : i < layers.length := hlen ▸ (List.getElem?_eq_some_iff.mp hres).1
    obtain ⟨res', hres', hcheck⟩ := hparts i _ (List.getElem?_eq_getElem hi)
    obtain rfl := Option.some.inj (hres.symm.trans hres')
    exact ⟨_, res, List.getElem?_eq_getElem hi, hcheck, rfl⟩
  rw [hviol]
  constructor
  · intro v hv
    obtain ⟨block, hmem, hv⟩ := List.mem_flatten.mp hv
    obtain ⟨i, hi⟩ := List.mem_iff_getElem?.mp hmem
    obtain ⟨instrs, res, hinstrs, hcheck, rfl⟩ := hblock i block hi
    obtain ⟨htick, ins, hins, hshows⟩ := checkLayer_mem hcheck hv
    refine ⟨instrs, ins, ?_, ?_, hshows⟩
    · rw [htick, Nat.zero_add]
      exact hinstrs
    · -- the slot number of an instruction is its place in the image
      obtain ⟨j, hj⟩ := List.mem_iff_getElem?.mp hins
      have hplace : (instrs.map (·.slot))[j]? = some ins.slot := by
        rw [List.getElem?_map, hj]
        rfl
      rw [hslots instrs (List.mem_of_getElem? hinstrs)] at hplace
      obtain ⟨hlt, heq⟩ := List.getElem?_eq_some_iff.mp hplace
      rw [List.getElem_range] at heq
      rw [hshows.2.1, ← heq]
      exact hj
  · intro i instrs hi
    obtain ⟨res, hres, hcheck⟩ := hparts i instrs hi
    rw [Nat.zero_add] at hcheck
    refine ⟨res, hcheck, ?_⟩
    have hthis : (parts.map (·.violations))[i]? = some res.violations := by
      rw [List.getElem?_map, hres]
      rfl
    have htag : ∀ j block, (parts.map (·.violations))[j]? = some block →
        ∀ v ∈ block, v.tick = 0 + j := by
      intro j block hj v hv
      obtain ⟨_, res', -, hcheck', rfl⟩ := hblock j block hj
      exact (checkLayer_mem hcheck' hv).1
    simpa only [Nat.zero_add] using filter_flatten_of_tag htag hthis

end Account

/-- **A printed report accounts for its files.** Its entries about a layer are
those of the two checkers for the file in that place, each of them shows a slot
of the file, and no slot is missing from the totals. -/
theorem report_accounts {env : Env} {args : Args} {rep : Report}
    (h : Prints env args rep) :
    ∃ cfg layers k conflict, Parses env args cfg layers ∧ cfg.processorN.range = .ok k ∧
      rep.conflict = some conflict ∧ Accounts cfg layers k rep.memory conflict := by
  obtain ⟨cfg, layers, memory, hparse, hne, hmem, -, rfl⟩ := prints_iff.mp h
  have hread : ∀ instrs ∈ layers, ∃ data, read cfg data = .ok instrs := by
    intro instrs hinstrs
    obtain ⟨-, -, data, -, hread⟩ := exists_left_of_forall₂ hparse.images hinstrs
    exact ⟨data, hread⟩
  obtain ⟨first, hfirst⟩ := List.exists_mem_of_ne_nil _ hne
  obtain ⟨data, hdata⟩ := hread first hfirst
  obtain ⟨k, hk, -⟩ := read_slots hdata
  have hslots : ∀ instrs ∈ layers, instrs.map (·.slot) = List.range k := by
    intro instrs hinstrs
    obtain ⟨data, hdata⟩ := hread instrs hinstrs
    obtain ⟨k', hk', hslots⟩ := read_slots hdata
    rwa [Except.ok.inj (hk.symm.trans hk')]
  have hmerge : ∀ m, memory = some m → mergeMemoryResults cfg 0 layers = .ok m := by
    rintro m rfl
    exact (l1Part_some.mp hmem).2
  have hlength : (layers.map List.length).sum = layers.length * k := by
    rw [List.map_congr_left (g := fun _ => k), List.map_const', List.sum_replicate,
      smul_eq_mul]
    intro instrs hinstrs
    rw [← List.length_map (·.slot), hslots instrs hinstrs, List.length_range]
  refine ⟨cfg, layers, k, checkLayers layers, hparse, hk, rfl, rfl,
    (conflicts_account hslots).1, (conflicts_account hslots).2,
    fun m hm => (violations_account hslots (hmerge m hm)).1,
    fun m hm => (violations_account hslots (hmerge m hm)).2, fun m hm => ?_⟩
  obtain ⟨hchecked, hsum⟩ := merge_totals (hmerge m hm)
  exact ⟨hchecked.trans hlength, hsum⟩

/-- The image with two copies that meet: its violation and its conflict are accounted
for. -/
theorem report_accounts_clash : ∃ cfg layers k conflict,
    clashReport.conflict = some conflict ∧ conflict.conflicts ≠ [] ∧
      Accounts cfg layers k clashReport.memory conflict := by
  obtain ⟨cfg, layers, k, conflict, -, -, hconflict, haccounts⟩ := report_accounts clash_prints
  refine ⟨cfg, layers, k, conflict, hconflict, ?_, haccounts⟩
  obtain rfl := Option.some.inj hconflict
  decide

/-! ## The two formats -/

/-- The line of the text is about one violation or conflict. -/
def isEntry (line : PyStr) : Bool := line.startsWith "    ❌"

/-- The elements of a list of the JSON report. -/
def jsonEntries (report : PyVal) (level key : String) : Except PyExc (List PyVal) := do
  (← (← report.item level).item key).iter

/-- The element shows the violation, field by field. -/
structure ListsViolation (host : PyHost) (d : PyVal) (v : Violation) : Prop where
  tick : d.item "tick" = .ok (.int v.tick)
  slot : d.item "slot" = .ok (.int v.slot)
  n : d.item "n" = .ok (.int v.n)
  dst : d.item "dst" = .ok (.int v.dst)
  src : d.item "src" = .ok (.int v.src)
  reason : ∃ t, v.reason.text host = .ok t ∧ d.item "reason" = .ok (.str t)

structure ListsConflict (d : PyVal) (c : Conflict) : Prop where
  tick : d.item "tick" = .ok (.int c.tick)
  slotA : d.item "slot_a" = .ok (.int c.slotA)
  slotB : d.item "slot_b" = .ok (.int c.slotB)
  overlapBegin : d.item "overlap_begin" = .ok (.int c.overlapBegin)
  overlapEnd : d.item "overlap_end" = .ok (.int c.overlapEnd)
  kind : d.item "kind" = .ok (.str c.kind.text)

/-- The number of entries of both levels. -/
def Report.entries (r : Report) : Nat :=
  (r.memory.map (·.violations.length)).getD 0 + (r.conflict.map (·.conflicts.length)).getD 0

/-- The entry lines of a report, in order: the violations, then the conflicts. -/
def Report.entryLines (host : PyHost) (r : Report) : Except PyExc (List PyStr) := do
  let violations := (r.memory.map (·.violations)).getD []
  let conflicts := (r.conflict.map (·.conflicts)).getD []
  return (← violations.mapM (violationLine host)) ++ (← conflicts.mapM (conflictLine host))

/-- No text from the configuration that an entry shows breaks its line. -/
def Report.NamesOneLine (r : Report) : Prop :=
  ∀ m, r.memory = some m → ∀ v ∈ m.violations,
    ∀ s, Piece.val (.str s) ∈ v.reason.pieces → s.OneLine

/-- The JSON of a report lists its entries, and has the verdict. -/
structure JsonCoherent (host : PyHost) (status : Int) (rep : Report) (d : PyVal) : Prop where
  violations : ∀ m, rep.memory = some m →
    ∃ entries, jsonEntries d "memory_check" "violations" = .ok entries ∧
      List.Forall₂ (ListsViolation host) entries m.violations
  conflicts : ∀ c, rep.conflict = some c →
    ∃ entries, jsonEntries d "conflict_check" "conflicts" = .ok entries ∧
      List.Forall₂ ListsConflict entries c.conflicts
  verdict : d.item "overall_status" = .ok (.str (if status = 0 then "PASS" else "FAIL"))

/-- The text of a report has a line for each of its entries, and the verdict. -/
structure TextCoherent (host : PyHost) (status : Int) (rep : Report) (t : PyStr) : Prop where
  entries : rep.NamesOneLine → rep.entryLines host = .ok (t.lines.filter isEntry)
  count : rep.NamesOneLine → (t.lines.filter isEntry).length = rep.entries
  verdict : t.lines.getLast? =
    some (if status = 0 then "  OVERALL: PASS" else "  OVERALL: FAIL")

def Coherent (host : PyHost) (status : Int) (rep : Report) : Printed → Prop
  | .json d => JsonCoherent host status rep d
  | .text t => TextCoherent host status rep t

section Formats

variable {host : PyHost} {rep : Report}

/-! ### Entries in JSON -/

theorem listsViolation_of {v : Violation} {d : PyVal} (h : violationToDict host v = .ok d) :
    ListsViolation host d v := by
  obtain ⟨reason, hreason, -, rfl⟩ := violationToDict_eq_ok.mp h
  exact ⟨rfl, rfl, rfl, rfl, rfl, reason, hreason, rfl⟩

theorem listsConflict_of {c : Conflict} {d : PyVal} (h : conflictToDict host c = .ok d) :
    ListsConflict d c := by
  obtain ⟨-, rfl⟩ := conflictToDict_eq_ok.mp h
  exact ⟨rfl, rfl, rfl, rfl, rfl, rfl⟩

theorem toJson_violations {d : PyVal} (h : rep.toJson host = .ok d) {m : MemoryCheckResult}
    (hm : rep.memory = some m) :
    ∃ entries, jsonEntries d "memory_check" "violations" = .ok entries ∧
      List.Forall₂ (ListsViolation host) entries m.violations := by
  obtain ⟨memory, conflict, hmemory, -, rfl⟩ := toJson_eq_ok.mp h
  rw [hm] at hmemory
  obtain ⟨_, hdict, rfl⟩ := mapM_some.mp hmemory
  obtain ⟨entries, hentries, rfl⟩ := memoryCheckToDict_eq_ok.mp hdict
  refine ⟨entries, rfl, ?_⟩
  exact (mapM_eq_ok_iff.mp hentries).flip.imp fun _ _ hd => listsViolation_of hd

theorem toJson_conflicts {d : PyVal} (h : rep.toJson host = .ok d) {c : ConflictCheckResult}
    (hc : rep.conflict = some c) :
    ∃ entries, jsonEntries d "conflict_check" "conflicts" = .ok entries ∧
      List.Forall₂ ListsConflict entries c.conflicts := by
  obtain ⟨memory, conflict, hmemory, hconflict, rfl⟩ := toJson_eq_ok.mp h
  rw [hc] at hconflict
  obtain ⟨_, hdict, rfl⟩ := mapM_some.mp hconflict
  obtain ⟨entries, hentries, rfl⟩ := conflictCheckToDict_eq_ok.mp hdict
  refine ⟨entries, ?_, (mapM_eq_ok_iff.mp hentries).flip.imp fun _ _ hd => listsConflict_of hd⟩
  cases hm : rep.memory with
  | none =>
      rw [hm] at hmemory
      rw [mapM_none.mp hmemory]
      rfl
  | some m =>
      rw [hm] at hmemory
      obtain ⟨_, -, rfl⟩ := mapM_some.mp hmemory
      rfl

theorem toJson_verdict {d : PyVal} (h : rep.toJson host = .ok d) :
    d.item "overall_status" = .ok (.str rep.jsonStatus.text) := by
  obtain ⟨memory, conflict, hmemory, hconflict, rfl⟩ := toJson_eq_ok.mp h
  obtain ⟨_ | m, _ | c⟩ := rep
  · rw [mapM_none.mp hmemory, mapM_none.mp hconflict]
    rfl
  · obtain ⟨_, -, rfl⟩ := mapM_some.mp hconflict
    rw [mapM_none.mp hmemory]
    rfl
  · obtain ⟨_, -, rfl⟩ := mapM_some.mp hmemory
    rw [mapM_none.mp hconflict]
    rfl
  · obtain ⟨_, -, rfl⟩ := mapM_some.mp hmemory
    obtain ⟨_, -, rfl⟩ := mapM_some.mp hconflict
    rfl

/-! ### Entries in the text -/

theorem isEntry_violationLine {v : Violation} {l : PyStr}
    (h : violationLine host v = .ok l) : isEntry l = true := by
  obtain ⟨t, -, h⟩ := bind_eq_ok.mp h
  exact (fstring_startsWith (by decide) h).trans (by decide)

theorem isEntry_conflictLine {c : Conflict} {l : PyStr} (h : conflictLine host c = .ok l) :
    isEntry l = true :=
  (fstring_startsWith (by decide) h).trans (by decide)

theorem isEntry_memoryHead (m : MemoryCheckResult) : (memoryHead m).filter isEntry = [] := by
  refine List.filter_eq_nil_iff.mpr ?_
  simp only [memoryHead, List.forall_mem_cons, List.not_mem_nil, false_imp_iff, implies_true,
    and_true, isEntry, Bool.not_eq_true]
  exact ⟨by decide, (PyStr.startsWith_concat _ (by decide)).trans (by decide),
    (PyStr.startsWith_concat _ (by decide)).trans (by decide)⟩

theorem isEntry_conflictHead (c : ConflictCheckResult) :
    (conflictHead c).filter isEntry = [] := by
  refine List.filter_eq_nil_iff.mpr ?_
  simp only [conflictHead, List.forall_mem_cons, List.not_mem_nil, false_imp_iff, implies_true,
    and_true, isEntry, Bool.not_eq_true]
  exact ⟨by decide, (PyStr.startsWith_concat _ (by decide)).trans (by decide),
    (PyStr.startsWith_concat _ (by decide)).trans (by decide)⟩

/-- Among the lines of a level exactly those of its entries are entry lines. -/
theorem filter_entryLines {α : Type} {line : α → Except PyExc PyStr} {none : PyStr}
    {entries : List α} (hnone : isEntry none = false)
    (hline : ∀ e l, line e = .ok l → isEntry l = true) {ls : List PyStr}
    (h : entryLines line none entries = .ok ls) :
    entries.mapM line = .ok (ls.filter isEntry) := by
  unfold entryLines at h
  split at h
  · next hempty =>
      obtain rfl := Except.ok.inj h
      rw [List.isEmpty_iff.mp hempty, List.filter_singleton, hnone]
      rfl
  · rw [h, List.filter_eq_self.mpr]
    intro l hl
    obtain ⟨e, -, he⟩ := exists_left_of_forall₂ (mapM_eq_ok_iff.mp h) hl
    exact hline e l he

theorem filter_textLines {ls : List PyStr} (h : rep.textLines host = .ok ls) :
    rep.entryLines host = .ok (ls.filter isEntry) := by
  obtain ⟨memory, conflict, hmemory, hconflict, rfl⟩ := textLines_eq_ok.mp h
  have hlast : [rule, overallLine rep].filter isEntry = [] := by
    have hrule : isEntry rule = false := by decide
    have hoverall : isEntry (overallLine rep) = false :=
      (PyStr.startsWith_concat _ (by decide)).trans (by decide)
    simp [hrule, hoverall]
  have hviolations : ((rep.memory.map (·.violations)).getD []).mapM (violationLine host) =
      .ok (memory.flatten.filter isEntry) := by
    cases hm : rep.memory with
    | none =>
        rw [hm] at hmemory
        rw [mapM_none.mp hmemory]
        rfl
    | some m =>
        rw [hm] at hmemory
        obtain ⟨_, hlines, rfl⟩ := mapM_some.mp hmemory
        obtain ⟨entries, hentries, hlines⟩ := bind_eq_ok.mp hlines
        obtain rfl := Except.ok.inj hlines
        rw [List.flatten_singleton, List.filter_append, isEntry_memoryHead, List.nil_append]
        exact filter_entryLines (by decide) (fun _ _ => isEntry_violationLine) hentries
  have hconflicts : ((rep.conflict.map (·.conflicts)).getD []).mapM (conflictLine host) =
      .ok (conflict.flatten.filter isEntry) := by
    cases hc : rep.conflict with
    | none =>
        rw [hc] at hconflict
        rw [mapM_none.mp hconflict]
        rfl
    | some c =>
        rw [hc] at hconflict
        obtain ⟨_, hlines, rfl⟩ := mapM_some.mp hconflict
        obtain ⟨entries, hentries, hlines⟩ := bind_eq_ok.mp hlines
        obtain rfl := Except.ok.inj hlines
        rw [List.flatten_singleton, List.filter_append, isEntry_conflictHead, List.nil_append]
        exact filter_entryLines (by decide) (fun _ _ => isEntry_conflictLine) hentries
  rw [List.filter_append, List.filter_append, hlast, List.append_nil]
  exact bind_eq_ok.mpr ⟨_, hviolations, bind_eq_ok.mpr ⟨_, hconflicts, rfl⟩⟩

/-- There is one entry line for each violation and each conflict. -/
theorem entryLines_length {ls : List PyStr} (h : rep.entryLines host = .ok ls) :
    ls.length = rep.entries := by
  obtain ⟨violations, hviolations, h⟩ := bind_eq_ok.mp h
  obtain ⟨conflicts, hconflicts, h⟩ := bind_eq_ok.mp h
  obtain rfl := Except.ok.inj h
  rw [List.length_append, ← (mapM_eq_ok_iff.mp hviolations).length_eq,
    ← (mapM_eq_ok_iff.mp hconflicts).length_eq, Report.entries]
  cases rep.memory <;> cases rep.conflict <;> rfl

theorem toText_lines {t : PyStr} (h : rep.toText host = .ok t) (hnames : rep.NamesOneLine) :
    rep.textLines host = .ok t.lines := by
  obtain ⟨ls, hls, h⟩ := bind_eq_ok.mp h
  obtain rfl := Except.ok.inj h
  have hne : ls ≠ [] := by
    obtain ⟨memory, conflict, -, -, rfl⟩ := textLines_eq_ok.mp hls
    exact List.append_ne_nil_of_right_ne_nil _ (List.cons_ne_nil _ _)
  rw [PyStr.lines_join hne ((textLines_over_iff (fun _ hc => hc.2) hls).mpr hnames)]
  exact hls

theorem toText_last {t : PyStr} (h : rep.toText host = .ok t) :
    t.lines.getLast? = some (overallLine rep) := by
  obtain ⟨ls, hls, h⟩ := bind_eq_ok.mp h
  obtain rfl := Except.ok.inj h
  obtain ⟨memory, conflict, -, -, rfl⟩ := textLines_eq_ok.mp hls
  have hlast : memory.flatten ++ conflict.flatten ++ [rule, overallLine rep] =
      memory.flatten ++ conflict.flatten ++ [rule] ++ [overallLine rep] := by
    simp
  rw [hlast]
  exact PyStr.getLast?_lines_join ((overallLine_plain rep).mono fun _ hc => hc.2)

end Formats

/-! ## One verdict -/

/-- The three computations of the verdict agree. -/
theorem statuses_agree (r : Report) :
    r.jsonStatus = r.overallStatus ∧ r.textStatus = r.overallStatus := by
  obtain ⟨_ | ⟨_ | _, _, _, _⟩, _ | ⟨_ | _, _, _, _⟩⟩ := r <;> exact ⟨rfl, rfl⟩

/-- A printed report passes exactly when it has no entries. -/
theorem Prints.pass_iff {env : Env} {args : Args} {rep : Report} (h : Prints env args rep) :
    rep.overallStatus = .pass ↔ rep.entries = 0 := by
  obtain ⟨cfg, layers, memory, -, -, hmem, -, rfl⟩ := prints_iff.mp h
  have hl2 : (checkLayers layers).status = .pass ↔
      (checkLayers layers).conflicts.length = 0 := by
    rw [List.length_eq_zero_iff, ← not_iff_not, ← ne_eq, ← ne_eq, Status.ne_pass_iff]
    exact checkLayers_fail_iff layers
  rw [overallStatus_eq_pass, Report.entries]
  cases memory with
  | none => simp [layersReport, hl2]
  | some m =>
      have hl1 : m.status = .pass ↔ m.violations.length = 0 := by
        rw [List.length_eq_zero_iff, ← not_iff_not, ← ne_eq, ← ne_eq, Status.ne_pass_iff]
        exact merge_fail_iff (l1Part_some.mp hmem).2
      simp [layersReport, hl1, hl2]

/-- What `main` printed is the report in the format asked for. -/
theorem Prints.stdout {env : Env} {args : Args} {rep : Report} (h : Prints env args rep) :
    ∃ r printed, main env args = .returned r ∧ r.stdout = some printed ∧
      rep.print env.host args.format = .ok printed := by
  obtain ⟨cfg, layers, memory, printed, -, -, -, -, hprint, hmain⟩ := h.checked
  exact ⟨_, printed, hmain, rfl, hprint⟩

/-- **The formats of a printed report agree**, with each other and with the exit
status. What is printed lists every entry, in either format, and the verdict is PASS
exactly with status 0, which is exactly when there is no entry. -/
theorem report_coherent {env : Env} {args : Args} {rep : Report} (h : Prints env args rep) :
    (∃ r printed, main env args = .returned r ∧ r.stdout = some printed ∧
      rep.print env.host args.format = .ok printed) ∧
    (∀ host format printed, rep.print host format = .ok printed →
      Coherent host (main env args).status rep printed) ∧
    ((main env args).status = 0 ↔ rep.entries = 0) := by
  obtain ⟨hjson, htext⟩ := statuses_agree rep
  have hzero := h.status_zero_iff
  have hverdict : rep.overallStatus = if (main env args).status = 0 then .pass else .fail := by
    split
    · next h0 => exact hzero.mp h0
    · next h0 => exact Status.ne_pass_iff.mp fun hpass => h0 (hzero.mpr hpass)
  refine ⟨h.stdout, fun host format printed hprint => ?_, hzero.trans h.pass_iff⟩
  cases format with
  | json =>
      obtain ⟨d, hd, rfl⟩ := print_json_eq_ok.mp hprint
      refine ⟨fun m hm => toJson_violations hd hm, fun c hc => toJson_conflicts hd hc, ?_⟩
      rw [toJson_verdict hd, hjson, hverdict]
      split <;> rfl
  | text =>
      obtain ⟨t, ht, -, rfl⟩ := print_text_eq_ok.mp hprint
      have hentries := fun hnames => filter_textLines (toText_lines ht hnames)
      refine ⟨hentries, fun hnames => entryLines_length (hentries hnames), ?_⟩
      rw [toText_last ht, overallLine, htext, hverdict]
      split <;> rfl

/-- The text about the image with two copies that meet: two entries, and FAIL. -/
theorem report_coherent_clash : ∃ t, clashReport.print sampleHost .text = .ok (.text t) ∧
    (t.lines.filter isEntry).length = 2 ∧ t.lines.getLast? = some "  OVERALL: FAIL" := by
  obtain ⟨printed, hprint⟩ := print_ok_iff.mpr clash_printable
  obtain ⟨t, -, -, rfl⟩ := print_text_eq_ok.mp hprint
  obtain ⟨-, hcoherent, hclean⟩ := report_coherent clash_prints
  obtain ⟨-, hcount, hverdict⟩ := hcoherent sampleHost .text _ hprint
  have hentries : clashReport.entries = 2 := by decide
  have hnames : clashReport.NamesOneLine := by
    intro m hm v hv s hs
    obtain rfl := Option.some.inj hm
    obtain rfl := List.mem_singleton.mp hv
    simp only [Reason.pieces, systemRegion, List.mem_cons, reduceCtorEq, Piece.val.injEq,
      PyVal.str.injEq, List.not_mem_nil, false_or, or_false] at hs
    subst hs
    decide
  rw [hentries] at hclean
  refine ⟨t, hprint, (hcount hnames).trans hentries, ?_⟩
  rw [hverdict, if_neg fun h0 => absurd (hclean.mp h0) (by decide)]

end SpaceVerifier.Verifier
