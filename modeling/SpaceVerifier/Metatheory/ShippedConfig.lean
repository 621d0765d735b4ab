import SpaceVerifier.Metatheory.DecoderAgreement
import SpaceVerifier.Metatheory.ReportAccounts

/-!
# The shipped configuration

`config/default_config.json` leaves all its regions open: a bound is `null`. The
region tests take an open region for one that meets and contains nothing, so the
protected regions of the file protect nothing and its allowed region allows
nothing. Whatever the images hold, every instruction that copies is reported.
-/

namespace SpaceVerifier.Verifier

open Foundation SpaceVerifier.Runtime

/-- `config/default_config.json`, parsed. -/
def defaultConfigJson : PyVal :=
  .dict
    [("space_bytes", .int 524288), ("processor_n", .int 64), ("addr_bits", .none),
     ("protected_regions", .list
       [.dict [("name", .str "PROCESSOR"), ("begin", .int 0), ("end", .none)],
        .dict [("name", .str "MMIO"), ("begin", .none), ("end", .none)]]),
     ("allowed_regions", .list
       [.dict [("name", .str "TESTSCR"), ("begin", .none), ("end", .none)]])]

/-! ## Open regions -/

/-- A bound of the region is `null`. -/
def Region.Open (r : Region) : Prop := (r.begin.isNone || r.endBit.isNone) = true

theorem Region.Open.intersects {r : Region} (h : r.Open) (addr n : Int) :
    r.intersects addr n = .ok false := by
  unfold Region.intersects
  rw [if_pos (show (r.begin.isNone || r.endBit.isNone) = true from h)]
  rfl

theorem Region.Open.contains {r : Region} (h : r.Open) (addr n : Int) :
    r.contains addr n = .ok false := by
  unfold Region.contains
  rw [if_pos (show (r.begin.isNone || r.endBit.isNone) = true from h)]
  rfl

theorem firstIntersecting_open {rs : List Region} (h : ∀ r ∈ rs, r.Open) (dst n : Int) :
    firstIntersecting dst n rs = .ok none := by
  induction rs with
  | nil => rfl
  | cons r rs ih =>
      obtain ⟨hr, hrs⟩ := List.forall_mem_cons.mp h
      rw [firstIntersecting, hr.intersects]
      exact ih hrs

theorem isInAllowed_open {rs : List Region} (h : ∀ r ∈ rs, r.Open) (addr n : Int) :
    isInAllowed addr n rs = .ok false := by
  induction rs with
  | nil => rfl
  | cons r rs ih =>
      obtain ⟨hr, hrs⟩ := List.forall_mem_cons.mp h
      rw [isInAllowed, hr.contains]
      exact ih hrs

/-- There are allowed regions, and every region is open. -/
structure OpenRegions (cfg : Config) : Prop where
  protectedOpen : ∀ r ∈ cfg.protectedRegions, r.Open
  allowed : cfg.allowedRegions ≠ []
  allowedOpen : ∀ r ∈ cfg.allowedRegions, r.Open

/-! ## The report under open regions -/

/-- The reason names a region. -/
def Reason.NamesRegion : Reason → Prop
  | .protectedRegion _ _ _ => True
  | _ => False

def Violation.place (v : Violation) : Nat × Nat := (v.tick, v.slot)

/-- The places of the instructions that copy, layers numbered from `tick` on. -/
def copyingSlots : (tick : Nat) → List (List Instruction) → List (Nat × Nat)
  | _, [] => []
  | tick, instrs :: rest =>
      (active instrs).map (fun ins => (tick, ins.slot)) ++ copyingSlots (tick + 1) rest

section Open

variable {cfg : Config} (hopen : OpenRegions cfg) {tick : Nat}
include hopen

theorem checkInstr_open {ins : Instruction} {vs : List Violation}
    (h : checkInstr cfg tick ins = .ok vs) :
    vs.map Violation.place = (if ins.isNop then [] else [(tick, ins.slot)]) ∧
      ∀ v ∈ vs, ¬ v.reason.NamesRegion := by
  cases hnop : ins.isNop with
  | true =>
      rw [checkInstr, hnop] at h
      obtain rfl := Except.ok.inj h
      exact ⟨rfl, fun v hv => absurd hv List.not_mem_nil⟩
  | false =>
      have hempty : cfg.allowedRegions.isEmpty = false :=
        List.isEmpty_eq_false_iff.mpr hopen.allowed
      obtain ⟨bits, -, hcase⟩ := (checkInstr_eq_ok hnop).mp h
      rcases hcase with ⟨-, rfl⟩ | ⟨-, hit, hhit, ⟨hnone, -⟩ | ⟨-, inside, hinside, rfl⟩⟩
      · refine ⟨rfl, fun v hv => ?_⟩
        obtain rfl := List.mem_singleton.mp hv
        exact id
      · rw [hempty] at hnone
        cases hnone
      · rw [firstIntersecting_open hopen.protectedOpen] at hhit
        rw [isInAllowed_open hopen.allowedOpen] at hinside
        obtain rfl := Except.ok.inj hhit
        obtain rfl := Except.ok.inj hinside
        refine ⟨rfl, fun v hv => ?_⟩
        obtain rfl := List.mem_singleton.mp hv
        exact id

theorem checkInstrs_open {instrs : List Instruction} {vs : List Violation}
    (h : checkInstrs cfg tick instrs = .ok vs) :
    vs.map Violation.place = (active instrs).map (fun ins => (tick, ins.slot)) ∧
      ∀ v ∈ vs, ¬ v.reason.NamesRegion := by
  induction instrs generalizing vs with
  | nil =>
      obtain rfl := Except.ok.inj h
      exact ⟨rfl, fun v hv => absurd hv List.not_mem_nil⟩
  | cons ins rest ih =>
      obtain ⟨here, hhere, h⟩ := bind_eq_ok.mp h
      obtain ⟨others, hothers, h⟩ := bind_eq_ok.mp h
      obtain rfl := Except.ok.inj h
      obtain ⟨hplaces, hreasons⟩ := checkInstr_open hopen hhere
      obtain ⟨hplaces', hreasons'⟩ := ih hothers
      constructor
      · rw [List.map_append, hplaces, hplaces']
        unfold active
        rw [List.filter_cons]
        cases ins.isNop <;> rfl
      · exact List.forall_mem_append.mpr ⟨hreasons, hreasons'⟩

theorem merge_open {layers : List (List Instruction)} {m : MemoryCheckResult}
    (h : mergeMemoryResults cfg tick layers = .ok m) :
    m.violations.map Violation.place = copyingSlots tick layers ∧
      ∀ v ∈ m.violations, ¬ v.reason.NamesRegion := by
  induction layers generalizing tick m with
  | nil =>
      obtain rfl := Except.ok.inj h
      exact ⟨rfl, fun v hv => absurd hv List.not_mem_nil⟩
  | cons instrs rest ih =>
      obtain ⟨res, hres, h⟩ := bind_eq_ok.mp h
      obtain ⟨others, hothers, h⟩ := bind_eq_ok.mp h
      obtain rfl := Except.ok.inj h
      obtain ⟨vs, hvs, hres⟩ := bind_eq_ok.mp hres
      obtain rfl := Except.ok.inj hres
      obtain ⟨hplaces, hreasons⟩ := checkInstrs_open hopen hvs
      obtain ⟨hplaces', hreasons'⟩ := ih hothers
      constructor
      · rw [List.map_append, hplaces, hplaces', copyingSlots]
      · exact List.forall_mem_append.mpr ⟨hreasons, hreasons'⟩

end Open

/-- Layers that copy nothing have no conflicts. -/
theorem layerConflicts_of_copying_nil {tick : Nat} {layers : List (List Instruction)}
    (h : copyingSlots tick layers = []) : layerConflicts tick layers = [] := by
  induction layers generalizing tick with
  | nil => rfl
  | cons instrs rest ih =>
      obtain ⟨hfirst, hrest⟩ := List.append_eq_nil_iff.mp h
      have hactive : active instrs = [] := List.map_eq_nil_iff.mp hfirst
      rw [layerConflicts, ih hrest, List.append_nil, checkTick, tickIntervals, hactive]
      rfl

/-- Open regions are never compared. -/
theorem OpenRegions.l1Defined {cfg : Config} (h : OpenRegions cfg) {S : Nat}
    (hS : cfg.spaceBytes = .int S) (ins : Instruction) : L1Defined cfg ins := by
  refine Or.inr ⟨.int (S * 2 ^ 3), _, ?_, PyVal.lt_int _ _, Or.inr ⟨⟨none, ?_⟩, Or.inr ⟨false, ?_⟩⟩⟩
  · rw [Config.spaceBits, hS]
    rfl
  · exact firstIntersecting_open h.protectedOpen _ _
  · exact isInAllowed_open h.allowedOpen _ _

/-- Instructions of a machine have no number that an interpreter refuses, and open
regions are not shown: the report is printed. -/
theorem OpenRegions.printable {cfg : Config} (h : OpenRegions cfg) {S : Nat}
    (hS : cfg.spaceBytes = .int S) (hsize : S < 2 ^ 61) {args : Args}
    {layers : List (List Instruction)} {memory : Option MemoryCheckResult}
    (hmem : L1Part cfg args layers memory)
    (hfields : ∀ instrs ∈ layers, ∀ ins ∈ instrs,
      ins.n < 2 ^ 64 ∧ ins.dst < 2 ^ 64 ∧ ins.src < 2 ^ 64)
    {host : PyHost} {format : Format} : (layersReport layers memory).Printable host format := by
  have hfits : ∀ k : Nat, k < 2 ^ 65 → host.Fits k :=
    fun k hk => PyHost.fits_of_lt (k := 20) (by decide) (by omega)
  have hnumbers : ∀ instrs ∈ layers, ∀ ins ∈ instrs, NumbersFit host format ins := by
    intro instrs hinstrs ins hins
    obtain ⟨hn, hdst, hsrc⟩ := hfields instrs hinstrs ins hins
    exact ⟨hfits _ (by omega), fun _ => hfits _ (by omega)⟩
  refine (layersReport_printable_iff hmem).mpr ⟨fun _ instrs hinstrs ins hins _ => ?_, ?_⟩
  · refine ⟨fun bits hbits _ => ⟨hnumbers instrs hinstrs ins hins, ?_⟩, fun _ r hr => ?_,
      fun _ _ _ => hnumbers instrs hinstrs ins hins⟩
    · rw [Config.spaceBits, hS] at hbits
      obtain rfl := Except.ok.inj hbits
      exact shows_int.mpr (PyHost.fits_of_lt (k := 20) (by decide) (by omega))
    · rw [firstIntersecting_open h.protectedOpen] at hr
      cases hr
  · intro instrs hinstrs
    constructor
    · intro ins hins _
      obtain ⟨hn, hdst, hsrc⟩ := hfields instrs hinstrs ins (List.mem_of_mem_filter hins)
      exact hfits _ (by omega)
    · intro prev curr hin _
      have hcurr := mem_sortedIntervals.mp (hin.subset (List.mem_cons_of_mem _ List.mem_cons_self))
      obtain ⟨ins, hins, -, hmem, -⟩ := mem_tickIntervals.mp hcurr
      obtain ⟨hn, hdst, hsrc⟩ := hfields instrs hinstrs ins hins
      rcases mem_intervalsOf.mp hmem with rfl | rfl
      · exact hfits _ (by simp only; omega)
      · exact hfits _ (by simp only; omega)

/-! ## The shipped file -/

/-- The command line is given a copy of the shipped configuration. -/
def UsesShipped (env : Env) (args : Args) : Prop :=
  ∃ path contents, args.config = some path ∧ path ≠ "" ∧ env.file path = .file contents ∧
    env.jsonLoad contents = some defaultConfigJson

theorem resolve_regions {ceilLog2 : ℚ → Int} {c cfg : Config}
    (h : c.resolve ceilLog2 = .ok cfg) :
    cfg.protectedRegions = c.protectedRegions ∧ cfg.allowedRegions = c.allowedRegions := by
  unfold Config.resolve at h
  split at h
  · obtain ⟨_, -, h⟩ := bind_eq_ok.mp h
    obtain ⟨_, -, h⟩ := bind_eq_ok.mp h
    obtain rfl := Except.ok.inj h
    exact ⟨rfl, rfl⟩
  · obtain rfl := Except.ok.inj h
    exact ⟨rfl, rfl⟩

theorem init_of_json {env : Env} {path : String} {contents : List Byte} {d : PyVal}
    (hne : path ≠ "") (hfile : env.file path = .file contents)
    (hjson : env.jsonLoad contents = some d) :
    Config.init env (some path) = Config.default.load d >>= Config.resolve env.ceilLog2 := by
  simp only [Config.init, if_neg hne, openRead, hfile, bind, Except.bind, hjson]

theorem UsesShipped.openRegions {env : Env} {args : Args} (h : UsesShipped env args)
    {cfg : Config} (hcfg : Config.init env args.config = .ok cfg) : OpenRegions cfg := by
  obtain ⟨path, contents, hpath, hne, hfile, hjson⟩ := h
  rw [hpath, init_of_json hne hfile hjson] at hcfg
  obtain ⟨c, hload, hresolve⟩ := bind_eq_ok.mp hcfg
  -- loading the file is a computation
  obtain rfl := Except.ok.inj hload
  obtain ⟨hprotected, hallowed⟩ := resolve_regions hresolve
  have hall : ∀ r ∈ cfg.protectedRegions ++ cfg.allowedRegions, r.Open := by
    rw [hprotected, hallowed]
    show ∀ r ∈ [⟨.str "PROCESSOR", .int 0, .none⟩, ⟨.str "MMIO", .none, .none⟩,
      ⟨.str "TESTSCR", .none, .none⟩], Region.Open r
    simp [Region.Open, PyVal.isNone]
  refine ⟨fun r hr => hall r (List.mem_append_left _ hr), ?_,
    fun r hr => hall r (List.mem_append_right _ hr)⟩
  rw [hallowed]
  exact List.cons_ne_nil _ _

/-- **What the shipped configuration reports.** With L1 on, a printed report has
exactly one violation for each instruction that copies, in order, and none of them
is about a protected region; the status is 0 exactly when no layer copies. -/
theorem default_config_report {env : Env} {args : Args} {rep : Report}
    (hshipped : UsesShipped env args) (hl1 : args.l2Only = false) (h : Prints env args rep) :
    ∃ cfg layers m, Parses env args cfg layers ∧ rep.memory = some m ∧
      m.violations.map Violation.place = copyingSlots 0 layers ∧
      (∀ v ∈ m.violations, ¬ v.reason.NamesRegion) ∧
      ((main env args).status = 0 ↔ copyingSlots 0 layers = []) := by
  have hstatus := h.status_zero_iff.trans h.pass_iff
  obtain ⟨cfg, layers, memory, hparse, -, hmem, -, rfl⟩ := prints_iff.mp h
  simp only [L1Part, hl1, Bool.false_eq_true, if_false] at hmem
  obtain ⟨m, hm, rfl⟩ := hmem
  obtain ⟨hplaces, hreasons⟩ := merge_open (hshipped.openRegions hparse.config) hm
  refine ⟨cfg, layers, m, hparse, rfl, hplaces, hreasons, ?_⟩
  rw [hstatus, ← hplaces]
  constructor
  · intro hentries
    have hnone : m.violations.length = 0 := (Nat.add_eq_zero_iff.mp hentries).1
    rw [List.length_eq_zero_iff.mp hnone]
    rfl
  · intro hnone
    have hviol : m.violations = [] := List.map_eq_nil_iff.mp hnone
    have hconf : (checkLayers layers).conflicts = [] :=
      layerConflicts_of_copying_nil (hplaces ▸ hnone)
    show m.violations.length + (checkLayers layers).conflicts.length = 0
    rw [hviol, hconf]
    rfl

/-! ## An image with one copy -/

/-- `config/default_config.json`, as it is. -/
def defaultConfigText : String :=
  "\x7b\n  \"space_bytes\": 524288,\n  \"processor_n\": 64,\n  \"addr_bits\": null,\n" ++
    "  \"protected_regions\": [\n" ++
    "    \x7b\"name\": \"PROCESSOR\", \"begin\": 0, \"end\": null\x7d,\n" ++
    "    \x7b\"name\": \"MMIO\", \"begin\": null, \"end\": null\x7d\n  ],\n" ++
    "  \"allowed_regions\": [\n" ++
    "    \x7b\"name\": \"TESTSCR\", \"begin\": null, \"end\": null\x7d\n  ]\n\x7d\n"

/-- Slot 0 copies eight bits from 4096 to 2048, inside the space. -/
def copyImage : List Byte := [0, 0, 8, 0, 8, 0, 0, 16, 0] ++ List.replicate 524279 0

def shippedEnv : Env :=
  { file := fun path =>
      if path = "copy.bin" then .file copyImage
      else if path = "default_config.json" then .file (asciiBytes defaultConfigText)
      else .missing
    glob := fun _ => []
    jsonLoad := jsonFile defaultConfigText defaultConfigJson
    ceilLog2 := fun _ => 22
    host := sampleHost }

def shippedArgs : Args :=
  { image := some "copy.bin", layers := none, config := some "default_config.json"
    format := .text, l2Only := false }

theorem shipped_file :
    shippedEnv.file "default_config.json" = .file (asciiBytes defaultConfigText) := by
  simp only [shippedEnv, if_true]
  rw [if_neg (by decide)]

theorem shipped_json :
    shippedEnv.jsonLoad (asciiBytes defaultConfigText) = some defaultConfigJson := by
  simp only [shippedEnv, jsonFile_text]

theorem shipped_usesShipped : UsesShipped shippedEnv shippedArgs :=
  ⟨"default_config.json", _, rfl, by decide, shipped_file, shipped_json⟩

/-- The copy is reported, although it stays inside the space. -/
theorem default_config_report_copy : ∃ rep m, Prints shippedEnv shippedArgs rep ∧
    rep.memory = some m ∧ m.violations ≠ [] ∧ (main shippedEnv shippedArgs).status ≠ 0 := by
  obtain ⟨cfg, hcfg, hS, hP, ha⟩ : ∃ cfg, Config.init shippedEnv shippedArgs.config = .ok cfg ∧
      cfg.spaceBytes = .int (524288 : Nat) ∧ cfg.processorN = .int (64 : Nat) ∧
      cfg.addrBits = .int (24 : Nat) :=
    ⟨_, init_of_json (by decide) shipped_file shipped_json, rfl, rfl, rfl⟩
  have hlen : copyImage.length = 524288 := by
    rw [copyImage, List.length_append, List.length_replicate]
    rfl
  have hread : read cfg copyImage = .ok (program (imageMem copyImage) 24 64) :=
    read_eq hS hP ha (by decide) (by decide) (by rw [hlen]) (by rw [hlen]; decide)
  have hparse : Parses shippedEnv shippedArgs cfg [program (imageMem copyImage) 24 64] :=
    ⟨hcfg, .cons ⟨_, rfl, hread⟩ .nil⟩
  have hopen := shipped_usesShipped.openRegions hcfg
  obtain ⟨m, hm⟩ := (merge_ok_iff 0).mpr fun instrs
    (_ : instrs ∈ [program (imageMem copyImage) 24 64]) ins _ => hopen.l1Defined hS ins
  have hmem : L1Part cfg shippedArgs [program (imageMem copyImage) 24 64] (some m) :=
    l1Part_some.mpr ⟨rfl, hm⟩
  have hfields : ∀ instrs ∈ [program (imageMem copyImage) 24 64], ∀ ins ∈ instrs,
      ins.n < 2 ^ 64 ∧ ins.dst < 2 ^ 64 ∧ ins.src < 2 ^ 64 := by
    intro instrs hinstrs ins hins
    obtain rfl := List.mem_singleton.mp hinstrs
    obtain ⟨slot, -, rfl⟩ := List.mem_map.mp hins
    have hsmall : ∀ ip, uintAt (imageMem copyImage).bit ip 24 < 2 ^ 64 :=
      fun ip => (uintAt_lt _ _ _).trans (by decide)
    exact ⟨hsmall _, hsmall _, hsmall _⟩
  have hprints := prints_iff.mpr ⟨cfg, _, some m, hparse, List.cons_ne_nil _ _, hmem,
    hopen.printable hS (by decide) hmem hfields, rfl⟩
  have hcopies : copyingSlots 0 [program (imageMem copyImage) 24 64] ≠ [] := by
    have hfirst : (0, 0) ∈ copyingSlots 0 [program (imageMem copyImage) 24 64] := by
      refine List.mem_append_left _ (List.mem_map.mpr
        ⟨Instruction.ofInst 0 (instAt (imageMem copyImage).bit 0 24), ?_, rfl⟩)
      refine List.mem_filter.mpr ⟨List.mem_map.mpr ⟨0, by decide, rfl⟩, ?_⟩
      decide +kernel
    exact List.ne_nil_of_mem hfirst
  obtain ⟨cfg', layers, m', hparse', hm', hplaces, -, hstatus⟩ :=
    default_config_report shipped_usesShipped rfl hprints
  obtain ⟨-, rfl⟩ := hparse.unique hparse'
  refine ⟨_, m', hprints, hm', fun hnil => ?_, fun h0 => hcopies (hstatus.mp h0)⟩
  rw [hnil] at hplaces
  exact hcopies hplaces.symm

end SpaceVerifier.Verifier
