import SpaceVerifier.Metatheory.ReportMerge
import SpaceVerifier.Metatheory.VerifiedRounds

/-!
# Verify, then run

The pipeline of the documentation: `spaces-verify` first, the runtime only on
exit status 0. What the status promises for the runs of every layer that was
named on the command line, when the configuration describes the machine and
protects everything below its workspace.
-/

namespace SpaceVerifier.Verifier

open Foundation SpaceVerifier.Runtime

/-- The configuration of the command line has the sizes of the machine, derives
the address width, and protects every bit below the workspace; L1 is on. -/
structure Guards (env : Env) (args : Args) (S P : Nat) (vm : Vm)
    (prot allowed : List Region) : Prop where
  config : Config.init env args.config = .ok (Config.derived S P prot allowed)
  l1 : args.l2Only = false
  bounds : IntBounds prot
  covers : Covers prot vm.workspaceBase

/-- Status 0 is the verdict that all layers parse and pass. -/
theorem clean_of_status {env : Env} {args : Args} (h : (main env args).status = 0) :
    Clean env args := by
  obtain ⟨r, hmain, hcode⟩ := returned_of_status_zero h
  rcases verify_cases (verify_of_main hmain) with ⟨htwo, -⟩ | hchecked
  · rw [htwo] at hcode
    cases hcode
  · obtain ⟨cfg, layers, memory, printed, hparse, -, hmem, -, rfl⟩ := hchecked
    obtain ⟨hl1, hl2⟩ := (code_zero_iff hmem printed).mp hcode
    exact ⟨cfg, layers, hparse, hl1, hl2⟩

/-- The converse, for a command line that finds a layer. -/
theorem status_of_clean {env : Env} {args : Args} (h : Clean env args)
    (hne : args.layerPaths env ≠ []) : (main env args).status = 0 := by
  obtain ⟨cfg, layers, hparse, hl1, hl2⟩ := h
  have hlayers : layers ≠ [] := by
    rintro rfl
    exact hne (List.forall₂_nil_right_iff.mp hparse.images)
  have hmem : ∃ memory, L1Part cfg args layers memory := by
    unfold L1Part
    split
    · exact ⟨none, rfl⟩
    · next hl2only =>
      have hpasses := hl1 (Bool.eq_false_iff.mpr hl2only)
      obtain ⟨m, hm⟩ := (merge_ok_iff 0).mpr fun instrs hinstrs => by
        obtain ⟨i, hi⟩ := List.mem_iff_getElem?.mp hinstrs
        obtain ⟨res, hres, -⟩ := hpasses i instrs hi
        exact (checkLayer_ok_iff i).mp ⟨res, hres⟩
      exact ⟨some m, m, hm, rfl⟩
  obtain ⟨memory, hmem⟩ := hmem
  have hpass := (layersReport_pass_iff hmem).mpr ⟨hl1, hl2⟩
  have hprints : Prints env args (layersReport layers memory) :=
    prints_iff.mpr ⟨cfg, layers, memory, hparse, hlayers, hmem,
      printable_of_pass hmem hpass, rfl⟩
  exact hprints.status_zero_iff.mpr hpass

section Pipeline

variable {calloc : Nat → Bool} {S P : Nat} {vm : Vm} {prot allowed : List Region}
  {env : Env} {args : Args}

/-- Every layer of a run with status 0 is a verified image without conflicts. -/
theorem verified_of_status (h : Accepted calloc S P vm)
    (hlimit : CallocLimit calloc (2 ^ 61)) (hguards : Guards env args S P vm prot allowed)
    (hstatus : (main env args).status = 0) {path : String} {data : List Byte}
    (hpath : path ∈ args.layerPaths env) (hdata : env.file path = .file data)
    (hlength : data.length = S) (hreq : (imageMem data).bit vm.mmio.inReq = false) :
    ∃ instrs, read (Config.derived S P prot allowed) data = .ok instrs ∧
      Verified calloc S P vm prot allowed data instrs ∧ ConflictFree instrs := by
  obtain ⟨hg, hS, hP⟩ := h.wf hlimit
  obtain ⟨cfg, layers, hparse, hl1, hl2⟩ := clean_of_status hstatus
  obtain rfl := Except.ok.inj (hguards.config.symm.trans hparse.config)
  obtain ⟨instrs, hinstrs, data', hfile, hread⟩ := exists_right_of_forall₂ hparse.images hpath
  obtain rfl : data = data' := FileEntry.file.inj (hdata.symm.trans hfile)
  obtain ⟨i, hi⟩ := List.mem_iff_getElem?.mp hinstrs
  obtain ⟨res, hcheck, hpass⟩ := hl1 hguards.l1 i instrs hi
  have hcfg := resolve_ofSizes (spaceBytes_pos hg) vm.processorN prot allowed
  rw [hS, hP] at hcfg
  exact ⟨instrs, hread,
    { accepted := h
      limit := hlimit
      bounds := hguards.bounds
      covers := hguards.covers
      length := hlength
      inReq := hreq
      passes := ⟨_, i, res, hcfg, hread, hcheck, hpass⟩ }, hl2 instrs hinstrs⟩

/-- **Verify, then run.** If `spaces-verify` exits with status 0 under a
configuration that guards the machine, then no run of any layer it was given
changes the code of that layer, and a runnable layer runs without error and is
finished after one tick, which may execute its slots in any order. -/
theorem verify_then_run (h : Accepted calloc S P vm) (hlimit : CallocLimit calloc (2 ^ 53))
    (hguards : Guards env args S P vm prot allowed)
    (hstatus : (main env args).status = 0) {path : String} {data : List Byte}
    (hpath : path ∈ args.layerPaths env) (hdata : env.file path = .file data)
    (hlength : data.length = S) (hreq : (imageMem data).bit vm.mmio.inReq = false) :
    ∃ instrs, read (Config.derived S P prot allowed) data = .ok instrs ∧
      ∀ w, Loaded vm data w →
        (∀ life, ∀ p < vm.processorBits,
          (vmRun life w).val.2.vm.mem.bit p = w.vm.mem.bit p) ∧
        (Runnable vm data instrs → ∀ life order, order.Perm instrs →
          (vmRun (life + 1) w).val.1 = .ok ∧
          (vmRun (life + 1) w).val.2.vm.mem.bit = runRound order (served w).vm.mem.bit) := by
  obtain ⟨instrs, hread, hverified, hfree⟩ := verified_of_status h
    (hlimit.mono (by decide)) hguards hstatus hpath hdata hlength hreq
  obtain ⟨hg, ha⟩ := addrBits_le_of_limit h hlimit
  refine ⟨instrs, hread, fun w hw => ⟨fun life p hp => ?_, fun hrun life order hp => ?_⟩⟩
  · have hshield := hverified.shielded hw
    exact (vmRun_keeps hg hshield (hw.keeps _) life).result.bits p (hshield.code p hp)
  · exact hverified.settles hw hrun hfree hp ha life

end Pipeline

/-! ## One small pipeline -/

def pipelineJson : String :=
  "\x7b\"space_bytes\":16,\"processor_n\":1,\"protected_regions\":" ++
    "[\x7b\"name\":\"system\",\"begin\":0,\"end\":80\x7d]\x7d"

def pipelineEnv : Env :=
  { file := fun path =>
      if path = "layer.bin" then .file (smallImage 8 80 100)
      else if path = "vm.json" then .file (asciiBytes pipelineJson)
      else .missing
    glob := fun _ => []
    jsonLoad := jsonFile pipelineJson (.dict [("space_bytes", .int 16), ("processor_n", .int 1),
      ("protected_regions", .list [.dict [("name", .str "system"), ("begin", .int 0),
        ("end", .int 80)]])])
    ceilLog2 := fun _ => 7
    host := sampleHost }

def pipelineArgs : Args :=
  { image := some "layer.bin", layers := none, config := some "vm.json", format := .json
    l2Only := false }

theorem pipeline_guards : Guards pipelineEnv pipelineArgs 16 1 smallVm [smallRegion] [] :=
  have hverified := smallImage_verified 100
  have hwidth : addrWidth (8 * 16) = 8 := by
    have := (smallVm_accepted.wf (hostCalloc_limit.mono (by decide))).1.addrBits_eq
    exact this.symm
  { config := by
      unfold Config.derived
      rw [hwidth]
      rfl
    l1 := rfl
    bounds := hverified.bounds
    covers := hverified.covers }

/-- The image copies eight bits from bit 100 to bit 80. It is runnable, so a run of
nine ticks keeps its code and leaves what one tick leaves. -/
theorem verify_then_run_small : ∃ instrs,
    read (Config.derived 16 1 [smallRegion] []) (smallImage 8 80 100) = .ok instrs ∧
      ∀ w, Loaded smallVm (smallImage 8 80 100) w →
        (∀ p < 24, (vmRun 9 w).val.2.vm.mem.bit p = w.vm.mem.bit p) ∧
        (vmRun 9 w).val.1 = .ok ∧
        (vmRun 9 w).val.2.vm.mem.bit = runRound instrs (served w).vm.mem.bit := by
  obtain ⟨instrs, hread, hruns⟩ := verify_then_run smallVm_accepted
    (hostCalloc_limit.mono (by decide)) pipeline_guards (by decide)
    (List.mem_singleton_self "layer.bin") rfl rfl (smallImage_verified 100).inReq
  have hinstrs : [⟨0, 8, 80, 100⟩] = instrs :=
    Except.ok.inj ((smallImage_read 100).symm.trans hread)
  subst hinstrs
  refine ⟨_, hread, fun w hw => ⟨(hruns w hw).1 9, ?_⟩⟩
  exact (hruns w hw).2 smallImage_runnable 8 _ (List.Perm.refl _)

end SpaceVerifier.Verifier
