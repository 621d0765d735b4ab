import SpaceVerifier.Metatheory.Checkpoint
import SpaceVerifier.Metatheory.VerifyThenRun

/-!
# Verified images stay verified

The verifier reads nothing but the code of an image, and a verified image does
not write its code. So the space after any run, dumped to the file the image came
from, is verified again, with the same report.
-/

namespace SpaceVerifier.Verifier

open Foundation SpaceVerifier.Runtime

/-! ## The dump of a run -/

theorem bit_imageMem_dump {vm : Vm} (hg : vm.toVmGeometry.Wf) {p : Nat}
    (hp : p < vm.spaceBits) : (imageMem vm.dump).bit p = vm.mem.bit p := by
  have hlt : p / 8 < vm.spaceBytes := by
    rw [hg.spaceBits_eq] at hp
    omega
  unfold Mem.bit imageMem Vm.dump bytesAt
  rw [List.getD_eq_getElem?_getD, List.getElem?_map, List.getElem?_range hlt]
  simp

section Dump

variable {calloc : Nat → Bool} {S P : Nat} {vm : Vm} {prot allowed : List Region}
  {data : List Byte} {instrs : List Instruction}
  (h : Verified calloc S P vm prot allowed data instrs) {w : World} (hw : Loaded vm data w)
include h hw

/-- **A verified image stays verified.** The space after any run is a verified
image again, with the same program, and loaded in the machine. -/
theorem Verified.dump (life : Nat) :
    Verified calloc S P vm prot allowed (vmRun life w).val.2.vm.dump instrs ∧
      Loaded vm (vmRun life w).val.2.vm.dump (vmRun life w).val.2 := by
  obtain ⟨hg, hS, hP⟩ := h.wf
  have hshield := h.shielded hw
  have hkeep := (vmRun_keeps hg hshield (hw.keeps _) life).result
  have hin := hg.within
  have hbase := hg.workspaceBase_le
  have hcode := hg.processorBits_le
  have hspace : 8 * data.length = vm.spaceBits := by rw [hg.spaceBits_eq, hS, h.length]
  have hlen : (vmRun life w).val.2.vm.dump.length = S := by
    rw [Vm.dump, length_bytesAt, hkeep.ready.geometry, hS]
  have hbit : ∀ p < vm.spaceBits, (imageMem (vmRun life w).val.2.vm.dump).bit p =
      (vmRun life w).val.2.vm.mem.bit p := by
    have hgeo := hkeep.ready.geometry
    rw [← hgeo] at hg ⊢
    exact fun p hp => bit_imageMem_dump hg hp
  -- what the run keeps, the dump has in common with the image
  have hkept : ∀ p < vm.spaceBits, p ∈ protectedBits prot \ outRegs vm.toVmGeometry →
      (imageMem (vmRun life w).val.2.vm.dump).bit p = (imageMem data).bit p := by
    intro p hp hkept
    rw [hbit p hp, hkeep.bits p hkept, hw.holds.bit_eq (by omega)]
  have hprogram : program (imageMem (vmRun life w).val.2.vm.dump) vm.addrBits P = instrs := by
    rw [h.program_eq.1]
    refine List.map_congr_left fun i hi => congrArg _ (instAt_congr fun p _ hp => ?_)
    have hslot := hg.slot_le (i := i) (hP ▸ List.mem_range.mp hi)
    exact hkept p (by omega) (hshield.code p (by omega))
  obtain ⟨cfg, tick, res, hcfg, -, hcheck, hpass⟩ := h.passes
  have hcfg' := resolve_ofSizes (spaceBytes_pos hg) vm.processorN prot allowed
  rw [hS, hP, hcfg] at hcfg'
  obtain rfl := Except.ok.inj hcfg'
  have hread := read_machine hg (hlen.trans hS.symm) prot allowed
  rw [hS, hP, hprogram] at hread
  refine ⟨{ h with
    length := hlen
    inReq := ?_
    passes := ⟨_, tick, res, hcfg, hread, hcheck, hpass⟩ },
    ⟨hkeep.ready.geometry, hkeep.ready.space, fun i hi => ?_⟩⟩
  · rw [hkept _ (hin.inReq.2.trans_le hbase) hshield.inReq, h.inReq]
  · rw [hlen] at hi
    unfold imageMem Vm.dump bytesAt
    rw [List.getD_eq_getElem?_getD, List.getElem?_map,
      List.getElem?_range (by rw [hkeep.ready.geometry, hS]; exact hi)]
    simp

end Dump

/-! ## The command line on another image -/

/-- The file at `path` now holds `data`. -/
def Env.withFile (env : Env) (path : String) (data : List Byte) : Env :=
  { env with file := Function.update env.file path (.file data) }

theorem Env.withFile_self (env : Env) (path : String) (data : List Byte) :
    (env.withFile path data).file path = .file data := Function.update_self ..

theorem Env.withFile_of_ne (env : Env) {path p : String} (data : List Byte) (hp : p ≠ path) :
    (env.withFile path data).file p = env.file p := Function.update_of_ne hp ..

theorem mapM_eq_of_map_eq {ε α β : Type} {f : α → Except ε β} {l l' : List α}
    (h : l.map f = l'.map f) : l.mapM f = l'.mapM f := by
  induction l generalizing l' with
  | nil =>
      obtain rfl := List.map_eq_nil_iff.mp h.symm
      rfl
  | cons x l ih =>
      cases l' with
      | nil => cases h
      | cons x' l' =>
          obtain ⟨hx, hrest⟩ := List.cons.inj h
          rw [List.mapM_cons, List.mapM_cons, hx, ih hrest]

/-- Two outcomes of loading that the reader cannot tell apart. -/
def SameLayers (cfg : Config) :
    Except String (List (List Byte)) → Except String (List (List Byte)) → Prop
  | .error p, .error p' => p = p'
  | .ok datas, .ok datas' => datas.map (read cfg) = datas'.map (read cfg)
  | _, _ => False

section Replace

variable {cfg : Config} {env : Env} {path : String} {data data' : List Byte}
  (hdata : env.file path = .file data) (hread : read cfg data' = read cfg data)
include hdata hread

/-- Loading meets the same failures, and otherwise layers that read the same. -/
theorem loadPaths_withFile (paths : List String) :
    (∃ e, loadPaths (env.withFile path data') paths = .error e ∧
        loadPaths env paths = .error e) ∨
      ∃ r r', loadPaths (env.withFile path data') paths = .ok r ∧
        loadPaths env paths = .ok r' ∧ SameLayers cfg r r' := by
  induction paths with
  | nil => exact Or.inr ⟨_, _, rfl, rfl, rfl⟩
  | cons p rest ih =>
      -- one path: the same failure, or contents that read the same
      have hone : (loadLayer (env.withFile path data') p = loadLayer env p) ∨
          loadLayer (env.withFile path data') p = .ok (some data') ∧
            loadLayer env p = .ok (some data) := by
        by_cases hp : p = path
        · subst hp
          refine Or.inr ⟨?_, ?_⟩
          · rw [loadLayer, openRead, Env.withFile_self]
          · rw [loadLayer, openRead, hdata]
        · refine Or.inl ?_
          rw [loadLayer, loadLayer, openRead, openRead, env.withFile_of_ne _ hp]
      have hcons : ∀ d d' : List Byte, read cfg d' = read cfg d →
          loadLayer env p = .ok (some d) →
          loadLayer (env.withFile path data') p = .ok (some d') →
          (∃ e, loadPaths (env.withFile path data') (p :: rest) = .error e ∧
            loadPaths env (p :: rest) = .error e) ∨
          ∃ r r', loadPaths (env.withFile path data') (p :: rest) = .ok r ∧
            loadPaths env (p :: rest) = .ok r' ∧ SameLayers cfg r r' := by
        intro d d' hd hload hload'
        rw [loadPaths, loadPaths, hload, hload']
        rcases ih with ⟨e, he', he⟩ | ⟨r, r', hr, hr', hsame⟩
        · exact Or.inl ⟨e, by rw [he']; rfl, by rw [he]; rfl⟩
        · rw [hr, hr']
          cases r with
          | error q =>
              cases r' with
              | error q' => exact Or.inr ⟨_, _, rfl, rfl, hsame⟩
              | ok ds' => exact hsame.elim
          | ok ds =>
              cases r' with
              | error q' => exact hsame.elim
              | ok ds' =>
                  refine Or.inr ⟨_, _, rfl, rfl, ?_⟩
                  show (d' :: ds).map (read cfg) = (d :: ds').map (read cfg)
                  rw [List.map_cons, List.map_cons, hd, hsame]
      rcases hone with hsame | ⟨hload', hload⟩
      · cases hload : loadLayer env p with
        | error e =>
            rw [loadPaths, loadPaths, hsame, hload]
            exact Or.inl ⟨e, rfl, rfl⟩
        | ok found =>
            cases found with
            | none =>
                rw [loadPaths, loadPaths, hsame, hload]
                exact Or.inr ⟨_, _, rfl, rfl, rfl⟩
            | some d => exact hcons d d rfl hload (hsame.trans hload)
      · exact hcons data data' hread hload hload'

/-- **The command line sees the code only**: an image that reads the same gives
the same outcome. -/
theorem main_withFile {args : Args} (hcfg : Config.init env args.config = .ok cfg)
    (hconfig : args.config ≠ some path) : main (env.withFile path data') args = main env args := by
  have hinit : Config.init (env.withFile path data') args.config =
      Config.init env args.config := by
    cases hc : args.config with
    | none => rfl
    | some p =>
        have hp : p ≠ path := fun heq => hconfig (hc.trans (congrArg some heq))
        unfold Config.init openRead
        simp only [env.withFile_of_ne _ hp]
        rfl
  have hverify : verify (env.withFile path data') args = verify env args := by
    have hpaths : args.layerPaths (env.withFile path data') = args.layerPaths env := rfl
    unfold verify
    rw [hinit, hcfg, hpaths]
    show (loadPaths _ _ >>= _) = (loadPaths _ _ >>= _)
    rcases loadPaths_withFile hdata hread (args.layerPaths env) with
      ⟨e, he', he⟩ | ⟨r, r', hr, hr', hsame⟩
    · rw [he', he]
      rfl
    · rw [hr, hr']
      cases r with
      | error q =>
          cases r' with
          | error q' =>
              obtain rfl : q = q' := hsame
              rfl
          | ok ds' => exact hsame.elim
      | ok ds =>
          cases r' with
          | error q' => exact hsame.elim
          | ok ds' =>
              have hempty : ds.isEmpty = ds'.isEmpty := by
                have hlen := congrArg List.length hsame
                rw [List.length_map, List.length_map] at hlen
                cases ds <;> cases ds' <;> simp_all
              have hlayers : verifyLayers env.host cfg args ds =
                  verifyLayers env.host cfg args ds' := by
                unfold verifyLayers
                rw [mapM_eq_of_map_eq hsame]
              show (if ds.isEmpty then _ else verifyLayers env.host cfg args ds) =
                (if ds'.isEmpty then _ else verifyLayers env.host cfg args ds')
              rw [hempty, hlayers]
  unfold main
  rw [hverify]

end Replace

/-- **Verified once, verified after every run.** If `spaces-verify` exits with
status 0 under a configuration that guards the machine, then the space after any
run of any layer it was given, dumped over that layer's file, gives the same
outcome again: the same status and the same report. -/
theorem reverify_after_run {calloc : Nat → Bool} {S P : Nat} {vm : Vm}
    {prot allowed : List Region} {env : Env} {args : Args} (h : Accepted calloc S P vm)
    (hlimit : CallocLimit calloc (2 ^ 61)) (hguards : Guards env args S P vm prot allowed)
    (hstatus : (main env args).status = 0) {path : String} {data : List Byte}
    (hpath : path ∈ args.layerPaths env) (hdata : env.file path = .file data)
    (hconfig : args.config ≠ some path) (hlength : data.length = S)
    (hreq : (imageMem data).bit vm.mmio.inReq = false) {w : World} (hw : Loaded vm data w)
    (life : Nat) :
    main (env.withFile path (vmRun life w).val.2.vm.dump) args = main env args := by
  obtain ⟨instrs, hread, hverified, -⟩ :=
    verified_of_status h hlimit hguards hstatus hpath hdata hlength hreq
  obtain ⟨hg, hS, hP⟩ := h.wf hlimit
  have hread' : read (Config.derived S P prot allowed) (vmRun life w).val.2.vm.dump =
      .ok instrs := by
    obtain ⟨cfg, -, -, hcfg, hread', -, -⟩ := (hverified.dump hw life).1.passes
    have hcfg' := resolve_ofSizes (spaceBytes_pos hg) vm.processorN prot allowed
    rw [hS, hP, hcfg] at hcfg'
    obtain rfl := Except.ok.inj hcfg'
    exact hread'
  exact main_withFile hdata (hread'.trans hread.symm) hguards.config hconfig

theorem reverify_after_run_small :
    main (pipelineEnv.withFile "layer.bin" (vmRun 9 (bareWorld (smallVm.withMem
      (imageMem (smallImage 8 80 100))))).val.2.vm.dump) pipelineArgs =
        main pipelineEnv pipelineArgs :=
  reverify_after_run smallVm_accepted (hostCalloc_limit.mono (by decide)) pipeline_guards
    (by decide) (List.mem_singleton_self "layer.bin") rfl (by decide) rfl
    (smallImage_verified 100).inReq (smallImage_loaded 100) 9

end SpaceVerifier.Verifier
