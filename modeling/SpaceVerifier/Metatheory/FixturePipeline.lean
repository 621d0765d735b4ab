import SpaceVerifier.Metatheory.ContractIsolation
import SpaceVerifier.Metatheory.FixtureRoundTrip
import SpaceVerifier.Metatheory.MemoryPolicy
import SpaceVerifier.Metatheory.VerifyThenRun

/-!
# From a program to its run

A program is a list of triples. `make_fixture` lays it out, `spaces-verify` checks
the image, the machine runs it. Under a configuration that protects what lies
below the workspace the image passes exactly when the program, read as a list of
moves, keeps two rules; and then a run is these moves, in any order.
-/

namespace SpaceVerifier.Verifier

open Foundation SpaceVerifier.Runtime

/-- The move that a triple asks for. -/
def moveOf (t : Nat × Nat × Nat) : Move := ⟨t.1, t.2.1, t.2.2⟩

/-- The ranges that the moves read or write. -/
def moveRanges (prog : List (Nat × Nat × Nat)) : List (Set ℕ) :=
  ((prog.map moveOf).filter fun mv => 0 < mv.n).flatMap fun mv => [mv.srcSpan, mv.dstSpan]

/-- The two rules: write to the workspace, and share no bit. -/
structure Disciplined (g : VmGeometry) (prog : List (Nat × Nat × Nat)) : Prop where
  writes : ∀ t ∈ prog, t.1 ≠ 0 → g.workspaceBase ≤ t.2.1 ∧ t.2.1 + t.1 ≤ g.spaceBits
  shares : (moveRanges prog).Pairwise Disjoint

/-- The program fits into the slots and their fields. -/
structure Fits (g : VmGeometry) (prog : List (Nat × Nat × Nat)) : Prop where
  length : prog.length ≤ g.processorN
  fields : ∀ t ∈ prog, t.1 < 2 ^ g.addrBits ∧ t.2.1 < 2 ^ g.addrBits ∧ t.2.2 < 2 ^ g.addrBits

/-- The copies read inside the space and take a sound branch of `bitcpy`. -/
def Readable (g : VmGeometry) (prog : List (Nat × Nat × Nat)) : Prop :=
  ∀ t ∈ prog, (t.1 ≠ 0 → t.2.2 + t.1 ≤ g.spaceBits) ∧ ExactWhen t.1 0 t.2.2 0 t.2.1

/-- The image is the fixture of the program with any workspace. -/
structure Carries (g : VmGeometry) (prog : List (Nat × Nat × Nat)) (data : List Byte) : Prop where
  length : data.length = g.spaceBytes
  system : ∀ p < g.workspaceBase, (imageMem data).bit p =
    (imageMem (makeFixture prog g.instrBits g.spaceBytes)).bit p

/-! ## The decoded program -/

section Decoded

variable {g : VmGeometry} (hg : g.Wf) {prog : List (Nat × Nat × Nat)} (hfits : Fits g prog)
  {data : List Byte} (hdata : Carries g prog data)
include hg hfits hdata

theorem Carries.slot {i : Nat} (hi : i < g.processorN) :
    (instAt (imageMem data).bit (i * (3 * g.addrBits)) g.addrBits).toMove =
      (prog[i]?.map moveOf).getD ⟨0, 0, 0⟩ := by
  have hcode := hg.processorBits_le
  have hspace := hg.workspaceBase_le
  rw [hg.processorBits_eq] at hcode
  rw [hg.spaceBits_eq] at hspace
  have hslot : i * (3 * g.addrBits) + 3 * g.addrBits ≤ g.processorN * (3 * g.addrBits) := by
    rw [← Nat.succ_mul]
    exact Nat.mul_le_mul_right _ hi
  have hprog : prog.length * (3 * g.addrBits) ≤ g.processorN * (3 * g.addrBits) :=
    Nat.mul_le_mul_right _ hfits.length
  obtain ⟨-, hslots, hframe⟩ := @fixtureSlots_spec g.addrBits g.spaceBytes 0 prog
    (List.replicate g.spaceBytes 0) List.length_replicate (by rw [Nat.zero_add]; omega)
  have hsame : instAt (imageMem data).bit (i * (3 * g.addrBits)) g.addrBits =
      instAt (imageMem (makeFixture prog (3 * g.addrBits) g.spaceBytes)).bit
        (i * (3 * g.addrBits)) g.addrBits := by
    apply instAt_congr
    intro p _ hp
    rw [hdata.system p (by omega), hg.instrBits_eq]
  rw [hsame, makeFixture]
  cases ht : prog[i]? with
  | some t =>
      obtain ⟨hn, hdst, hsrc⟩ := hfits.fields t (List.mem_of_getElem? ht)
      have hread := hslots i t ht
      rw [Nat.zero_add, VmInst.truncate_eq hn hdst hsrc] at hread
      rw [hread]
      rfl
  | none =>
      -- behind the program the space has kept its zeros
      have hend := Nat.mul_le_mul_right (3 * g.addrBits) (List.getElem?_eq_none_iff.mp ht)
      rw [instAt_eq_zero fun p hp _ => ?_]
      · rfl
      · rw [hframe p (Or.inr (by rw [Nat.zero_add]; omega)), imageMem_replicate]
        simp [Mem.bit]

/-- The image decodes to the moves of the program, and empty ones. -/
theorem Carries.moves :
    (program (imageMem data) g.addrBits g.processorN).map Instruction.toMove =
      prog.map moveOf ++ List.replicate (g.processorN - prog.length) ⟨0, 0, 0⟩ := by
  have hlen := hfits.length
  refine List.ext_getElem? fun i => ?_
  rw [List.getElem?_map, program, List.getElem?_map]
  by_cases hi : i < g.processorN
  · rw [List.getElem?_range hi]
    show some (instAt (imageMem data).bit (i * (3 * g.addrBits)) g.addrBits).toMove = _
    rw [hdata.slot hg hfits hi]
    rcases Nat.lt_or_ge i prog.length with hlt | hge
    · rw [List.getElem?_append_left (by rwa [List.length_map]), List.getElem?_map,
        List.getElem?_eq_getElem hlt]
      rfl
    · rw [List.getElem?_append_right (by rwa [List.length_map]), List.getElem?_eq_none hge,
        List.length_map, List.getElem?_replicate, if_pos (by omega)]
      rfl
  · rw [List.getElem?_eq_none (by rw [List.length_range]; omega), List.getElem?_eq_none]
    · rfl
    · rw [List.length_append, List.length_map, List.length_replicate]
      omega

theorem Carries.conflictFree_iff :
    ConflictFree (program (imageMem data) g.addrBits g.processorN) ↔
      (moveRanges prog).Pairwise Disjoint := by
  have hempty : (List.replicate (g.processorN - prog.length) (⟨0, 0, 0⟩ : Move)).filter
      (fun mv => 0 < mv.n) = [] := by
    refine List.filter_eq_nil_iff.mpr fun mv hmv => ?_
    rw [List.eq_of_mem_replicate hmv]
    decide
  unfold ConflictFree moveRanges
  rw [roundRanges_eq_moves, hdata.moves hg hfits, List.filter_append, hempty, List.append_nil]

omit hfits in
/-- Behind the code the image holds no request and no halt. -/
theorem Carries.control (hlen : prog.length ≤ g.processorN) {p : Nat} (hlo : g.processorBits ≤ p)
    (hhi : p < g.workspaceBase) : (imageMem data).bit p = false := by
  have hcode := hg.processorBits_le
  have hspace := hg.workspaceBase_le
  rw [hg.processorBits_eq] at hcode hlo
  rw [hg.spaceBits_eq] at hspace
  have hprog : prog.length * (3 * g.addrBits) ≤ g.processorN * (3 * g.addrBits) :=
    Nat.mul_le_mul_right _ hlen
  obtain ⟨-, -, hframe⟩ := @fixtureSlots_spec g.addrBits g.spaceBytes 0 prog
    (List.replicate g.spaceBytes 0) List.length_replicate (by rw [Nat.zero_add]; omega)
  rw [hdata.system p hhi, hg.instrBits_eq, makeFixture,
    hframe p (Or.inr (by rw [Nat.zero_add]; omega)), imageMem_replicate]
  simp [Mem.bit]

end Decoded

/-! ## The verdict -/

/-- The protected regions are what lies below the workspace. -/
structure Protects (g : VmGeometry) (prot : List Region) : Prop where
  ordered : OrderedBounds prot
  bits : protectedBits prot = Set.Iio g.workspaceBase

/-- The first rule, of one move. -/
def WritesWorkspace (g : VmGeometry) (mv : Move) : Prop :=
  mv.n ≠ 0 → g.workspaceBase ≤ mv.dst ∧ mv.dst + mv.n ≤ g.spaceBits

theorem safeIn_iff {g : VmGeometry} (hg : g.Wf) {cfg : Config}
    (hprot : Protects g cfg.protectedRegions) {ins : Instruction} (hn : 0 < ins.n) :
    ins.SafeIn cfg g.spaceBytes ↔
      g.workspaceBase ≤ ins.dst ∧ ins.dst + ins.n ≤ g.spaceBits := by
  have hregions : (∀ r ∈ cfg.protectedRegions, Disjoint ins.dstSet r.bits) ↔
      Disjoint ins.dstSet (protectedBits cfg.protectedRegions) := by
    simp only [Set.disjoint_left]
    constructor
    · rintro h p hp ⟨r, hr, hin⟩
      exact h r hr hp hin
    · intro h r hr p hp hin
      exact h hp ⟨r, hr, hin⟩
  have hbelow : Disjoint ins.dstSet (Set.Iio g.workspaceBase) ↔ g.workspaceBase ≤ ins.dst := by
    rw [Set.disjoint_left]
    constructor
    · intro h
      exact not_lt.mp (h (show ins.dst ∈ ins.dstSet from Set.mem_Ico.mpr ⟨le_rfl, by omega⟩))
    · intro h p hp hlt
      have hle := (Set.mem_Ico.mp hp).1
      have hlt' := Set.mem_Iio.mp hlt
      omega
  unfold Instruction.SafeIn
  rw [hregions, hprot.bits, hbelow, hg.spaceBits_eq]
  omega

section Verdict

variable {vm : Vm} (hg : vm.toVmGeometry.Wf) {prog : List (Nat × Nat × Nat)}
  (hfits : Fits vm.toVmGeometry prog) {data : List Byte}
  (hdata : Carries vm.toVmGeometry prog data)
include hg hfits hdata

/-- L1 on the decoded image is the first rule. -/
theorem Carries.policy_iff {cfg : Config} (hprot : Protects vm.toVmGeometry cfg.protectedRegions)
    (hallow : cfg.allowedRegions = []) :
    RegionPolicy cfg vm.spaceBytes (program (imageMem data) vm.addrBits vm.processorN) ↔
      ∀ t ∈ prog, t.1 ≠ 0 → vm.workspaceBase ≤ t.2.1 ∧ t.2.1 + t.1 ≤ vm.spaceBits := by
  have hmoves : RegionPolicy cfg vm.spaceBytes
      (program (imageMem data) vm.addrBits vm.processorN) ↔
        ∀ mv ∈ (program (imageMem data) vm.addrBits vm.processorN).map Instruction.toMove,
          WritesWorkspace vm.toVmGeometry mv := by
    rw [List.forall_mem_map]
    refine forall₂_congr fun ins _ => ⟨fun h hn => ?_, fun h hn => ⟨?_, fun hne => ?_⟩⟩
    · exact (safeIn_iff hg hprot (Nat.pos_of_ne_zero hn)).mp (h (Nat.pos_of_ne_zero hn)).1
    · exact (safeIn_iff hg hprot hn).mpr (h hn.ne')
    · exact absurd hallow hne
  rw [hmoves, hdata.moves hg hfits]
  constructor
  · intro h t ht
    exact h (moveOf t) (List.mem_append_left _ (List.mem_map_of_mem ht))
  · intro h mv hmv
    rcases List.mem_append.mp hmv with hmv | hmv
    · obtain ⟨t, ht, rfl⟩ := List.mem_map.mp hmv
      exact h t ht
    · rw [List.eq_of_mem_replicate hmv]
      exact fun h0 => absurd rfl h0

variable {prot : List Region} (hprot : Protects vm.toVmGeometry prot) {env : Env} {args : Args}
  {path : String}
  (hconfig : Config.init env args.config =
    .ok (Config.derived vm.spaceBytes vm.processorN prot []))
  (hl1 : args.l2Only = false) (hpath : args.layerPaths env = [path])
  (hfile : env.file path = .file data)
include hprot hconfig hl1 hpath hfile

/-- **The verdict on an image is that on its program.** -/
theorem Carries.status_zero_iff :
    (main env args).status = 0 ↔ Disciplined vm.toVmGeometry prog := by
  have hread := read_machine hg hdata.length prot []
  have hparse : Parses env args (Config.derived vm.spaceBytes vm.processorN prot [])
      [program (imageMem data) vm.addrBits vm.processorN] := by
    refine ⟨hconfig, ?_⟩
    rw [hpath]
    exact .cons ⟨data, hfile, hread⟩ .nil
  have hallow : OrderedBounds [] := fun r hr => absurd hr List.not_mem_nil
  obtain ⟨vs, hvs, hspec⟩ := @checkInstrs_spec
    (Config.derived vm.spaceBytes vm.processorN prot []) hprot.ordered hallow vm.spaceBytes rfl 0
    (program (imageMem data) vm.addrBits vm.processorN)
  rw [hdata.policy_iff hg hfits hprot rfl] at hspec
  have hclean : Clean env args ↔ vs = [] ∧
      ConflictFree (program (imageMem data) vm.addrBits vm.processorN) := by
    constructor
    · rintro ⟨cfg, layers, hparse', hpass, hfree⟩
      obtain ⟨rfl, rfl⟩ := hparse.unique hparse'
      obtain ⟨res, hcheck, hpass⟩ := hpass hl1 0 _ rfl
      have hnil := checkLayer_pass hcheck hpass
      exact ⟨Except.ok.inj (hvs.symm.trans hnil), hfree _ (List.mem_singleton_self _)⟩
    · rintro ⟨rfl, hfree⟩
      refine ⟨_, _, hparse, fun _ i instrs hi => ?_, fun instrs hinstrs => ?_⟩
      · cases i with
        | zero =>
            obtain rfl := Option.some.inj hi
            exact ⟨_, bind_eq_ok.mpr ⟨[], hvs, rfl⟩, rfl⟩
        | succ i => cases hi
      · rwa [List.mem_singleton.mp hinstrs]
  have hstatus : (main env args).status = 0 ↔ Clean env args :=
    ⟨clean_of_status, fun h => status_of_clean h (by rw [hpath]; exact List.cons_ne_nil _ _)⟩
  rw [hstatus, hclean, hspec, hdata.conflictFree_iff hg hfits]
  exact ⟨fun h => ⟨h.1, h.2⟩, fun h => ⟨h.writes, h.shares⟩⟩

end Verdict

/-! ## The run -/

/-- Empty moves change nothing. -/
theorem copySeq_append_empty (mvs : List Move) (k : Nat) (m : ℕ → Bool) :
    copySeq (mvs ++ List.replicate k ⟨0, 0, 0⟩) m = copySeq mvs m := by
  have hempty : (List.replicate k (⟨0, 0, 0⟩ : Move)).filter (fun mv => mv.n ≠ 0) = [] := by
    refine List.filter_eq_nil_iff.mpr fun mv hmv => ?_
    rw [List.eq_of_mem_replicate hmv]
    decide
  rw [← copySeq_filter_nonempty, List.filter_append, hempty, List.append_nil,
    copySeq_filter_nonempty]

theorem Carries.runnable {vm : Vm} (hg : vm.toVmGeometry.Wf) {prog : List (Nat × Nat × Nat)}
    (hfits : Fits vm.toVmGeometry prog) {data : List Byte}
    (hdata : Carries vm.toVmGeometry prog data) (hread : Readable vm.toVmGeometry prog) :
    Runnable vm data (program (imageMem data) vm.addrBits vm.processorN) := by
  have hin := hg.within
  have hmoves : ∀ ins ∈ program (imageMem data) vm.addrBits vm.processorN,
      (ins.n ≠ 0 → ins.src + ins.n ≤ vm.spaceBits) ∧ ins.Exact := by
    intro ins hins
    have hmv := List.mem_map_of_mem (f := Instruction.toMove) hins
    rw [hdata.moves hg hfits] at hmv
    rcases List.mem_append.mp hmv with hmv | hmv
    · obtain ⟨t, ht, heq⟩ := List.mem_map.mp hmv
      obtain ⟨hn, hdst, hsrc⟩ := Move.mk.inj heq
      rw [Instruction.Exact, ← hn, ← hdst, ← hsrc]
      exact hread t ht
    · obtain ⟨hn, hdst, hsrc⟩ := Move.mk.inj (List.eq_of_mem_replicate hmv)
      rw [Instruction.Exact, hn, hdst, hsrc]
      exact ⟨fun h0 => absurd rfl h0, by decide⟩
  exact
    { halt := hdata.control hg hfits.length hin.halt.1 hin.halt.2
      src_le := fun ins hins => (hmoves ins hins).1
      exact := fun ins hins => (hmoves ins hins).2 }

def pairTriples : List (Nat × Nat × Nat) := [(8, 112, 120), (8, 128, 136)]

def pairJson : String :=
  "\x7b\"space_bytes\":32,\"processor_n\":2,\"protected_regions\":" ++
    "[\x7b\"name\":\"system\",\"begin\":0,\"end\":104\x7d]\x7d"

def pairEnv : Env :=
  { file := fun path =>
      if path = "pair.bin" then .file pairImage
      else if path = "vm.json" then .file (asciiBytes pairJson)
      else .missing
    glob := fun _ => []
    jsonLoad := jsonFile pairJson (.dict [("space_bytes", .int 32), ("processor_n", .int 2),
      ("protected_regions", .list [.dict [("name", .str "system"), ("begin", .int 0),
        ("end", .int 104)]])])
    ceilLog2 := fun _ => 8
    host := sampleHost }

def pairArgs : Args :=
  { image := some "pair.bin", layers := none, config := some "vm.json", format := .json
    l2Only := false }

theorem pairTriples_fits : Fits (bootVm 2).toVmGeometry pairTriples :=
  ⟨by decide, by decide⟩

theorem pairImage_carries : Carries (bootVm 2).toVmGeometry pairTriples pairImage := by
  refine ⟨rfl, fun p hp => ?_⟩
  have hbytes : ∀ i < 13, imageMem pairImage i = imageMem (makeFixture pairTriples 24 32) i := by
    decide
  have hp' : p < 104 := hp
  show (imageMem pairImage (p / 8)).getMsbD (p % 8) = _
  rw [hbytes (p / 8) (by omega)]
  rfl

theorem pairRegion_protects : Protects (bootVm 2).toVmGeometry [pairRegion] := by
  constructor
  · intro r hr
    obtain rfl := List.mem_singleton.mp hr
    exact ⟨0, 104, rfl, rfl, by decide⟩
  · ext p
    constructor
    · rintro ⟨r, hr, b, e, hb, he, -, hlt⟩
      obtain rfl := List.mem_singleton.mp hr
      cases he
      exact Int.ofNat_lt.mp hlt
    · intro hp
      exact ⟨pairRegion, List.mem_singleton_self _, 0, 104, rfl, rfl, by omega,
        Int.ofNat_lt.mpr hp⟩

theorem pair_config :
    Config.init pairEnv pairArgs.config = .ok (Config.derived 32 2 [pairRegion] []) := by
  have hwidth : addrWidth (8 * 32) = 8 :=
    (bootVm_accepted.1.wf (hostCalloc_limit.mono (by decide))).1.addrBits_eq.symm
  unfold Config.derived
  rw [hwidth]
  rfl

theorem pair_disciplined : Disciplined (bootVm 2).toVmGeometry pairTriples := by
  refine ⟨by decide, ?_⟩
  simp [moveRanges, pairTriples, moveOf, Move.srcSpan, Move.dstSpan, Set.Ico_disjoint_Ico]

end SpaceVerifier.Verifier
