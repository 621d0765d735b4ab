import SpaceVerifier.Metatheory.MemoryPolicy
import SpaceVerifier.Metatheory.ReportAccounts

/-!
# Tightening a policy

A policy is tighter than another when its protected regions cover those of the
other, and when its allowed regions are covered by them. Both tests of
`check_layer` follow this order, on whatever values the regions hold, as long as
no comparison raises. So a tighter policy reports everything the other reports,
in the same order, and it passes only what the other passes.
-/

namespace SpaceVerifier.Verifier

open Foundation

/-! ## The order on regions -/

/-- The bounds of `r` are those of `r'`, or integers between them. -/
def Region.Within (r r' : Region) : Prop :=
  (r.begin = r'.begin ∧ r.endBit = r'.endBit) ∨
    ∃ b e b' e' : Int, (r.begin = .int b ∧ r.endBit = .int e) ∧
      (r'.begin = .int b' ∧ r'.endBit = .int e') ∧ b' ≤ b ∧ e ≤ e'

namespace Region.Within

variable {r r' : Region} (h : r.Within r') {addr n : Int}
include h

theorem intersects (hmeet : r.intersects addr n = .ok true) :
    r'.intersects addr n = .ok true := by
  rcases h with ⟨hb, he⟩ | ⟨b, e, b', e', ⟨hb, he⟩, ⟨hb', he'⟩, hbb, hee⟩
  · rw [← hmeet, Region.intersects, Region.intersects, hb, he]
  · rw [intersects_int hb he] at hmeet
    have hin := of_decide_eq_true (Except.ok.inj hmeet)
    rw [intersects_int hb' he']
    exact congrArg Except.ok (decide_eq_true ⟨lt_of_le_of_lt hbb hin.1, lt_of_lt_of_le hin.2 hee⟩)

theorem contains (hin : r.contains addr n = .ok true) : r'.contains addr n = .ok true := by
  rcases h with ⟨hb, he⟩ | ⟨b, e, b', e', ⟨hb, he⟩, ⟨hb', he'⟩, hbb, hee⟩
  · rw [← hin, Region.contains, Region.contains, hb, he]
  · rw [contains_int hb he] at hin
    have hle := of_decide_eq_true (Except.ok.inj hin)
    rw [contains_int hb' he']
    exact congrArg Except.ok (decide_eq_true ⟨hbb.trans hle.1, hle.2.trans hee⟩)

end Region.Within

/-! ## What the two loops have seen -/

section Loops

variable {dst n : Int} {rs : List Region}

theorem mem_of_firstIntersecting {r : Region}
    (h : firstIntersecting dst n rs = .ok (some r)) :
    r ∈ rs ∧ r.intersects dst n = .ok true := by
  induction rs with
  | nil => cases h
  | cons q rs ih =>
      obtain ⟨meets, hmeets, h⟩ := bind_eq_ok.mp h
      cases meets with
      | true =>
          obtain rfl := Option.some.inj (Except.ok.inj h)
          exact ⟨List.mem_cons_self, hmeets⟩
      | false =>
          obtain ⟨hmem, hr⟩ := ih h
          exact ⟨List.mem_cons_of_mem _ hmem, hr⟩

theorem intersects_of_firstIntersecting_none (h : firstIntersecting dst n rs = .ok none)
    {r : Region} (hr : r ∈ rs) : r.intersects dst n = .ok false := by
  induction rs with
  | nil => exact absurd hr List.not_mem_nil
  | cons q rs ih =>
      obtain ⟨meets, hmeets, h⟩ := bind_eq_ok.mp h
      cases meets with
      | true => cases h
      | false =>
          rcases List.mem_cons.mp hr with rfl | hrest
          · exact hmeets
          · exact ih h hrest

theorem exists_contains_of_isInAllowed (h : isInAllowed dst n rs = .ok true) :
    ∃ r ∈ rs, r.contains dst n = .ok true := by
  induction rs with
  | nil => cases h
  | cons q rs ih =>
      obtain ⟨inside, hinside, h⟩ := bind_eq_ok.mp h
      cases inside with
      | true => exact ⟨q, List.mem_cons_self, hinside⟩
      | false =>
          obtain ⟨r, hmem, hr⟩ := ih h
          exact ⟨r, List.mem_cons_of_mem _ hmem, hr⟩

theorem contains_of_not_isInAllowed (h : isInAllowed dst n rs = .ok false) {r : Region}
    (hr : r ∈ rs) : r.contains dst n = .ok false := by
  induction rs with
  | nil => exact absurd hr List.not_mem_nil
  | cons q rs ih =>
      obtain ⟨inside, hinside, h⟩ := bind_eq_ok.mp h
      cases inside with
      | true => cases h
      | false =>
          rcases List.mem_cons.mp hr with rfl | hrest
          · exact hinside
          · exact ih h hrest

end Loops

/-! ## The order on configurations -/

/-- `cfg'` describes the same images as `cfg` and admits no more of them. -/
structure Tighter (cfg cfg' : Config) : Prop where
  spaceBytes : cfg'.spaceBytes = cfg.spaceBytes
  processorN : cfg'.processorN = cfg.processorN
  addrBits : cfg'.addrBits = cfg.addrBits
  protectedRegions : ∀ r ∈ cfg.protectedRegions, ∃ r' ∈ cfg'.protectedRegions, r.Within r'
  /-- No allowed region at all means that everything is allowed. -/
  restricted : cfg.allowedRegions ≠ [] → cfg'.allowedRegions ≠ []
  allowedRegions : cfg.allowedRegions ≠ [] →
    ∀ r' ∈ cfg'.allowedRegions, ∃ r ∈ cfg.allowedRegions, r'.Within r

/-- The test of `check_layer` that a violation comes from. -/
inductive L1Test where
  | boundary
  | protectedRegion
  | allowedRegion
deriving DecidableEq, Repr

def Reason.test : Reason → L1Test
  | .boundary _ _ _ => .boundary
  | .protectedRegion _ _ _ => .protectedRegion
  | .notAllowed _ _ => .allowedRegion

/-- What a violation says, but for the values it shows. -/
def Violation.finding (v : Violation) : Nat × Nat × L1Test := (v.tick, v.slot, v.reason.test)

def findings (vs : List Violation) : List (Nat × Nat × L1Test) := vs.map Violation.finding

@[simp] theorem findings_append (vs vs' : List Violation) :
    findings (vs ++ vs') = findings vs ++ findings vs' := List.map_append

namespace Tighter

variable {cfg cfg' : Config} (h : Tighter cfg cfg') {tick : Nat} {ins : Instruction}
include h

theorem read_eq (data : List Byte) : read cfg' data = read cfg data := by
  have hbits : readInstruction cfg' = readInstruction cfg := by
    unfold readInstruction Config.instrBits Config.offDst Config.offSrc Config.nBits Config.offN
    rw [h.addrBits]
  rw [read, read, hbits, h.spaceBytes, h.processorN]

theorem protectedPart_sublist (tick : Nat) {hit hit' : Option Region}
    (hhit : firstIntersecting ins.dst ins.n cfg.protectedRegions = .ok hit)
    (hhit' : firstIntersecting ins.dst ins.n cfg'.protectedRegions = .ok hit') :
    (findings (protectedPart tick ins hit)).Sublist (findings (protectedPart tick ins hit')) := by
  cases hit with
  | none => exact List.nil_sublist _
  | some r =>
      obtain ⟨hr, hmeets⟩ := mem_of_firstIntersecting hhit
      obtain ⟨r', hr', hwithin⟩ := h.protectedRegions r hr
      cases hit' with
      | none =>
          -- the larger region is met too, so the loop has stopped somewhere
          have hno := intersects_of_firstIntersecting_none hhit' hr'
          rw [hwithin.intersects hmeets] at hno
          cases hno
      | some _ => exact List.Sublist.refl _

theorem allowedPart_sublist {inside inside' : Bool} (hne : cfg.allowedRegions ≠ [])
    (hinside : isInAllowed ins.dst ins.n cfg.allowedRegions = .ok inside)
    (hinside' : isInAllowed ins.dst ins.n cfg'.allowedRegions = .ok inside') :
    (findings (allowedPart tick ins inside)).Sublist
      (findings (allowedPart tick ins inside')) := by
  cases inside with
  | true => exact List.nil_sublist _
  | false =>
      cases inside' with
      | true =>
          obtain ⟨r', hr', hin⟩ := exists_contains_of_isInAllowed hinside'
          obtain ⟨r, hr, hwithin⟩ := h.allowedRegions hne r' hr'
          have hno := contains_of_not_isInAllowed hinside hr
          rw [hwithin.contains hin] at hno
          cases hno
      | false => exact List.Sublist.refl _

theorem regionReport {vs vs' : List Violation} (hvs : RegionReport cfg tick ins vs)
    (hvs' : RegionReport cfg' tick ins vs') : (findings vs).Sublist (findings vs') := by
  obtain ⟨hit, hhit, hallowed⟩ := hvs
  obtain ⟨hit', hhit', hallowed'⟩ := hvs'
  have hfirst := h.protectedPart_sublist tick hhit hhit'
  rcases hallowed with ⟨-, rfl⟩ | ⟨hne, inside, hinside, rfl⟩
  · -- the test on allowed regions is off, so it can only be switched on
    refine hfirst.trans ?_
    rcases hallowed' with ⟨-, rfl⟩ | ⟨-, inside', -, rfl⟩
    · exact List.Sublist.refl _
    · rw [findings_append]
      exact List.sublist_append_left _ _
  · have hne := List.isEmpty_eq_false_iff.mp hne
    rcases hallowed' with ⟨hempty', -⟩ | ⟨-, inside', hinside', rfl⟩
    · exact absurd (List.isEmpty_iff.mp hempty') (h.restricted hne)
    · rw [findings_append, findings_append]
      exact hfirst.append (h.allowedPart_sublist hne hinside hinside')

theorem checkInstr {vs vs' : List Violation} (hvs : checkInstr cfg tick ins = .ok vs)
    (hvs' : Verifier.checkInstr cfg' tick ins = .ok vs') :
    (findings vs).Sublist (findings vs') := by
  cases hnop : ins.isNop with
  | true =>
      rw [Verifier.checkInstr, hnop] at hvs
      obtain rfl := Except.ok.inj hvs
      exact List.nil_sublist _
  | false =>
      obtain ⟨bits, hbits, hcase⟩ := (checkInstr_eq_ok hnop).mp hvs
      obtain ⟨bits', hbits', hcase'⟩ := (checkInstr_eq_ok hnop).mp hvs'
      have hsame : cfg'.spaceBits = cfg.spaceBits := by
        rw [Config.spaceBits, Config.spaceBits, h.spaceBytes]
      obtain rfl : bits' = bits := Except.ok.inj (hbits'.symm.trans (hsame.trans hbits))
      rcases hcase with ⟨hout, rfl⟩ | ⟨hin, hreport⟩
      · rcases hcase' with ⟨-, rfl⟩ | ⟨hin', -⟩
        · exact List.Sublist.refl _
        · rw [hout] at hin'
          cases hin'
      · rcases hcase' with ⟨hout', -⟩ | ⟨-, hreport'⟩
        · rw [hin] at hout'
          cases hout'
        · exact h.regionReport hreport hreport'

theorem checkInstrs {instrs : List Instruction} {vs vs' : List Violation}
    (hvs : checkInstrs cfg tick instrs = .ok vs)
    (hvs' : Verifier.checkInstrs cfg' tick instrs = .ok vs') :
    (findings vs).Sublist (findings vs') := by
  induction instrs generalizing vs vs' with
  | nil =>
      obtain rfl := Except.ok.inj hvs
      exact List.nil_sublist _
  | cons ins rest ih =>
      obtain ⟨here, hhere, hvs⟩ := bind_eq_ok.mp hvs
      obtain ⟨others, hothers, hvs⟩ := bind_eq_ok.mp hvs
      obtain ⟨here', hhere', hvs'⟩ := bind_eq_ok.mp hvs'
      obtain ⟨others', hothers', hvs'⟩ := bind_eq_ok.mp hvs'
      obtain rfl := Except.ok.inj hvs
      obtain rfl := Except.ok.inj hvs'
      rw [findings_append, findings_append]
      exact (h.checkInstr hhere hhere').append (ih hothers hothers')

theorem merge {layers : List (List Instruction)} {m m' : MemoryCheckResult}
    (hm : mergeMemoryResults cfg tick layers = .ok m)
    (hm' : mergeMemoryResults cfg' tick layers = .ok m') :
    (findings m.violations).Sublist (findings m'.violations) := by
  induction layers generalizing tick m m' with
  | nil =>
      obtain rfl := Except.ok.inj hm
      exact List.nil_sublist _
  | cons instrs rest ih =>
      obtain ⟨res, hres, hm⟩ := bind_eq_ok.mp hm
      obtain ⟨others, hothers, hm⟩ := bind_eq_ok.mp hm
      obtain ⟨res', hres', hm'⟩ := bind_eq_ok.mp hm'
      obtain ⟨others', hothers', hm'⟩ := bind_eq_ok.mp hm'
      obtain rfl := Except.ok.inj hm
      obtain rfl := Except.ok.inj hm'
      obtain ⟨vs, hvs, hres⟩ := bind_eq_ok.mp hres
      obtain ⟨vs', hvs', hres'⟩ := bind_eq_ok.mp hres'
      obtain rfl := Except.ok.inj hres
      obtain rfl := Except.ok.inj hres'
      rw [findings_append, findings_append]
      exact (h.checkInstrs hvs hvs').append (ih hothers hothers')

theorem images {env : Env} {paths : List String} {layers layers' : List (List Instruction)}
    (hl : List.Forall₂
      (fun path instrs => ∃ data, env.file path = .file data ∧ read cfg data = .ok instrs)
      paths layers)
    (hl' : List.Forall₂
      (fun path instrs => ∃ data, env.file path = .file data ∧ read cfg' data = .ok instrs)
      paths layers') : layers' = layers := by
  induction hl generalizing layers' with
  | nil => exact List.forall₂_nil_left_iff.mp hl'
  | cons hfirst _ ih =>
      obtain ⟨data, hdata, hread⟩ := hfirst
      cases hl' with
      | cons hfirst' hrest' =>
          obtain ⟨data', hdata', hread'⟩ := hfirst'
          obtain rfl := FileEntry.file.inj (hdata'.symm.trans hdata)
          rw [h.read_eq, hread] at hread'
          rw [Except.ok.inj hread', ih hrest']

end Tighter

/-! ## The order on command lines -/

/-- `args'` opens the files of `args` under a tighter policy, and runs L1 if
`args` does. -/
structure TighterLine (env : Env) (args args' : Args) : Prop where
  paths : args'.layerPaths env = args.layerPaths env
  l1 : args.l2Only = false → args'.l2Only = false
  config : ∀ cfg cfg', Config.init env args.config = .ok cfg →
    Config.init env args'.config = .ok cfg' → Tighter cfg cfg'

section Lines

variable {env : Env} {args args' : Args} {rep rep' : Report}

/-- **Tightening a policy hides nothing.** Of two printed reports, the one under
the tighter policy has the conflicts of the other, and all its L1 findings in
their order; so its command line passes only where the other passes. -/
theorem tightening_keeps_findings (htight : TighterLine env args args')
    (h : Prints env args rep) (h' : Prints env args' rep') :
    rep'.conflict = rep.conflict ∧
    (∀ m, rep.memory = some m → ∃ m', rep'.memory = some m' ∧
      (findings m.violations).Sublist (findings m'.violations)) ∧
    ((main env args').status = 0 → (main env args).status = 0) := by
  have hzero := h.status_zero_iff.trans h.pass_iff
  have hzero' := h'.status_zero_iff.trans h'.pass_iff
  obtain ⟨cfg, layers, memory, ⟨hconfig, himages⟩, -, hmem, -, rfl⟩ := prints_iff.mp h
  obtain ⟨cfg', layers', memory', ⟨hconfig', himages'⟩, -, hmem', -, rfl⟩ :=
    prints_iff.mp h'
  have hcfg := htight.config cfg cfg' hconfig hconfig'
  obtain rfl : layers' = layers := hcfg.images himages (htight.paths ▸ himages')
  have hfindings : ∀ m, memory = some m → ∃ m', memory' = some m' ∧
      (findings m.violations).Sublist (findings m'.violations) := by
    rintro m rfl
    obtain ⟨hl1, hmerge⟩ := l1Part_some.mp hmem
    cases memory' with
    | none =>
        have hl2 := l1Part_none.mp hmem'
        rw [htight.l1 hl1] at hl2
        cases hl2
    | some m' => exact ⟨m', rfl, hcfg.merge hmerge (l1Part_some.mp hmem').2⟩
  refine ⟨rfl, hfindings, fun hpass => hzero.mpr ?_⟩
  have hnone := Nat.add_eq_zero_iff.mp (hzero'.mp hpass)
  refine Nat.add_eq_zero_iff.mpr ⟨?_, hnone.2⟩
  cases memory with
  | none => rfl
  | some m =>
      obtain ⟨m', rfl, hsub⟩ := hfindings m rfl
      have hlength := hsub.length_le
      rw [findings, findings, List.length_map, List.length_map] at hlength
      exact Nat.le_zero.mp (hlength.trans hnone.1.le)

end Lines

/-! ## A policy with a protected region -/

/-- `sampleJson` with a protected region. -/
def guardedJson : String :=
  "\x7b\"space_bytes\":16,\"processor_n\":1,\"protected_regions\":" ++
    "[\x7b\"name\":\"P\",\"begin\":0,\"end\":48\x7d]\x7d"

/-- Beside the sample files, the configuration `g.json` and an image whose only
slot copies eight bits from 64 to 32. -/
def guardedEnv : Env :=
  { sampleEnv with
    file := fun path =>
      if path = "g.json" then .file (asciiBytes guardedJson)
      else if path = "copy.bin" then .file ([8, 32, 64] ++ List.replicate 13 0)
      else sampleFile path
    glob := fun pat => if pat = "copy.bin" then [pat] else []
    jsonLoad := fun bytes =>
      (jsonFile guardedJson (.dict [("space_bytes", .int 16), ("processor_n", .int 1),
        ("protected_regions", .list [.dict [("name", .str "P"), ("begin", .int 0),
          ("end", .int 48)]])]) bytes).or (sampleEnv.jsonLoad bytes) }

def guardedArgs : Args := { sampleArgs ["copy.bin"] with config := some "g.json" }

theorem guarded_tighterLine :
    TighterLine guardedEnv (sampleArgs ["copy.bin"]) guardedArgs where
  paths := rfl
  l1 := fun _ => rfl
  config := by
    rintro cfg cfg' hcfg hcfg'
    obtain ⟨c, hc, hfields⟩ : ∃ c, Config.init guardedEnv (some "c.json") = .ok c ∧
        c = { spaceBytes := .int 16, processorN := .int 1, addrBits := .int 8,
              protectedRegions := [], allowedRegions := [] } := ⟨_, rfl, rfl⟩
    obtain ⟨c', hc', hfields'⟩ : ∃ c', Config.init guardedEnv (some "g.json") = .ok c' ∧
        c' = { spaceBytes := .int 16, processorN := .int 1, addrBits := .int 8,
               protectedRegions := [⟨.str "P", .int 0, .int 48⟩], allowedRegions := [] } :=
      ⟨_, rfl, rfl⟩
    obtain rfl := (Except.ok.inj (hc.symm.trans hcfg)).symm.trans hfields
    obtain rfl := (Except.ok.inj (hc'.symm.trans hcfg')).symm.trans hfields'
    exact ⟨rfl, rfl, rfl, fun r hr => absurd hr List.not_mem_nil,
      fun hne => absurd rfl hne, fun hne => absurd rfl hne⟩

/-- The guarded line reports the copy, the other passes it. -/
theorem tightening_keeps_findings_guarded :
    (main guardedEnv guardedArgs).status = 1 ∧
      (main guardedEnv (sampleArgs ["copy.bin"])).status = 0 ∧
      ∃ rep rep', Prints guardedEnv (sampleArgs ["copy.bin"]) rep ∧
        Prints guardedEnv guardedArgs rep' ∧ rep'.conflict = rep.conflict ∧
        ∀ m, rep.memory = some m → ∃ m', rep'.memory = some m' ∧
          (findings m.violations).Sublist (findings m'.violations) := by
  have hprinted : (main guardedEnv (sampleArgs ["copy.bin"])).hasReport = true := by
    decide +kernel
  have hprinted' : (main guardedEnv guardedArgs).hasReport = true := by decide +kernel
  obtain ⟨rep, h⟩ := prints_of_hasReport hprinted
  obtain ⟨rep', h'⟩ := prints_of_hasReport hprinted'
  obtain ⟨hconflict, hfindings, -⟩ := tightening_keeps_findings guarded_tighterLine h h'
  exact ⟨by decide +kernel, by decide +kernel, rep, rep', h, h', hconflict, hfindings⟩

end SpaceVerifier.Verifier
