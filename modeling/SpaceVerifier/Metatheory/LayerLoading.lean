import SpaceVerifier.Foundation.ExceptList
import SpaceVerifier.Verifier.SpacesVerify

/-!
# Which layers are loaded and checked

A run of `main` that gets past its loading loop has read every path it was
given, one layer each, and reports on exactly these layers. A pattern that
matches nothing contributes no path, so nothing in the loop notices it.
-/

namespace SpaceVerifier.Verifier

open Foundation

/-! ## The loading loop -/

theorem loadLayer_eq (env : Env) (path : String) :
    loadLayer env path =
      match env.file path with
      | .missing => .ok none
      | .unreadable => .error (.osError path)
      | .file contents => .ok (some contents) := by
  unfold loadLayer openRead
  cases env.file path <;> rfl

theorem loadPaths_cons_file {env : Env} {path : String} {data : List Byte}
    (h : env.file path = .file data) (rest : List String) :
    loadPaths env (path :: rest) = (do
      match ← loadPaths env rest with
      | .error p => return .error p
      | .ok datas => return .ok (data :: datas)) := by
  rw [loadPaths, loadLayer_eq, h]
  rfl

theorem loadPaths_cons_missing {env : Env} {path : String}
    (h : env.file path = .missing) (rest : List String) :
    loadPaths env (path :: rest) = .ok (.error path) := by
  rw [loadPaths, loadLayer_eq, h]
  rfl

theorem loadPaths_cons_unreadable {env : Env} {path : String}
    (h : env.file path = .unreadable) (rest : List String) :
    loadPaths env (path :: rest) = .error (.osError path) := by
  rw [loadPaths, loadLayer_eq, h]
  rfl

/-- The loop ends normally exactly when every path is read. -/
theorem loadPaths_ok_iff {env : Env} {paths : List String} {datas : List (List Byte)} :
    loadPaths env paths = .ok (.ok datas) ↔
      List.Forall₂ (fun path data => env.file path = .file data) paths datas := by
  induction paths generalizing datas with
  | nil =>
      rw [loadPaths, List.forall₂_nil_left_iff]
      constructor
      · rintro ⟨⟩
        rfl
      · rintro rfl
        rfl
  | cons path rest ih =>
      rw [List.forall₂_cons_left_iff]
      cases hfile : env.file path with
      | missing =>
          rw [loadPaths_cons_missing hfile]
          constructor
          · rintro ⟨⟩
          · rintro ⟨_, _, ⟨⟩, -⟩
      | unreadable =>
          rw [loadPaths_cons_unreadable hfile]
          constructor
          · rintro ⟨⟩
          · rintro ⟨_, _, ⟨⟩, -⟩
      | file data =>
          rw [loadPaths_cons_file hfile, bind_eq_ok]
          constructor
          · rintro ⟨loaded, hloaded, hret⟩
            cases loaded with
            | error p => cases hret
            | ok datas' =>
                obtain rfl := Except.ok.inj (Except.ok.inj hret)
                exact ⟨data, datas', rfl, ih.mp hloaded, rfl⟩
          · rintro ⟨data', datas', hdata, hrest, rfl⟩
            obtain rfl := FileEntry.file.inj hdata
            exact ⟨_, ih.mpr hrest, rfl⟩

/-- The loop stops early only at a path that does not exist. -/
theorem loadPaths_error {env : Env} {paths : List String} {path : String}
    (h : loadPaths env paths = .ok (.error path)) :
    path ∈ paths ∧ env.file path = .missing := by
  induction paths with
  | nil => cases h
  | cons first rest ih =>
      cases hfile : env.file first with
      | missing =>
          rw [loadPaths_cons_missing hfile] at h
          obtain rfl := Except.error.inj (Except.ok.inj h)
          exact ⟨List.mem_cons_self, hfile⟩
      | unreadable =>
          rw [loadPaths_cons_unreadable hfile] at h
          cases h
      | file data =>
          rw [loadPaths_cons_file hfile, bind_eq_ok] at h
          obtain ⟨loaded, hloaded, hret⟩ := h
          cases loaded with
          | ok datas => cases hret
          | error p =>
              obtain rfl := Except.error.inj (Except.ok.inj hret)
              obtain ⟨hmem, hmissing⟩ := ih hloaded
              exact ⟨List.mem_cons_of_mem _ hmem, hmissing⟩

theorem mem_matchedPaths {env : Env} {patterns : List String} {path : String} :
    path ∈ matchedPaths env patterns ↔ ∃ pat ∈ patterns, path ∈ env.glob pat := by
  simp [matchedPaths, List.mem_flatMap, List.mem_insertionSort]

/-- Sorting each match only reorders the paths. -/
theorem matchedPaths_perm (env : Env) (patterns : List String) :
    (matchedPaths env patterns).Perm (patterns.flatMap env.glob) := by
  induction patterns with
  | nil => exact List.Perm.refl _
  | cons pat rest ih => exact (List.perm_insertionSort _ _).append ih

/-! ## What a run reports -/

/-- The configuration and the images parse, one layer for each path. -/
structure Parses (env : Env) (args : Args) (cfg : Config)
    (layers : List (List Instruction)) : Prop where
  config : Config.init env args.config = .ok cfg
  images : List.Forall₂
    (fun path instrs => ∃ data, env.file path = .file data ∧ read cfg data = .ok instrs)
    (args.layerPaths env) layers

/-- The L1 part of the report. -/
def L1Part (cfg : Config) (args : Args) (layers : List (List Instruction))
    (memory : Option MemoryCheckResult) : Prop :=
  if args.l2Only then memory = none
  else ∃ m, mergeMemoryResults cfg 0 layers = .ok m ∧ memory = some m

/-- The report on these layers. -/
def layersReport (layers : List (List Instruction)) (memory : Option MemoryCheckResult) :
    Report :=
  { memory, conflict := some (checkLayers layers) }

/-- What `main` returns once the report is printed. -/
def checkedResult (report : Report) (printed : Printed) : MainResult :=
  { code := if report.overallStatus = .pass then 0 else 1
    stderr := none, report := some report, stdout := some printed }

theorem verifyLayers_ok_iff {host : PyHost} {cfg : Config} {args : Args}
    {datas : List (List Byte)} {r : MainResult} :
    verifyLayers host cfg args datas = .ok r ↔ ∃ layers memory printed,
      List.Forall₂ (fun data instrs => read cfg data = .ok instrs) datas layers ∧
        L1Part cfg args layers memory ∧
        (layersReport layers memory).print host args.format = .ok printed ∧
        r = checkedResult (layersReport layers memory) printed := by
  have hval : verifyLayers host cfg args datas =
      datas.mapM (read cfg) >>= fun layers =>
        (if args.l2Only then .ok none
          else mergeMemoryResults cfg 0 layers >>= fun m => .ok (some m)) >>= fun memory =>
        (layersReport layers memory).print host args.format >>= fun printed =>
        .ok (checkedResult (layersReport layers memory) printed) := by
    unfold verifyLayers
    refine bind_congr fun layers => ?_
    cases args.l2Only with
    | true => rfl
    | false => cases mergeMemoryResults cfg 0 layers <;> rfl
  have hL1 : ∀ layers memory,
      (if args.l2Only then (.ok none : Except PyExc (Option MemoryCheckResult))
        else mergeMemoryResults cfg 0 layers >>= fun m => .ok (some m)) = .ok memory ↔
        L1Part cfg args layers memory := by
    intro layers memory
    unfold L1Part
    cases args.l2Only with
    | true => exact ⟨fun h => (Except.ok.inj h).symm, fun h => congrArg Except.ok h.symm⟩
    | false =>
        simp only [Bool.false_eq_true, if_false, bind_eq_ok, Except.ok.injEq]
        exact exists_congr fun m => and_congr_right fun _ => eq_comm
  rw [hval]
  simp only [bind_eq_ok, mapM_eq_ok_iff, hL1]
  constructor
  · rintro ⟨layers, hread, memory, hmem, printed, hprint, h⟩
    exact ⟨layers, memory, printed, hread, hmem, hprint, (Except.ok.inj h).symm⟩
  · rintro ⟨layers, memory, printed, hread, hmem, hprint, rfl⟩
    exact ⟨layers, hread, memory, hmem, printed, hprint, rfl⟩

section Run

variable {env : Env} {args : Args}

/-- Layers that parse are all checked, together, and the report is printed. -/
theorem verify_of_parses {cfg : Config} {layers : List (List Instruction)}
    {memory : Option MemoryCheckResult} {printed : Printed}
    (hparse : Parses env args cfg layers) (hne : layers ≠ [])
    (hmem : L1Part cfg args layers memory)
    (hprint : (layersReport layers memory).print env.host args.format = .ok printed) :
    verify env args = .ok (checkedResult (layersReport layers memory) printed) := by
  obtain ⟨datas, hload, hread⟩ := forall₂_comp.mpr hparse.images
  have hdatas : datas.isEmpty = false := by
    cases hread with
    | nil => exact absurd rfl hne
    | cons _ _ => rfl
  unfold verify
  rw [hparse.config, show loadPaths env (args.layerPaths env) = .ok (.ok datas) from
    loadPaths_ok_iff.mpr hload]
  show (if datas.isEmpty then _ else verifyLayers env.host cfg args datas) = _
  rw [hdatas]
  exact verifyLayers_ok_iff.mpr ⟨layers, memory, printed, hread, hmem, hprint, rfl⟩

/-- `main` prints a verdict on all its layers, or returns 2 before there is any. -/
theorem verify_cases {r : MainResult} (h : verify env args = .ok r) :
    (r.code = 2 ∧ (∃ cfg, Config.init env args.config = .ok cfg) ∧
      ((∃ path ∈ args.layerPaths env, env.file path = .missing) ∨
        args.layerPaths env = [])) ∨
    ∃ cfg layers memory printed, Parses env args cfg layers ∧ layers ≠ [] ∧
      L1Part cfg args layers memory ∧
      (layersReport layers memory).print env.host args.format = .ok printed ∧
      r = checkedResult (layersReport layers memory) printed := by
  obtain ⟨cfg, hcfg, h⟩ := bind_eq_ok.mp h
  obtain ⟨loaded, hloaded, h⟩ := bind_eq_ok.mp h
  cases loaded with
  | error path =>
      obtain rfl := Except.ok.inj h
      obtain ⟨hmem, hmissing⟩ := loadPaths_error hloaded
      exact Or.inl ⟨rfl, ⟨cfg, hcfg⟩, Or.inl ⟨path, hmem, hmissing⟩⟩
  | ok datas =>
      have hfiles := loadPaths_ok_iff.mp hloaded
      cases datas with
      | nil =>
          obtain rfl := Except.ok.inj h
          exact Or.inl ⟨rfl, ⟨cfg, hcfg⟩, Or.inr (List.forall₂_nil_right_iff.mp hfiles)⟩
      | cons data datas =>
          obtain ⟨layers, memory, printed, hread, hmem, hprint, rfl⟩ :=
            verifyLayers_ok_iff.mp h
          refine Or.inr ⟨cfg, layers, memory, printed, ⟨hcfg, ?_⟩, ?_, hmem, hprint, rfl⟩
          · exact forall₂_comp.mp ⟨data :: datas, hfiles, hread⟩
          · rintro rfl
            cases hread

/-- Before there is a verdict, `main` returns 2. -/
theorem verify_refused (hcfg : ∃ cfg, Config.init env args.config = .ok cfg)
    (h : (∃ path, loadPaths env (args.layerPaths env) = .ok (.error path)) ∨
      args.layerPaths env = []) : ∃ r, verify env args = .ok r ∧ r.code = 2 := by
  obtain ⟨cfg, hcfg⟩ := hcfg
  unfold verify
  rw [hcfg]
  rcases h with ⟨path, hpath⟩ | hnil
  · rw [hpath]
    exact ⟨_, rfl, rfl⟩
  · rw [hnil]
    exact ⟨_, rfl, rfl⟩

theorem checkedResult_code (report : Report) (printed : Printed) :
    (checkedResult report printed).code = 0 ∨ (checkedResult report printed).code = 1 := by
  show (if _ then (0 : Int) else 1) = 0 ∨ (if _ then (0 : Int) else 1) = 1
  split
  · exact Or.inl rfl
  · exact Or.inr rfl

theorem main_eq (h : args.imagePaths ≠ [] ∨ args.patterns ≠ []) :
    main env args = match verify env args with
      | .ok r => .returned r
      | .error e => .raised e := by
  refine if_neg ?_
  simp only [Bool.and_eq_true, List.isEmpty_iff]
  exact fun hnil => h.elim (fun hi => hi hnil.1) (fun hp => hp hnil.2)

theorem verify_of_main {r : MainResult} (h : main env args = .returned r) :
    verify env args = .ok r := by
  unfold main at h
  split at h
  · cases h
  · split at h
    · next hok =>
        cases h
        exact hok
    · cases h

/-- Neither usage errors nor exceptions end with status 0. -/
theorem returned_of_status_zero (h : (main env args).status = 0) :
    ∃ r, main env args = .returned r ∧ r.code = 0 := by
  cases hmain : main env args with
  | returned r =>
      rw [hmain] at h
      exact ⟨r, rfl, h⟩
  | exited code =>
      rw [hmain] at h
      unfold main at hmain
      split at hmain
      · injection hmain with hcode
        rw [← hcode] at h
        cases h
      · split at hmain <;> cases hmain
  | raised e =>
      rw [hmain] at h
      cases h

end Run

/-! ## No named layer is dropped -/

/-- `glob` returns exactly the existing paths that match. -/
def GlobExact (env : Env) (Matches : String → String → Prop) : Prop :=
  ∀ pat path, path ∈ env.glob pat ↔ Matches pat path ∧ env.file path ≠ .missing

/-- A `--layers` argument matches an existing file. -/
def NamesFile (env : Env) (Matches : String → String → Prop) (pat : String) : Prop :=
  ∃ path, Matches pat path ∧ env.file path ≠ .missing

/-- The image and every matched file was read and checked as a layer of its
own, and the report counts them. -/
def ChecksEveryFile (env : Env) (args : Args) (r : MainResult) : Prop :=
  ∃ cfg layers memory paths,
    paths.Perm (args.imagePaths ++ args.patterns.flatMap env.glob) ∧
    Config.init env args.config = .ok cfg ∧
    List.Forall₂ (fun path instrs =>
      ∃ data, env.file path = .file data ∧ read cfg data = .ok instrs) paths layers ∧
    L1Part cfg args layers memory ∧
    r.report = some { memory, conflict := some (checkLayers layers) } ∧
    (checkLayers layers).layersChecked =
      (args.patterns.map fun pat => (env.glob pat).length).sum + args.imagePaths.length

/-- A run that accepts has checked every named file, and a name without a file
is an error. -/
structure DropsNothing (env : Env) (Matches : String → String → Prop) (args : Args) :
    Prop where
  accepted : ∀ r, main env args = .returned r → r.code = 0 →
    (∀ pat ∈ args.patterns, NamesFile env Matches pat) ∧ ChecksEveryFile env args r
  refused : (∃ pat ∈ args.patterns, ¬ NamesFile env Matches pat) →
    ∃ r, main env args = .returned r ∧ r.code = 2

section Drops

variable {env : Env} {Matches : String → String → Prop} {args : Args}

/-- Whatever the arguments, an accepting run has checked the files it found. -/
theorem checksEveryFile {r : MainResult} (h : main env args = .returned r)
    (hcode : r.code = 0) : ChecksEveryFile env args r := by
  rcases verify_cases (verify_of_main h) with ⟨h2, -, -⟩ | hchecked
  · rw [h2] at hcode
    cases hcode
  · obtain ⟨cfg, layers, memory, printed, hparse, -, hmem, -, rfl⟩ := hchecked
    have hperm : (args.layerPaths env).Perm
        (args.imagePaths ++ args.patterns.flatMap env.glob) :=
      (matchedPaths_perm env args.patterns).append_left _
    refine ⟨cfg, layers, memory, args.layerPaths env, hperm, hparse.config,
      hparse.images, hmem, rfl, ?_⟩
    have hlen := hparse.images.length_eq.symm.trans hperm.length_eq
    rw [List.length_append, List.length_flatMap] at hlen
    exact hlen.trans (Nat.add_comm _ _)

variable (hglob : GlobExact env Matches)
include hglob

theorem namesFile_iff {pat : String} :
    NamesFile env Matches pat ↔ ∃ path, path ∈ env.glob pat := by
  simp only [NamesFile, hglob pat]

/-- A run refused by `return 2` lacks its image, or has no layer at all. -/
theorem refused_cases {r : MainResult} (h : verify env args = .ok r) (hcode : r.code = 2) :
    (∃ cfg, Config.init env args.config = .ok cfg) ∧
      ((∃ path ∈ args.imagePaths, env.file path = .missing) ∨
        (args.imagePaths = [] ∧ ∀ pat ∈ args.patterns, ¬ NamesFile env Matches pat)) := by
  rcases verify_cases h with ⟨-, hcfg, hpaths⟩ |
    ⟨_, layers, memory, printed, -, -, -, -, rfl⟩
  · refine ⟨hcfg, ?_⟩
    rcases hpaths with ⟨path, hpath, hmissing⟩ | hnil
    · rcases List.mem_append.mp hpath with himage | hmatched
      · exact Or.inl ⟨path, himage, hmissing⟩
      · obtain ⟨pat, -, hin⟩ := mem_matchedPaths.mp hmatched
        exact absurd hmissing ((hglob pat path).mp hin).2
    · obtain ⟨himage, hmatched⟩ := List.append_eq_nil_iff.mp hnil
      refine Or.inr ⟨himage, fun pat hpat hnames => ?_⟩
      obtain ⟨path, hpath⟩ := (namesFile_iff hglob).mp hnames
      have hin := mem_matchedPaths.mpr ⟨pat, hpat, hpath⟩
      rw [hmatched] at hin
      exact absurd hin List.not_mem_nil
  · rcases checkedResult_code (layersReport layers memory) printed with h0 | h1 <;> omega

/-- Conversely, these runs are refused. -/
theorem refused_of_cases (hcfg : ∃ cfg, Config.init env args.config = .ok cfg)
    (h : (∃ path ∈ args.imagePaths, env.file path = .missing) ∨
      (args.imagePaths = [] ∧ ∀ pat ∈ args.patterns, ¬ NamesFile env Matches pat)) :
    ∃ r, verify env args = .ok r ∧ r.code = 2 := by
  refine verify_refused hcfg ?_
  rcases h with ⟨path, hpath, hmissing⟩ | ⟨himage, hnone⟩
  · obtain ⟨rest, hrest⟩ : ∃ rest, args.imagePaths = path :: rest := by
      unfold Args.imagePaths at hpath ⊢
      split at hpath
      · split at hpath
        · exact absurd hpath List.not_mem_nil
        · next hne =>
            rw [if_neg hne]
            exact ⟨[], by rw [List.mem_singleton.mp hpath]⟩
      · exact absurd hpath List.not_mem_nil
    refine Or.inl ⟨path, ?_⟩
    rw [Args.layerPaths, hrest]
    exact loadPaths_cons_missing hmissing _
  · refine Or.inr (List.append_eq_nil_iff.mpr ⟨himage, ?_⟩)
    refine List.eq_nil_iff_forall_not_mem.mpr fun path hpath => ?_
    obtain ⟨pat, hpat, hin⟩ := mem_matchedPaths.mp hpath
    exact hnone pat hpat ((namesFile_iff hglob).mpr ⟨path, hin⟩)

/-- **Exactly when nothing is dropped.** Every `--layers` argument matches a
file, or the run is refused for another reason: the configuration loads and
either the image is missing or nothing at all was found. -/
theorem dropsNothing_iff :
    DropsNothing env Matches args ↔
      (∀ pat ∈ args.patterns, NamesFile env Matches pat) ∨
      ((∃ cfg, Config.init env args.config = .ok cfg) ∧
        ((∃ path ∈ args.imagePaths, env.file path = .missing) ∨
          (args.imagePaths = [] ∧
            ∀ pat ∈ args.patterns, ¬ NamesFile env Matches pat))) := by
  constructor
  · intro h
    by_cases hall : ∀ pat ∈ args.patterns, NamesFile env Matches pat
    · exact Or.inl hall
    · simp only [not_forall, exists_prop] at hall
      obtain ⟨r, hmain, hcode⟩ := h.refused hall
      exact Or.inr (refused_cases hglob (verify_of_main hmain) hcode)
  · rintro (hall | ⟨hcfg, hcases⟩)
    · refine ⟨fun r hmain hcode => ⟨hall, checksEveryFile hmain hcode⟩, ?_⟩
      rintro ⟨pat, hpat, hno⟩
      exact absurd (hall pat hpat) hno
    · obtain ⟨r, hverify, hcode⟩ := refused_of_cases hglob hcfg hcases
      constructor
      · intro r' hmain hcode'
        have heq := (verify_of_main hmain).symm.trans hverify
        obtain rfl := Except.ok.inj heq
        rw [hcode] at hcode'
        cases hcode'
      · rintro ⟨pat, hpat, -⟩
        refine ⟨r, ?_, hcode⟩
        rw [main_eq (Or.inr (List.ne_nil_of_mem hpat)), hverify]

end Drops

/-! ## A sample directory -/

/-- `{"space_bytes":16,"processor_n":1}`. -/
def sampleJson : List Byte :=
  "\x7b\"space_bytes\":16,\"processor_n\":1\x7d".toList.map fun c =>
    BitVec.ofNat 8 c.toNat

/-- An image of sixteen zero bytes, one of fifteen, and a configuration. -/
def sampleFile (path : String) : FileEntry :=
  if path = "a.bin" then .file (List.replicate 16 0)
  else if path = "short.bin" then .file (List.replicate 15 0)
  else if path = "c.json" then .file sampleJson
  else .missing

/-- The limit that CPython sets by itself. The samples show no float and no list. -/
def sampleHost : PyHost :=
  { maxStrDigits := 4300
    maxStrDigits_valid := by decide
    reprFloat := fun _ => "nan"
    reprFloat_plain := fun _ => by decide
    reprStr := fun _ => "''"
    reprStr_plain := fun _ => by decide }

/-- Patterns are plain names; `math.ceil(math.log2(128))` is 7. -/
def sampleEnv : Env :=
  { file := sampleFile
    glob := fun pat =>
      match sampleFile pat with
      | .missing => []
      | _ => [pat]
    jsonLoad := fun bytes =>
      if bytes = sampleJson then
        some (.dict [("space_bytes", .int 16), ("processor_n", .int 1)])
      else none
    ceilLog2 := fun _ => 7
    host := sampleHost }

def sampleArgs (layers : List String) : Args :=
  { image := none, layers := some layers, config := some "c.json", format := .text
    l2Only := false }

theorem sampleEnv_globExact : GlobExact sampleEnv (· = ·) := by
  intro pat path
  show path ∈ (match sampleFile pat with
    | .missing => []
    | _ => [pat]) ↔ pat = path ∧ sampleFile path ≠ .missing
  constructor
  · intro h
    split at h
    · exact absurd h List.not_mem_nil
    · next hne =>
        obtain rfl := List.mem_singleton.mp h
        exact ⟨rfl, hne⟩
  · rintro ⟨rfl, hne⟩
    split
    · next h => exact absurd h hne
    · exact List.mem_singleton_self _

theorem dropsNothing_iff_sample :
    DropsNothing sampleEnv (· = ·) (sampleArgs ["a.bin"]) :=
  (dropsNothing_iff sampleEnv_globExact).mpr
    (Or.inl fun pat hpat => ⟨"a.bin", List.mem_singleton.mp hpat, by decide⟩)

/-- `--layers a.bin b.bin` passes although `b.bin` does not exist. -/
theorem not_dropsNothing_sample :
    GlobExact sampleEnv (· = ·) ∧
      (main sampleEnv (sampleArgs ["a.bin", "b.bin"])).status = 0 ∧
      ¬ DropsNothing sampleEnv (· = ·) (sampleArgs ["a.bin", "b.bin"]) := by
  have hpass : (main sampleEnv (sampleArgs ["a.bin", "b.bin"])).status = 0 := by
    decide +kernel
  refine ⟨sampleEnv_globExact, hpass, fun h => ?_⟩
  have hno : ¬ NamesFile sampleEnv (· = ·) "b.bin" := by
    rintro ⟨_, rfl, hne⟩
    exact hne rfl
  obtain ⟨r, hmain, hcode⟩ := h.refused
    ⟨"b.bin", List.mem_cons_of_mem _ List.mem_cons_self, hno⟩
  rw [hmain] at hpass
  exact absurd (hcode.symm.trans hpass) (by decide)

end SpaceVerifier.Verifier
