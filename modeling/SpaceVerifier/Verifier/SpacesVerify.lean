import SpaceVerifier.Verifier.Report

/-!
# `spaces_verify.py`: the command line

The host supplies what files hold, what a pattern matches, the JSON parser, the
rounding of `math.log2` and the way values are written. The command line is taken
as parsed, and standard output as open and in UTF-8.
-/

namespace SpaceVerifier.Verifier

open Foundation

inductive FileEntry where
  | missing
  /-- There, but opening or reading it raises an `OSError`. -/
  | unreadable
  | file (contents : List Byte)
deriving DecidableEq

structure Env where
  file : String → FileEntry
  glob : String → List String
  /-- `json.load` of a file with these contents; `none` is invalid JSON. -/
  jsonLoad : List Byte → Option PyVal
  ceilLog2 : ℚ → Int
  host : PyHost

structure Args where
  image : Option String
  layers : Option (List String)
  config : Option String
  format : Format
  l2Only : Bool
deriving DecidableEq, Repr

/-- A return of `main`: its value, the line on `stderr`, the report, and what was
printed of it. -/
structure MainResult where
  code : Int
  stderr : Option String
  report : Option Report
  stdout : Option Printed

/-- How the process ends. -/
inductive Outcome where
  | returned (r : MainResult)
  /-- `SystemExit`, raised by `parser.error`. -/
  | exited (code : Int)
  /-- Any other exception; nothing catches it. -/
  | raised (e : PyExc)

/-- `open(path)` and `read`. -/
def openRead (env : Env) (path : String) : Except PyExc (List Byte) :=
  match env.file path with
  | .missing => .error (.fileNotFound path)
  | .unreadable => .error (.osError path)
  | .file contents => .ok contents

/-- `Config(path)`. -/
def Config.init (env : Env) (path : Option String) : Except PyExc Config := do
  let c ← match path with
    | some p =>
        if p = "" then pure Config.default
        else do
          match env.jsonLoad (← openRead env p) with
          | some d => Config.default.load d
          | none => throw (.valueError "invalid JSON" [])
    | none => pure Config.default
  c.resolve env.ceilLog2

/-- `_load_layer`: only `FileNotFoundError` is caught. -/
def loadLayer (env : Env) (path : String) :
    Except PyExc (Option (List Byte)) :=
  match openRead env path with
  | .ok contents => .ok (some contents)
  | .error (.fileNotFound _) => .ok none
  | .error e => .error e

/-- Loads the paths in order; stops at the first one that is not found. -/
def loadPaths (env : Env) :
    List String → Except PyExc (Except String (List (List Byte)))
  | [] => .ok (.ok [])
  | path :: rest => do
      match ← loadLayer env path with
      | none => return .error path
      | some data =>
          match ← loadPaths env rest with
          | .error p => return .error p
          | .ok datas => return .ok (data :: datas)

/-- The paths of the loading loop: `sorted(glob.glob(pattern))`, pattern after
pattern. -/
def matchedPaths (env : Env) (patterns : List String) : List String :=
  patterns.flatMap fun pat => (env.glob pat).insertionSort (· ≤ ·)

/-- `args.image` when it is truthy. -/
def Args.imagePaths (args : Args) : List String :=
  match args.image with
  | some p => if p = "" then [] else [p]
  | none => []

/-- `args.layers` when it is truthy. -/
def Args.patterns (args : Args) : List String := args.layers.getD []

/-- The files opened as layers, in this order. -/
def Args.layerPaths (env : Env) (args : Args) : List String :=
  args.imagePaths ++ matchedPaths env args.patterns

/-- `_merge_memory_results`, layers numbered from `tick` on. -/
def mergeMemoryResults (cfg : Config) :
    (tick : Nat) → List (List Instruction) → Except PyExc MemoryCheckResult
  | _, [] => .ok ⟨.pass, [], 0, 0⟩
  | tick, instrs :: rest => do
      let result ← checkLayer cfg instrs tick
      let others ← mergeMemoryResults cfg (tick + 1) rest
      return { status := if result.status = .fail then .fail else others.status
               violations := result.violations ++ others.violations
               totalChecked := result.totalChecked + others.totalChecked
               totalNop := result.totalNop + others.totalNop }

/-- `main` from the loaded layers on. -/
def verifyLayers (host : PyHost) (cfg : Config) (args : Args)
    (layersData : List (List Byte)) : Except PyExc MainResult := do
  let allLayers ← layersData.mapM (read cfg)
  let memory ← if args.l2Only then pure none
    else do pure (some (← mergeMemoryResults cfg 0 allLayers))
  let report : Report :=
    { memory, conflict := some (checkLayers allLayers) }
  let printed ← report.print host args.format
  return { code := if report.overallStatus = .pass then 0 else 1
           stderr := none, report := some report, stdout := some printed }

/-- `main` behind the test of its arguments. -/
def verify (env : Env) (args : Args) : Except PyExc MainResult := do
  let cfg ← Config.init env args.config
  match ← loadPaths env (args.layerPaths env) with
  | .error path =>
      return { code := 2, stderr := some s!"ERROR: file not found: {path}"
               report := none, stdout := none }
  | .ok layersData =>
      if layersData.isEmpty then
        return { code := 2, stderr := some "ERROR: no layer files found"
                 report := none, stdout := none }
      else verifyLayers env.host cfg args layersData

/-- `main`. -/
def main (env : Env) (args : Args) : Outcome :=
  if args.imagePaths.isEmpty && args.patterns.isEmpty then .exited 2
  else
    match verify env args with
    | .ok r => .returned r
    | .error e => .raised e

/-- The exit status of the process: `sys.exit(main())`. -/
def Outcome.status : Outcome → Int
  | .returned r => r.code
  | .exited code => code
  | .raised _ => 1

end SpaceVerifier.Verifier
