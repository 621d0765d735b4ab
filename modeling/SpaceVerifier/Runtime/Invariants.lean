import SpaceVerifier.Runtime.Tick

/-!
# `invariants.c`: the opt-in check of the pointer variables

`ART` is a table of `addr_bits`-wide entries behind the workspace base. Its
entries 58, 59 and 60 hold the addresses of the three cells `VAR_AP`, `VAR_BP`
and `VAR_RP`, and a cell holds a pointer. The host calls the check between
ticks; a failure is recorded in `last_err`, printed, and answered with -1.
-/

namespace SpaceVerifier.Runtime

open Foundation Foundation.Traced

/-- `align8_bits`. -/
def align8Bits (x : Nat) : Nat :=
  let y := add64 x 7
  y - y % 8

/-- Records the error and prints the line. -/
def invariantFail (w : World) (line : String) : Int × World :=
  let e : VmErr := { kind := .align32, tick := w.vm.tickCounter, slot := 0,
                     ins := ⟨0, 0, 0⟩, spaceBits := w.vm.spaceBits }
  (-1, { w with vm := { w.vm with lastErr := e }, stderr := w.stderr ++ [line] })

/-- How every line of the check begins. -/
def failHead (w : World) : String :=
  s!"VM_ERR: tick={w.vm.tickCounter} kind={VmErrKind.align32.code} "

def checkVarPtr (w : World) (name : String) (varAddr minBits : Nat) :
    Traced Event (Int × World) := do
  let v ← vmReadUint w.vm varAddr w.vm.addrBits
  -- before the program has initialised its variables they may be null
  if v = 0 then return (0, w)
  else
    let sb := w.vm.spaceBits
    let wb := w.vm.workspaceBase
    if v ≥ sb ∨ add64 v minBits > sb then
      return invariantFail w (failHead w ++
        s!"{name}={v} is out of bounds (space_bits={sb}, min_bits={minBits})\n")
    else if v % 32 ≠ 0 then
      return invariantFail w (failHead w ++
        s!"{name}={v} (at bitaddr={varAddr}) is not 32-bit aligned (bitaddr%32!=0)\n")
    else if v < wb then
      return invariantFail w (failHead w ++
        s!"{name}={v} is in processor/MMIO region (workspace_base={wb})\n")
    else return (0, w)

/-- `rp` is one of the `width` bits of the cell at `cell`. -/
def pointsInto (rp cell width : Nat) : Bool :=
  decide (rp ≥ cell ∧ rp < add64 cell width)

def checkRpProtected (w : World) (rp protectedBegin protectedEnd varApAddr varBpAddr
    varRpAddr width : Nat) : Int × World :=
  if rp = 0 then (0, w)
  else if rp ≥ protectedBegin ∧ rp < protectedEnd then
    invariantFail w (failHead w ++
      s!"VAR_RP={rp} is in protected region (begin={protectedBegin} end={protectedEnd})\n")
  -- a write to a cell would corrupt the pointer it holds
  else if pointsInto rp varApAddr width then
    invariantFail w (failHead w ++ s!"VAR_RP={rp} points into VAR_AP cell\n")
  else if pointsInto rp varBpAddr width then
    invariantFail w (failHead w ++ s!"VAR_RP={rp} points into VAR_BP cell\n")
  else if pointsInto rp varRpAddr width then
    invariantFail w (failHead w ++ s!"VAR_RP={rp} points into VAR_RP cell\n")
  else (0, w)

/-- `if (test(vm, …) != 0) return -1;` and the rest. -/
def unlessFailed (test : Traced Event (Int × World))
    (rest : World → Traced Event (Int × World)) : Traced Event (Int × World) := do
  let r ← test
  if r.1 ≠ 0 then return (-1, r.2) else rest r.2

/-- The check from `need_bits` on: the three pointers, then the region that
`VAR_RP` must stay out of. LOAD24 and STORE24 access 24 bits at a pointer. -/
def checkPointers (w : World) (varApAddr varBpAddr varRpAddr needEnd : Nat) :
    Traced Event (Int × World) :=
  let needBits := 24
  unlessFailed (checkVarPtr w "VAR_AP" varApAddr needBits) fun w =>
  unlessFailed (checkVarPtr w "VAR_BP" varBpAddr needBits) fun w =>
  unlessFailed (checkVarPtr w "VAR_RP" varRpAddr needBits) fun w => do
    let width := w.vm.addrBits
    let rp ← vmReadUint w.vm varRpAddr width
    let protectedBegin := w.vm.workspaceBase
    let protectedEnd := needEnd
    let r := checkRpProtected w rp protectedBegin protectedEnd varApAddr varBpAddr
      varRpAddr width
    unlessFailed (pure r) fun w => pure (0, w)

def vmInvariantsStrictAlign32Check (w : World) : Traced Event (Int × World) := do
  let width := w.vm.addrBits
  let art := align8Bits (add64 w.vm.workspaceBase 512)
  let needEnd := add64 art (61 * width % 2 ^ 64)
  if needEnd > w.vm.spaceBits then
    return invariantFail w (failHead w ++ "cannot locate ART (out of bounds)\n")
  else
    let varApAddr ← vmReadUint w.vm (add64 art (58 * width % 2 ^ 64)) width
    let varBpAddr ← vmReadUint w.vm (add64 art (59 * width % 2 ^ 64)) width
    let varRpAddr ← vmReadUint w.vm (add64 art (60 * width % 2 ^ 64)) width
    if add64 varApAddr width > w.vm.spaceBits then
      return invariantFail w (failHead w ++ "VAR_AP addr out of bounds\n")
    else if add64 varBpAddr width > w.vm.spaceBits then
      return invariantFail w (failHead w ++ "VAR_BP addr out of bounds\n")
    else if add64 varRpAddr width > w.vm.spaceBits then
      return invariantFail w (failHead w ++ "VAR_RP addr out of bounds\n")
    else checkPointers w varApAddr varBpAddr varRpAddr needEnd

end SpaceVerifier.Runtime
