import SpaceVerifier.Verifier.ImageReader

/-!
# `memory_check.py`: L1, memory safety
-/

namespace SpaceVerifier.Verifier

open Foundation

inductive Status where
  | pass
  | fail
deriving DecidableEq, Repr

/-- The three texts of a violation, with the values they show. -/
inductive Reason where
  | boundary (dst n : Nat) (spaceBits : PyVal)
  | protectedRegion (dst n : Nat) (region : Region)
  | notAllowed (dst n : Nat)

structure Violation where
  tick : Nat
  slot : Nat
  n : Nat
  dst : Nat
  src : Nat
  reason : Reason

structure MemoryCheckResult where
  status : Status
  violations : List Violation
  totalChecked : Nat
  totalNop : Nat

/-- The first protected region met by `[dst, dst + n)`; the loop breaks there. -/
def firstIntersecting (dst n : Int) : List Region → Except PyExc (Option Region)
  | [] => .ok none
  | r :: rs => do
      if ← r.intersects dst n then return some r
      else firstIntersecting dst n rs

/-- `_is_in_allowed`. -/
def isInAllowed (addr n : Int) : List Region → Except PyExc Bool
  | [] => .ok false
  | r :: rs => do
      if ← r.contains addr n then return true else isInAllowed addr n rs

def mkViolation (tick : Nat) (ins : Instruction) (reason : Reason) : Violation :=
  { tick, slot := ins.slot, n := ins.n, dst := ins.dst, src := ins.src, reason }

/-- The body of the loop of `check_layer`: the violations it appends. -/
def checkInstr (cfg : Config) (tick : Nat) (ins : Instruction) :
    Except PyExc (List Violation) := do
  if ins.isNop then return []
  let spaceBits ← cfg.spaceBits
  -- only the destination is tested, and `continue` skips the regions
  if ← spaceBits.lt (.int (ins.dst + ins.n : Nat)) then
    return [mkViolation tick ins (.boundary ins.dst ins.n spaceBits)]
  let hit ← firstIntersecting ins.dst ins.n cfg.protectedRegions
  let protectedPart := match hit with
    | some r => [mkViolation tick ins (.protectedRegion ins.dst ins.n r)]
    | none => []
  if cfg.allowedRegions.isEmpty then return protectedPart
  else if ← isInAllowed ins.dst ins.n cfg.allowedRegions then
    return protectedPart
  else
    return protectedPart ++ [mkViolation tick ins (.notAllowed ins.dst ins.n)]

/-- The loop of `check_layer`: violations so far, in order. -/
def checkInstrs (cfg : Config) (tick : Nat) :
    List Instruction → Except PyExc (List Violation)
  | [] => .ok []
  | ins :: rest => do
      let here ← checkInstr cfg tick ins
      return here ++ (← checkInstrs cfg tick rest)

/-- `MemoryChecker.check_layer`. -/
def checkLayer (cfg : Config) (instrs : List Instruction) (tick : Nat) :
    Except PyExc MemoryCheckResult := do
  let violations ← checkInstrs cfg tick instrs
  return { status := if violations.isEmpty then .pass else .fail
           violations
           totalChecked := instrs.length
           totalNop := instrs.countP (·.isNop) }

end SpaceVerifier.Verifier
