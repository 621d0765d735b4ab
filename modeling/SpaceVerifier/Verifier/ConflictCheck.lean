import SpaceVerifier.Verifier.MemoryCheck
import Mathlib.Data.List.Sort

/-!
# `conflict_check.py`: L2, strict non-overlap
-/

namespace SpaceVerifier.Verifier

inductive OverlapKind where
  | selfSrcDst
  | srcSrc
  | dstDst
  | srcDst
  | dstSrc
deriving DecidableEq, Repr

structure Conflict where
  tick : Nat
  slotA : Nat
  slotB : Nat
  overlapBegin : Nat
  overlapEnd : Nat
  kind : OverlapKind
deriving DecidableEq, Repr

inductive Origin where
  | src
  | dst
deriving DecidableEq, Repr

structure Interval where
  start : Nat
  stop : Nat
  slot : Nat
  origin : Origin
deriving DecidableEq, Repr

structure ConflictCheckResult where
  status : Status
  conflicts : List Conflict
  layersChecked : Nat
  totalNonNop : Nat
deriving DecidableEq, Repr

/-- `[src, src + n)` and `[dst, dst + n)` of one instruction, in that order. -/
def intervalsOf (ins : Instruction) : List Interval :=
  [⟨ins.src, ins.src + ins.n, ins.slot, .src⟩,
   ⟨ins.dst, ins.dst + ins.n, ins.slot, .dst⟩]

/-- The self-overlap test of one instruction. -/
def selfConflict (tick : Nat) (ins : Instruction) : List Conflict :=
  let srcEnd := ins.src + ins.n
  let dstEnd := ins.dst + ins.n
  if ¬ (srcEnd ≤ ins.dst ∨ dstEnd ≤ ins.src) then
    [{ tick, slotA := ins.slot, slotB := ins.slot,
       overlapBegin := max ins.src ins.dst, overlapEnd := min srcEnd dstEnd,
       kind := .selfSrcDst }]
  else []

/-- `key=lambda x: (x.start, x.end)` orders tuples lexicographically. -/
def Interval.keyLe (a b : Interval) : Prop :=
  a.start < b.start ∨ (a.start = b.start ∧ a.stop ≤ b.stop)

instance : DecidableRel Interval.keyLe :=
  fun a b => inferInstanceAs
    (Decidable (a.start < b.start ∨ (a.start = b.start ∧ a.stop ≤ b.stop)))

def overlapKind (prev curr : Interval) : OverlapKind :=
  -- equal slot numbers are taken for one instruction
  if prev.slot = curr.slot then .selfSrcDst
  else
    match prev.origin, curr.origin with
    | .src, .src => .srcSrc
    | .dst, .dst => .dstDst
    | .src, .dst => .srcDst
    | .dst, .src => .dstSrc

/-- The test of two neighbours in sorted order. -/
def neighbourConflict (tick : Nat) (prev curr : Interval) : List Conflict :=
  if curr.start < prev.stop then
    [{ tick, slotA := prev.slot, slotB := curr.slot,
       overlapBegin := curr.start, overlapEnd := min curr.stop prev.stop,
       kind := overlapKind prev curr }]
  else []

/-- The scan line over the sorted intervals. -/
def scanLine (tick : Nat) : List Interval → List Conflict
  | prev :: curr :: rest =>
      neighbourConflict tick prev curr ++ scanLine tick (curr :: rest)
  | _ => []

/-- The instructions that are no NOP. -/
def active (instrs : List Instruction) : List Instruction :=
  instrs.filter fun ins => !ins.isNop

/-- Both intervals of every active instruction, in input order. -/
def tickIntervals (instrs : List Instruction) : List Interval :=
  (active instrs).flatMap intervalsOf

/-- `ConflictChecker._check_tick`; the sort is stable. -/
def checkTick (instrs : List Instruction) (tick : Nat) : List Conflict :=
  (active instrs).flatMap (selfConflict tick) ++
    scanLine tick ((tickIntervals instrs).insertionSort Interval.keyLe)

/-- The instructions of a batch of triples `(n, dst, src)`, numbered in order. -/
def batch (ops : List (Nat × Nat × Nat)) : List Instruction :=
  ops.zipIdx.map fun op => { slot := op.2, n := op.1.1, dst := op.1.2.1, src := op.1.2.2 }

/-- `ConflictChecker.check_batch`. -/
def checkBatch (ops : List (Nat × Nat × Nat)) (tick : Nat) : List Conflict :=
  checkTick (batch ops) tick

/-- The conflicts of all layers, numbered from `tick` on. -/
def layerConflicts : (tick : Nat) → List (List Instruction) → List Conflict
  | _, [] => []
  | tick, instrs :: rest => checkTick instrs tick ++ layerConflicts (tick + 1) rest

/-- `ConflictChecker.check_layers`. -/
def checkLayers (layers : List (List Instruction)) : ConflictCheckResult :=
  let conflicts := layerConflicts 0 layers
  { status := if conflicts.isEmpty then .pass else .fail
    conflicts
    layersChecked := layers.length
    totalNonNop := (layers.map fun instrs => (active instrs).length).sum }

end SpaceVerifier.Verifier
