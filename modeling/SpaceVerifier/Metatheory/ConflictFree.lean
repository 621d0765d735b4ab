import SpaceVerifier.Foundation.Interval
import SpaceVerifier.Foundation.RangeCopy
import SpaceVerifier.Verifier.ConflictCheck

/-!
# L2 is exact, and a PASS makes a round race free

The specification of a round is the one of the README: no bit position belongs
to two of the ranges of its active instructions (`ConflictFree`). The scan of
`conflict_check.py` decides it, and a conflict-free round gives the same memory
in every execution order.
-/

namespace SpaceVerifier.Verifier

open Foundation

/-! ## The invariant of a round -/

/-- The source and the destination range of one instruction. -/
def Instruction.ranges (ins : Instruction) : List (Set ℕ) :=
  [Set.Ico ins.src (ins.src + ins.n), Set.Ico ins.dst (ins.dst + ins.n)]

/-- The ranges of all instructions with `n > 0`, two per instruction. -/
def roundRanges (instrs : List Instruction) : List (Set ℕ) :=
  (instrs.filter fun ins => 0 < ins.n).flatMap Instruction.ranges

/-- No bit position belongs to two ranges of the round. -/
def ConflictFree (instrs : List Instruction) : Prop :=
  (roundRanges instrs).Pairwise Disjoint

/-! ## The sorted intervals -/

def Interval.span (i : Interval) : Set ℕ := Foundation.span Interval.start Interval.stop i

instance : Std.Total Interval.keyLe where
  total a b := by
    unfold Interval.keyLe
    omega

instance : IsTrans Interval Interval.keyLe where
  trans a b c := by
    unfold Interval.keyLe
    omega

theorem Interval.keyLe.start_le {a b : Interval} (h : a.keyLe b) :
    a.start ≤ b.start := by
  rcases h with h | h
  · exact h.le
  · exact h.1.le

theorem active_eq (instrs : List Instruction) :
    active instrs = instrs.filter fun ins => 0 < ins.n := by
  unfold active
  congr 1
  funext ins
  rw [Bool.eq_iff_iff]
  simp [Instruction.isNop, Nat.pos_iff_ne_zero]

theorem mem_active {instrs : List Instruction} {ins : Instruction} :
    ins ∈ active instrs ↔ ins ∈ instrs ∧ 0 < ins.n := by
  rw [active_eq, List.mem_filter]
  simp

theorem mem_intervalsOf {ins : Instruction} {i : Interval} :
    i ∈ intervalsOf ins ↔ i = ⟨ins.src, ins.src + ins.n, ins.slot, .src⟩ ∨
      i = ⟨ins.dst, ins.dst + ins.n, ins.slot, .dst⟩ := by
  simp [intervalsOf]

theorem mem_tickIntervals {instrs : List Instruction} {i : Interval} :
    i ∈ tickIntervals instrs ↔
      ∃ ins ∈ instrs, 0 < ins.n ∧ i ∈ intervalsOf ins ∧ ins.slot = i.slot := by
  unfold tickIntervals
  rw [List.mem_flatMap]
  constructor
  · rintro ⟨ins, hins, hi⟩
    obtain ⟨hmem, hn⟩ := mem_active.mp hins
    refine ⟨ins, hmem, hn, hi, ?_⟩
    rcases mem_intervalsOf.mp hi with rfl | rfl <;> rfl
  · rintro ⟨ins, hmem, hn, hi, -⟩
    exact ⟨ins, mem_active.mpr ⟨hmem, hn⟩, hi⟩

theorem start_lt_stop {instrs : List Instruction} {i : Interval}
    (hi : i ∈ tickIntervals instrs) : i.start < i.stop := by
  obtain ⟨ins, -, hn, hmem, -⟩ := mem_tickIntervals.mp hi
  rcases mem_intervalsOf.mp hmem with rfl | rfl
  · show ins.src < ins.src + ins.n
    omega
  · show ins.dst < ins.dst + ins.n
    omega

theorem roundRanges_eq_map (instrs : List Instruction) :
    roundRanges instrs = (tickIntervals instrs).map Interval.span := by
  rw [roundRanges, tickIntervals, active_eq, List.map_flatMap]
  rfl

/-! ## The two tests of `_check_tick` -/

theorem neighbourConflict_eq_nil {tick : Nat} {prev curr : Interval} :
    neighbourConflict tick prev curr = [] ↔ prev.stop ≤ curr.start := by
  unfold neighbourConflict
  split
  · next h => simpa using h
  · next h => simpa using h

/-- The scan line reports nothing exactly when every interval ends before the
next one starts. -/
theorem scanLine_eq_nil {tick : Nat} {l : List Interval} :
    scanLine tick l = [] ↔ l.IsChain fun i j => i.stop ≤ j.start := by
  induction l with
  | nil => simp [scanLine]
  | cons prev l ih =>
      cases l with
      | nil => simp [scanLine]
      | cons curr rest =>
          rw [scanLine, List.append_eq_nil_iff, neighbourConflict_eq_nil, ih,
            List.isChain_cons_cons]

/-- **The scan line is complete on sorted, non-empty intervals.** -/
theorem scanLine_sorted_eq_nil {tick : Nat} {l : List Interval}
    (hne : ∀ i ∈ l, i.start < i.stop) :
    scanLine tick (l.insertionSort Interval.keyLe) = [] ↔
      l.Pairwise fun i j => Disjoint i.span j.span := by
  have hsorted : (l.insertionSort Interval.keyLe).Pairwise
      fun i j => i.start ≤ j.start :=
    (List.pairwise_insertionSort Interval.keyLe l).imp Interval.keyLe.start_le
  have hne' : ∀ i ∈ l.insertionSort Interval.keyLe, i.start < i.stop :=
    fun i hi => hne i ((List.mem_insertionSort Interval.keyLe).mp hi)
  rw [scanLine_eq_nil, isChain_iff_pairwise_disjoint hne' hsorted]
  exact (List.perm_insertionSort Interval.keyLe l).pairwise_iff
    fun hab => hab.symm

theorem selfConflict_eq_nil_of_disjoint {tick : Nat} {ins : Instruction}
    (hn : 0 < ins.n) (h : ins.ranges.Pairwise Disjoint) :
    selfConflict tick ins = [] := by
  have hd : Disjoint (Set.Ico ins.src (ins.src + ins.n))
      (Set.Ico ins.dst (ins.dst + ins.n)) :=
    (List.pairwise_cons.mp h).1 _ List.mem_cons_self
  have hends := (Ico_disjoint_iff (by omega) (by omega)).mp hd
  simp [selfConflict, hends]

/-- One tick is accepted exactly when its round is conflict free. The self
test adds nothing: a self-overlap is also found between two intervals. -/
theorem checkTick_eq_nil {instrs : List Instruction} {tick : Nat} :
    checkTick instrs tick = [] ↔ ConflictFree instrs := by
  have hscan : scanLine tick ((tickIntervals instrs).insertionSort
      Interval.keyLe) = [] ↔ ConflictFree instrs := by
    rw [scanLine_sorted_eq_nil fun i hi => start_lt_stop hi, ConflictFree,
      roundRanges_eq_map, List.pairwise_map]
  rw [checkTick, List.append_eq_nil_iff, hscan]
  constructor
  · exact fun h => h.2
  · -- the two ranges of one instruction are among the ranges of the round
    intro h
    refine ⟨?_, h⟩
    rw [List.flatMap_eq_nil_iff]
    intro ins hins
    rw [active_eq] at hins
    have hn : 0 < ins.n := by simpa using (List.mem_filter.mp hins).2
    exact selfConflict_eq_nil_of_disjoint hn
      ((List.pairwise_flatMap.mp h).1 ins hins)

theorem layerConflicts_eq_nil {tick : Nat} {layers : List (List Instruction)} :
    layerConflicts tick layers = [] ↔ ∀ layer ∈ layers, ConflictFree layer := by
  induction layers generalizing tick with
  | nil => simp [layerConflicts]
  | cons layer rest ih =>
      rw [layerConflicts, List.append_eq_nil_iff, checkTick_eq_nil, ih,
        List.forall_mem_cons]

/-- **The L2 verdict is exact.** A sequence of layers passes if and only if the
ranges of each layer are pairwise disjoint. -/
theorem checkLayers_pass_iff (layers : List (List Instruction)) :
    (checkLayers layers).status = .pass ↔
      ∀ layer ∈ layers, (roundRanges layer).Pairwise Disjoint := by
  have hnil : layerConflicts 0 layers = [] ↔ ∀ layer ∈ layers, ConflictFree layer :=
    layerConflicts_eq_nil
  show (if (layerConflicts 0 layers).isEmpty then Status.pass else .fail) =
    .pass ↔ _
  rw [← List.isEmpty_iff] at hnil
  by_cases h : (layerConflicts 0 layers).isEmpty
  · rw [if_pos h]
    exact iff_of_true rfl (hnil.mp h)
  · rw [if_neg h]
    exact iff_of_false (by decide) fun hall => h (hnil.mpr hall)

/-! ## Order independence -/

/-- `copy(n, dst, src)` of the README: every bit `dst + i` takes the old value
of bit `src + i`, all other bits stay. -/
def Instruction.toMove (ins : Instruction) : Move :=
  { n := ins.n, dst := ins.dst, src := ins.src }

/-- The copies of a round, one after another. -/
def runRound (instrs : List Instruction) (m : ℕ → Bool) : ℕ → Bool :=
  instrs.foldl (fun m ins => copyRange ins.toMove m) m

/-- The copies of a round, all at once. -/
def simultaneousRound (instrs : List Instruction) (m : ℕ → Bool) : ℕ → Bool :=
  copySim (instrs.map Instruction.toMove) m

theorem runRound_eq_copySeq (instrs : List Instruction) (m : ℕ → Bool) :
    runRound instrs m = copySeq (instrs.map Instruction.toMove) m := by
  rw [copySeq, List.foldl_map]
  rfl

/-- A move of no bits interferes with nothing. -/
theorem Indep_of_n_eq_zero {a b : Move} (h : a.n = 0) : a.Indep b := by
  simp [Move.Indep, Move.dstSpan, Move.srcSpan, h]

theorem indep_of_ranges {a b : Instruction}
    (h : ∀ x ∈ a.ranges, ∀ y ∈ b.ranges, Disjoint x y) :
    a.toMove.Indep b.toMove := by
  simp only [Instruction.ranges, List.mem_cons, List.not_mem_nil, or_false,
    forall_eq_or_imp, forall_eq] at h
  exact ⟨h.2.2, h.2.1, h.1.2⟩

/-- A conflict-free round is a family of non-interfering moves; the NOPs move
nothing. -/
theorem ConflictFree.indep {instrs : List Instruction}
    (h : ConflictFree instrs) :
    (instrs.map Instruction.toMove).Pairwise Move.Indep := by
  have hpw := (List.pairwise_flatMap.mp h).2
  rw [List.pairwise_filter] at hpw
  rw [List.pairwise_map]
  refine hpw.imp ?_
  intro a b hab
  rcases Nat.eq_zero_or_pos a.n with ha | ha
  · exact Indep_of_n_eq_zero ha
  · rcases Nat.eq_zero_or_pos b.n with hb | hb
    · exact (Indep_of_n_eq_zero hb).symm
    · exact indep_of_ranges (hab (by simpa using ha) (by simpa using hb))

/-- **A round that L2 accepts is order independent.** Every order of its
copies gives the simultaneous result: each destination bit holds the old value
of its source bit and every other bit is unchanged. -/
theorem runRound_perm_of_checkTick {instrs order : List Instruction}
    {tick : Nat} (h : checkTick instrs tick = []) (hp : order.Perm instrs)
    (m : ℕ → Bool) :
    runRound order m = simultaneousRound instrs m ∧
    (∀ ins ∈ instrs, ∀ i < ins.n,
      runRound order m (ins.dst + i) = m (ins.src + i)) ∧
    (∀ p, (∀ ins ∈ instrs, p ∉ Set.Ico ins.dst (ins.dst + ins.n)) →
      runRound order m p = m p) := by
  have hind := (checkTick_eq_nil.mp h).indep
  have hrun : runRound order m = simultaneousRound instrs m := by
    rw [runRound_eq_copySeq]
    exact copySeq_perm hind (hp.map Instruction.toMove) m
  refine ⟨hrun, ?_, ?_⟩
  · intro ins hins i hi
    rw [hrun]
    exact copySim_dst hind m (List.mem_map_of_mem hins) hi
  · intro p hout
    rw [hrun]
    refine copySim_of_notMem m ?_
    intro mv hmv
    obtain ⟨ins, hins, rfl⟩ := List.mem_map.mp hmv
    exact hout ins hins

/-- Two copies, run in the opposite order. -/
theorem runRound_perm_of_checkTick_swap :
    checkTick [⟨0, 8, 0, 8⟩, ⟨1, 8, 16, 24⟩] 0 = [] ∧
      ∀ m, runRound [⟨1, 8, 16, 24⟩, ⟨0, 8, 0, 8⟩] m =
        simultaneousRound [⟨0, 8, 0, 8⟩, ⟨1, 8, 16, 24⟩] m :=
  have hpass : checkTick [⟨0, 8, 0, 8⟩, ⟨1, 8, 16, 24⟩] 0 = [] := by decide
  ⟨hpass, fun m => (runRound_perm_of_checkTick hpass (List.Perm.swap _ _ _) m).1⟩

end SpaceVerifier.Verifier
