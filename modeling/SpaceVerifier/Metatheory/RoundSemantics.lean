import SpaceVerifier.Metatheory.ConflictFree
import SpaceVerifier.Metatheory.Rounds

/-!
# Rounds of instructions

What a round without conflicts means for its memory: any order gives the
simultaneous result, and a second round changes nothing. Contracts that pass
the check one by one form a round that passes if and only if their footprints
are disjoint, and then none of them can tell that the others are there.
-/

namespace SpaceVerifier.Verifier

open Foundation SpaceVerifier.Runtime

/-- The copy of the instruction takes a sound branch of `bitcpy`. -/
def Instruction.Exact (ins : Instruction) : Prop := ExactWhen ins.n 0 ins.src 0 ins.dst

instance (ins : Instruction) : Decidable ins.Exact :=
  inferInstanceAs (Decidable (ExactWhen _ _ _ _ _))

/-! ## Rounds without conflicts -/

/-- A bit that no instruction writes keeps its value. -/
theorem runRound_of_notMem {instrs : List Instruction} (m : ℕ → Bool) {p : ℕ}
    (hp : ∀ ins ∈ instrs, p ∉ Set.Ico ins.dst (ins.dst + ins.n)) :
    runRound instrs m p = m p := by
  rw [runRound_eq_copySeq]
  refine copySeq_of_notMem m fun mv hmv => ?_
  obtain ⟨ins, hins, rfl⟩ := List.mem_map.mp hmv
  exact hp ins hins

/-- Every order of a round without conflicts gives the simultaneous round. -/
theorem ConflictFree.runRound_perm {instrs order : List Instruction}
    (h : ConflictFree instrs) (hp : order.Perm instrs) (m : ℕ → Bool) :
    runRound order m = simultaneousRound instrs m := by
  rw [runRound_eq_copySeq]
  exact copySeq_perm h.indep (hp.map _) m

/-- The source and the destination of one instruction of the round are disjoint. -/
theorem ConflictFree.self {instrs : List Instruction} (h : ConflictFree instrs)
    {ins : Instruction} (hins : ins ∈ instrs) (hn : 0 < ins.n) :
    Disjoint ins.toMove.srcSpan ins.toMove.dstSpan := by
  have hmem : ins ∈ instrs.filter fun ins => 0 < ins.n := by simp [hins, hn]
  have hpair : ins.ranges.Pairwise Disjoint :=
    (List.pairwise_flatMap.mp h).1 ins hmem
  exact (List.pairwise_cons.mp hpair).1 _ List.mem_cons_self

/-- In a round without conflicts nothing that is read is written. -/
theorem ConflictFree.settling {instrs : List Instruction} (h : ConflictFree instrs) :
    Settling (instrs.map Instruction.toMove) := by
  intro a ha b hb
  obtain ⟨x, hx, rfl⟩ := List.mem_map.mp ha
  obtain ⟨y, hy, rfl⟩ := List.mem_map.mp hb
  by_cases hxy : x.toMove = y.toMove
  · rw [hxy]
    rcases Nat.eq_zero_or_pos y.n with hn | hn
    · simp [Move.dstSpan, Instruction.toMove, hn]
    · exact (h.self hy hn).symm
  · exact (h.indep.forall ha hb hxy).2.1

/-- Such a round settles: repeating it changes nothing. -/
theorem ConflictFree.iterate_runRound {instrs order : List Instruction}
    (h : ConflictFree instrs) (hp : order.Perm instrs) (m : ℕ → Bool) (k : ℕ) :
    (runRound instrs)^[k + 1] m = runRound order m := by
  have hround : runRound instrs = copySim (instrs.map Instruction.toMove) :=
    funext (h.runRound_perm (List.Perm.refl instrs))
  rw [h.runRound_perm hp, hround, h.settling.iterate_copySim]
  rfl

theorem mem_roundRanges {instrs : List Instruction} {r : Set ℕ} :
    r ∈ roundRanges instrs ↔ ∃ ins ∈ instrs, 0 < ins.n ∧ r ∈ ins.ranges := by
  simp [roundRanges, List.mem_flatMap, and_assoc]

/-- The ranges of a round are those of its moves. -/
theorem roundRanges_eq_moves (instrs : List Instruction) :
    roundRanges instrs = ((instrs.map Instruction.toMove).filter fun mv => 0 < mv.n).flatMap
      fun mv => [mv.srcSpan, mv.dstSpan] := by
  rw [List.filter_map, List.flatMap_map]
  rfl

/-- A part of the moves of a round without conflicts has none. -/
theorem ConflictFree.of_moves {instrs instrs' : List Instruction} (h : ConflictFree instrs)
    (hsub : (instrs'.map Instruction.toMove).Sublist (instrs.map Instruction.toMove)) :
    ConflictFree instrs' := by
  unfold ConflictFree at *
  rw [roundRanges_eq_moves] at *
  exact h.sublist ((hsub.filter _).flatMap _)

/-! ## Contracts that share a round -/

/-- The bits that the active instructions read or write. -/
def footprint (instrs : List Instruction) : Set ℕ := {p | ∃ r ∈ roundRanges instrs, p ∈ r}

theorem disjoint_footprint_iff {a b : List Instruction} :
    Disjoint (footprint a) (footprint b) ↔
      ∀ x ∈ roundRanges a, ∀ y ∈ roundRanges b, Disjoint x y := by
  constructor
  · intro h x hx y hy
    refine Set.disjoint_left.mpr fun p hpx hpy => ?_
    exact Set.disjoint_left.mp h ⟨x, hx, hpx⟩ ⟨y, hy, hpy⟩
  · intro h
    refine Set.disjoint_left.mpr ?_
    rintro p ⟨x, hx, hpx⟩ ⟨y, hy, hpy⟩
    exact Set.disjoint_left.mp (h x hx y hy) hpx hpy

theorem roundRanges_append (a b : List Instruction) :
    roundRanges (a ++ b) = roundRanges a ++ roundRanges b := by
  rw [roundRanges, List.filter_append, List.flatMap_append]
  rfl

theorem roundRanges_flatten (contracts : List (List Instruction)) :
    roundRanges contracts.flatten = (contracts.map roundRanges).flatten := by
  induction contracts with
  | nil => rfl
  | cons c cs ih => rw [List.flatten_cons, roundRanges_append, ih, List.map_cons, List.flatten_cons]

theorem conflictFree_append_iff {a b : List Instruction} :
    ConflictFree (a ++ b) ↔
      ConflictFree a ∧ ConflictFree b ∧ Disjoint (footprint a) (footprint b) := by
  unfold ConflictFree
  rw [roundRanges_append, List.pairwise_append, disjoint_footprint_iff]

theorem conflictFree_flatten_iff {contracts : List (List Instruction)} :
    ConflictFree contracts.flatten ↔ (∀ c ∈ contracts, ConflictFree c) ∧
      contracts.Pairwise fun c c' => Disjoint (footprint c) (footprint c') := by
  unfold ConflictFree
  rw [roundRanges_flatten, List.pairwise_flatten, List.forall_mem_map, List.pairwise_map]
  simp only [disjoint_footprint_iff]

/-- The destination of an active instruction belongs to the footprint. -/
theorem dst_subset_footprint {instrs : List Instruction} {ins : Instruction}
    (hins : ins ∈ instrs) : ins.toMove.dstSpan ⊆ footprint instrs := by
  intro p hp
  have hn : 0 < ins.n := by
    obtain ⟨hlo, hhi⟩ := Set.mem_Ico.mp hp
    simp only [Instruction.toMove] at hlo hhi
    omega
  refine ⟨Set.Ico ins.dst (ins.dst + ins.n), mem_roundRanges.mpr ⟨ins, hins, hn, ?_⟩, hp⟩
  simp [Instruction.ranges]

/-- **Contracts compose, and are isolated.** A round of contracts passes the
check exactly when each of them passes it alone and no bit belongs to two
footprints. Then, in whatever order the round runs, every contract finds and
leaves in its own footprint what it would find and leave alone. -/
theorem contracts_compose (contracts : List (List Instruction)) (tick : Nat) :
    (checkTick contracts.flatten tick = [] ↔
      (∀ c ∈ contracts, checkTick c tick = []) ∧
        contracts.Pairwise fun c c' => Disjoint (footprint c) (footprint c')) ∧
    (checkTick contracts.flatten tick = [] →
      ∀ order, order.Perm contracts.flatten → ∀ c ∈ contracts, ∀ m, ∀ p ∈ footprint c,
        runRound order m p = runRound c m p) := by
  simp only [checkTick_eq_nil]
  refine ⟨conflictFree_flatten_iff, fun h order hp c hc m p hpc => ?_⟩
  obtain ⟨l, r, rfl⟩ := List.append_of_mem hc
  obtain ⟨hall, hpair⟩ := conflictFree_flatten_iff.mp h
  have hmoved : (l ++ c :: r).flatten.Perm (c ++ (l ++ r).flatten) := by
    rw [List.flatten_append, List.flatten_cons, List.flatten_append, ← List.append_assoc,
      ← List.append_assoc]
    exact List.perm_append_comm.append_right _
  have hfree : ConflictFree (c :: (l ++ r)).flatten := by
    refine conflictFree_flatten_iff.mpr ⟨fun c' hc' => ?_, ?_⟩
    · exact hall c' (List.perm_middle.mem_iff.mpr hc')
    · exact hpair.perm List.perm_middle fun hd => hd.symm
  rw [List.flatten_cons] at hfree
  obtain ⟨-, -, hapart⟩ := conflictFree_append_iff.mp hfree
  have hothers : ∀ mv ∈ (l ++ r).flatten.map Instruction.toMove, p ∉ mv.dstSpan := by
    intro mv hmv hin
    obtain ⟨ins, hins, rfl⟩ := List.mem_map.mp hmv
    exact Set.disjoint_left.mp hapart hpc (dst_subset_footprint hins hin)
  calc runRound order m p
      = simultaneousRound (c ++ (l ++ r).flatten) m p := by
        rw [hfree.runRound_perm (hp.trans hmoved)]
    _ = copySim (c.map Instruction.toMove) m p := by
        rw [simultaneousRound, List.map_append, copySim_append_of_notMem m hothers]
    _ = runRound c m p := by
        rw [(hall c hc).runRound_perm (List.Perm.refl c)]
        rfl

end SpaceVerifier.Verifier
