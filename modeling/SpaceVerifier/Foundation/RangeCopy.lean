import Mathlib

/-!
# Copies of ranges of cells

A memory is a function from addresses to cells of any type. `copyRange` is one
copy, `copySeq` a sequence of copies, `copySim` the round in which all copies
read the old memory and write at once. Moves that do not interfere may be run
in any order, and every order gives the simultaneous round.
-/

namespace Foundation

variable {β : Type*}

/-- One copy of `n` cells from `src` to `dst`. -/
structure Move where
  n : ℕ
  dst : ℕ
  src : ℕ
deriving DecidableEq, Repr

namespace Move

def dstSpan (mv : Move) : Set ℕ := Set.Ico mv.dst (mv.dst + mv.n)

def srcSpan (mv : Move) : Set ℕ := Set.Ico mv.src (mv.src + mv.n)

/-- Address `p` is written by the move. -/
def covers (mv : Move) (p : ℕ) : Bool :=
  decide (mv.dst ≤ p ∧ p < mv.dst + mv.n)

theorem covers_iff {mv : Move} {p : ℕ} : mv.covers p = true ↔ p ∈ mv.dstSpan := by
  simp [covers, dstSpan, Set.mem_Ico]

/-- No move writes what the other reads or writes. -/
def Indep (a b : Move) : Prop :=
  Disjoint a.dstSpan b.dstSpan ∧ Disjoint a.dstSpan b.srcSpan ∧
    Disjoint a.srcSpan b.dstSpan

theorem Indep.symm {a b : Move} (h : a.Indep b) : b.Indep a :=
  ⟨h.1.symm, h.2.2.symm, h.2.1.symm⟩

instance : Std.Symm Indep := ⟨fun _ _ => Indep.symm⟩

end Move

/-- Each cell `dst + i` takes the old value of cell `src + i`. -/
def copyRange (mv : Move) (m : ℕ → β) : ℕ → β :=
  fun p => if mv.covers p then m (mv.src + (p - mv.dst)) else m p

def copySeq (mvs : List Move) (m : ℕ → β) : ℕ → β :=
  mvs.foldl (fun m mv => copyRange mv m) m

/-- All moves at once, reading the memory at the start of the round. -/
def copySim (mvs : List Move) (m : ℕ → β) : ℕ → β :=
  fun p =>
    match mvs.find? (·.covers p) with
    | some mv => m (mv.src + (p - mv.dst))
    | none => m p

theorem copyRange_dst (mv : Move) (m : ℕ → β) {i : ℕ} (hi : i < mv.n) :
    copyRange mv m (mv.dst + i) = m (mv.src + i) := by
  have hc : mv.covers (mv.dst + i) = true := by simp [Move.covers, hi]
  simp [copyRange, hc]

theorem copyRange_of_notMem {mv : Move} {p : ℕ} (m : ℕ → β)
    (hp : p ∉ mv.dstSpan) : copyRange mv m p = m p := by
  have hc : mv.covers p = false := by
    rw [← Bool.not_eq_true, Move.covers_iff]
    exact hp
  simp [copyRange, hc]

/-! ## Copies cut into pieces -/

/-- A copy of nothing. -/
@[simp] theorem copyRange_zero (d s : ℕ) (m : ℕ → β) :
    copyRange ⟨0, d, s⟩ m = m := by
  funext p
  exact copyRange_of_notMem m (by simp [Move.dstSpan])

/-- A copy onto itself. -/
theorem copyRange_self (n d : ℕ) (m : ℕ → β) : copyRange ⟨n, d, d⟩ m = m := by
  funext p
  simp only [copyRange, Move.covers, decide_eq_true_eq]
  split
  · congr 1
    omega
  · rfl

/-- A copy continued upwards, when the second part reads nothing the first has
overwritten. -/
theorem copyRange_append {n k d s : ℕ} (h : s + n + k ≤ d ∨ d ≤ s) (m : ℕ → β) :
    copyRange ⟨k, d + n, s + n⟩ (copyRange ⟨n, d, s⟩ m) =
      copyRange ⟨n + k, d, s⟩ m := by
  funext p
  simp only [copyRange, Move.covers, decide_eq_true_eq]
  by_cases hp : d + n ≤ p ∧ p < d + n + k
  · rw [if_pos hp, if_neg (by omega), if_pos (by omega)]
    congr 1
    omega
  · rw [if_neg hp]
    by_cases hp' : d ≤ p ∧ p < d + n
    · rw [if_pos hp', if_pos (by omega)]
    · rw [if_neg hp', if_neg (by omega)]

/-- A copy continued downwards. -/
theorem copyRange_prepend {n k d s : ℕ} (h : s ≤ d ∨ d + n + k ≤ s) (m : ℕ → β) :
    copyRange ⟨k, d, s⟩ (copyRange ⟨n, d + k, s + k⟩ m) =
      copyRange ⟨n + k, d, s⟩ m := by
  funext p
  simp only [copyRange, Move.covers, decide_eq_true_eq]
  by_cases hp : d ≤ p ∧ p < d + k
  · rw [if_pos hp, if_neg (by omega), if_pos (by omega)]
  · rw [if_neg hp]
    by_cases hp' : d + k ≤ p ∧ p < d + k + n
    · rw [if_pos hp', if_pos (by omega)]
      congr 1
      omega
    · rw [if_neg hp', if_neg (by omega)]

/-! ## Rounds of moves -/

/-- The source cell of a covered address lies in the source range. -/
theorem Move.source_mem {mv : Move} {p : ℕ} (hp : p ∈ mv.dstSpan) :
    mv.src + (p - mv.dst) ∈ mv.srcSpan := by
  simp only [Move.dstSpan, Move.srcSpan, Set.mem_Ico] at *
  omega

/-- The simultaneous round, one move split off: the others read and write
around it. -/
theorem copySim_cons {mv : Move} {mvs : List Move}
    (h : ∀ other ∈ mvs, mv.Indep other) (m : ℕ → β) :
    copySim mvs (copyRange mv m) = copySim (mv :: mvs) m := by
  funext p
  by_cases hp : p ∈ mv.dstSpan
  · have hfind : mvs.find? (·.covers p) = none := by
      rw [List.find?_eq_none]
      intro other ho hc
      exact Set.disjoint_left.mp (h other ho).1 hp (Move.covers_iff.mp hc)
    have hc : mv.covers p = true := Move.covers_iff.mpr hp
    simp [copySim, hfind, hc, copyRange]
  · have hc : mv.covers p = false := by
      rw [← Bool.not_eq_true, Move.covers_iff]
      exact hp
    cases hfind : mvs.find? (·.covers p) with
    | none => simp [copySim, hfind, hc, copyRange]
    | some other =>
        have ho : other ∈ mvs := List.mem_of_find?_eq_some hfind
        have hcov := List.find?_some hfind
        have hsrc := Move.source_mem (Move.covers_iff.mp hcov)
        have hout : other.src + (p - other.dst) ∉ mv.dstSpan :=
          fun hin => Set.disjoint_left.mp (h other ho).2.1 hin hsrc
        simp [copySim, hfind, hc, copyRange_of_notMem m hout]

/-- **Non-interfering moves run as one simultaneous round.** -/
theorem copySeq_eq_copySim {mvs : List Move} (h : mvs.Pairwise Move.Indep)
    (m : ℕ → β) : copySeq mvs m = copySim mvs m := by
  induction mvs generalizing m with
  | nil => rfl
  | cons mv mvs ih =>
      obtain ⟨hmv, hrest⟩ := List.pairwise_cons.mp h
      show copySeq mvs (copyRange mv m) = _
      rw [ih hrest, copySim_cons hmv]

/-- A destination cell of a simultaneous round holds the old source cell. -/
theorem copySim_dst {mvs : List Move} (h : mvs.Pairwise Move.Indep)
    (m : ℕ → β) {mv : Move} (hmv : mv ∈ mvs) {i : ℕ} (hi : i < mv.n) :
    copySim mvs m (mv.dst + i) = m (mv.src + i) := by
  have hp : mv.dst + i ∈ mv.dstSpan := by
    simp [Move.dstSpan, hi]
  cases hfind : mvs.find? (·.covers (mv.dst + i)) with
  | none =>
      have := List.find?_eq_none.mp hfind mv hmv
      exact absurd (Move.covers_iff.mpr hp) this
  | some other =>
      have ho : other ∈ mvs := List.mem_of_find?_eq_some hfind
      have hfound := List.find?_some hfind
      have hcov := Move.covers_iff.mp hfound
      have heq : other = mv := by
        by_contra hne
        have hind : other.Indep mv :=
          h.forall ho hmv hne
        exact Set.disjoint_left.mp hind.1 hcov hp
      subst heq
      simp [copySim, hfind]

/-- A cell outside every destination keeps its value. -/
theorem copySim_of_notMem {mvs : List Move} (m : ℕ → β) {p : ℕ}
    (hp : ∀ mv ∈ mvs, p ∉ mv.dstSpan) : copySim mvs m p = m p := by
  have hfind : mvs.find? (·.covers p) = none := by
    rw [List.find?_eq_none]
    intro mv hmv hc
    exact hp mv hmv (Move.covers_iff.mp hc)
  simp [copySim, hfind]

/-- The simultaneous round does not depend on how its moves are listed. -/
theorem copySim_perm {mvs mvs' : List Move} (h : mvs.Pairwise Move.Indep)
    (hp : mvs'.Perm mvs) (m : ℕ → β) : copySim mvs' m = copySim mvs m := by
  have h' : mvs'.Pairwise Move.Indep := h.perm hp.symm fun hab => hab.symm
  funext p
  by_cases hex : ∃ mv ∈ mvs, p ∈ mv.dstSpan
  · obtain ⟨mv, hmv, hin⟩ := hex
    obtain ⟨hlo, hhi⟩ := Set.mem_Ico.mp hin
    have hi : p - mv.dst < mv.n := by omega
    have hpos : mv.dst + (p - mv.dst) = p := by omega
    have h₁ := copySim_dst h' m (hp.mem_iff.mpr hmv) hi
    have h₂ := copySim_dst h m hmv hi
    rw [hpos] at h₁ h₂
    rw [h₁, h₂]
  · have hout : ∀ mv ∈ mvs, p ∉ mv.dstSpan := fun mv hmv hin => hex ⟨mv, hmv, hin⟩
    rw [copySim_of_notMem m hout,
      copySim_of_notMem m fun mv hmv => hout mv (hp.mem_iff.mp hmv)]

/-- **Order independence.** Every order of non-interfering moves gives the
simultaneous round. -/
theorem copySeq_perm {mvs mvs' : List Move} (h : mvs.Pairwise Move.Indep)
    (hp : mvs'.Perm mvs) (m : ℕ → β) : copySeq mvs' m = copySim mvs m :=
  (copySeq_eq_copySim (h.perm hp.symm fun hab => hab.symm) m).trans
    (copySim_perm h hp m)

/-! ## Rounds that are repeated, extended and read from -/

@[simp] theorem copySeq_nil (m : ℕ → β) : copySeq [] m = m := rfl

theorem copySeq_append (mvs mvs' : List Move) (m : ℕ → β) :
    copySeq (mvs ++ mvs') m = copySeq mvs' (copySeq mvs m) :=
  List.foldl_append

theorem copySeq_cons (mv : Move) (mvs : List Move) (m : ℕ → β) :
    copySeq (mv :: mvs) m = copySeq mvs (copyRange mv m) := rfl

/-- Empty moves may be left out. -/
theorem copySeq_filter_nonempty (mvs : List Move) (m : ℕ → β) :
    copySeq (mvs.filter fun mv => mv.n ≠ 0) m = copySeq mvs m := by
  induction mvs generalizing m with
  | nil => rfl
  | cons mv mvs ih =>
      obtain ⟨n, d, s⟩ := mv
      rw [List.filter_cons, copySeq_cons]
      by_cases hn : n = 0
      · subst hn
        rw [if_neg (by simp), copyRange_zero]
        exact ih m
      · rw [if_pos (by simpa using hn), copySeq_cons]
        exact ih _

/-- A cell outside every destination keeps its value, in any order. -/
theorem copySeq_of_notMem {mvs : List Move} (m : ℕ → β) {p : ℕ}
    (hp : ∀ mv ∈ mvs, p ∉ mv.dstSpan) : copySeq mvs m p = m p := by
  induction mvs generalizing m with
  | nil => rfl
  | cons mv mvs ih =>
      rw [copySeq_cons, ih _ fun mv' h => hp mv' (List.mem_cons_of_mem _ h)]
      exact copyRange_of_notMem m (hp mv List.mem_cons_self)

/-- Memories that agree on what a move reads agree on what it writes. -/
theorem copyRange_eqOn {A : Set ℕ} {m m' : ℕ → β} (h : Set.EqOn m m' A) {mv : Move}
    (hsrc : mv.srcSpan ⊆ A) : Set.EqOn (copyRange mv m) (copyRange mv m') A := by
  intro p hp
  by_cases hin : p ∈ mv.dstSpan
  · have hc : mv.covers p = true := Move.covers_iff.mpr hin
    rw [copyRange, copyRange, if_pos hc, if_pos hc]
    exact h (hsrc (Move.source_mem hin))
  · rw [copyRange_of_notMem m hin, copyRange_of_notMem m' hin]
    exact h hp

/-- The moves that read inside a region run as if they were alone, when the
others do not write into it. -/
theorem copySeq_filter_eqOn {ι : Type*} {f : ι → Move} {own : ι → Bool} {A : Set ℕ}
    {items : List ι} (hown : ∀ i ∈ items, own i = true → (f i).srcSpan ⊆ A)
    (hother : ∀ i ∈ items, own i = false → Disjoint (f i).dstSpan A) {m m' : ℕ → β}
    (h : Set.EqOn m m' A) :
    Set.EqOn (copySeq (items.map f) m) (copySeq ((items.filter own).map f) m') A := by
  induction items generalizing m m' with
  | nil => exact h
  | cons i items ih =>
      obtain ⟨hread, hown⟩ := List.forall_mem_cons.mp hown
      obtain ⟨hwrite, hother⟩ := List.forall_mem_cons.mp hother
      rw [List.map_cons, copySeq_cons]
      cases hi : own i with
      | true =>
          rw [List.filter_cons_of_pos hi, List.map_cons, copySeq_cons]
          exact ih hown hother (copyRange_eqOn h (hread hi))
      | false =>
          rw [List.filter_cons_of_neg (by simp [hi])]
          refine ih hown hother fun p hp => ?_
          rw [copyRange_of_notMem m fun hin => Set.disjoint_left.mp (hwrite hi) hin hp]
          exact h hp

/-- No move of the family writes what a move of the family reads. -/
def Settling (mvs : List Move) : Prop :=
  ∀ a ∈ mvs, ∀ b ∈ mvs, Disjoint a.dstSpan b.srcSpan

/-- **A settling round is idempotent**: the sources are as they were, so the
second round writes what the first one wrote. -/
theorem Settling.copySim_idem {mvs : List Move} (h : Settling mvs) (m : ℕ → β) :
    copySim mvs (copySim mvs m) = copySim mvs m := by
  funext p
  cases hfind : mvs.find? (·.covers p) with
  | none => simp [copySim, hfind]
  | some mv =>
      have hmv : mv ∈ mvs := List.mem_of_find?_eq_some hfind
      have hfound := List.find?_some hfind
      have hsrc : mv.src + (p - mv.dst) ∈ mv.srcSpan :=
        Move.source_mem (Move.covers_iff.mp hfound)
      have hkept : copySim mvs m (mv.src + (p - mv.dst)) = m (mv.src + (p - mv.dst)) :=
        copySim_of_notMem m fun a ha hin =>
          Set.disjoint_left.mp (h a ha mv hmv) hin hsrc
      have hround : ∀ m' : ℕ → β, copySim mvs m' p = m' (mv.src + (p - mv.dst)) := by
        intro m'
        rw [copySim, hfind]
      rw [hround (copySim mvs m), hkept, hround m]

theorem Settling.iterate_copySim {mvs : List Move} (h : Settling mvs) (m : ℕ → β) (k : ℕ) :
    (copySim mvs)^[k + 1] m = copySim mvs m := by
  induction k with
  | zero => rfl
  | succ k ih => rw [Function.iterate_succ_apply', ih, h.copySim_idem]

/-- A cell outside the destinations of one part of a round holds what the other
part leaves in it. -/
theorem copySim_append_of_notMem {mvs mvs' : List Move} (m : ℕ → β) {p : ℕ}
    (hp : ∀ mv ∈ mvs', p ∉ mv.dstSpan) : copySim (mvs ++ mvs') m p = copySim mvs m p := by
  have hrest : mvs'.find? (·.covers p) = none := by
    rw [List.find?_eq_none]
    intro mv hmv hc
    exact hp mv hmv (Move.covers_iff.mp hc)
  cases hfind : mvs.find? (·.covers p) <;> simp [copySim, List.find?_append, hfind, hrest]

end Foundation
