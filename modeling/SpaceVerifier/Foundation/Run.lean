import Mathlib.Logic.Function.Iterate

/-!
# Runs that stop at the first result that is not the good one

A machine is a function from states to a result and a next state. `runWhile`
repeats it a bounded number of times, `starts` lists the states in which the
steps of that run begin. The rules carry an invariant, a log and a simulation
from one step to the whole run; `blocksAt` cuts a log at its marks.
-/

namespace Foundation

/-! ## Runs -/

section Run

variable {σ ρ : Type*} [DecidableEq ρ]

/-- At most `n` steps, ended by the first result other than `go`. -/
def runWhile (step : σ → ρ × σ) (go : ρ) : Nat → σ → ρ × σ
  | 0, s => (go, s)
  | n + 1, s => if (step s).1 = go then runWhile step go n (step s).2 else step s

/-- The states in which the steps of `runWhile` begin, in order. -/
def starts (step : σ → ρ × σ) (go : ρ) : Nat → σ → List σ
  | 0, _ => []
  | n + 1, s => s :: if (step s).1 = go then starts step go n (step s).2 else []

variable {step : σ → ρ × σ} {go : ρ}

theorem runWhile_succ (n : Nat) (s : σ) :
    runWhile step go (n + 1) s =
      if (step s).1 = go then runWhile step go n (step s).2 else step s := rfl

theorem starts_succ (n : Nat) (s : σ) :
    starts step go (n + 1) s =
      s :: if (step s).1 = go then starts step go n (step s).2 else [] := rfl

/-- A run is cut anywhere: what is left of it starts where the first part ends,
unless that has stopped. -/
theorem runWhile_add (n k : Nat) (s : σ) :
    runWhile step go (n + k) s =
      if (runWhile step go n s).1 = go then runWhile step go k (runWhile step go n s).2
      else runWhile step go n s := by
  induction n generalizing s with
  | zero => rw [Nat.zero_add, runWhile, if_pos rfl]
  | succ n ih =>
      rw [Nat.succ_add, runWhile_succ, runWhile_succ]
      split
      · exact ih _
      · rfl

/-- **Invariant rule.** Every step of the run begins in a state of the invariant. -/
theorem starts_inv {I : σ → Prop} (hstep : ∀ s, I s → I (step s).2) {s : σ} (h : I s)
    (n : Nat) : ∀ t ∈ starts step go n s, I t := by
  induction n generalizing s with
  | zero => exact fun t ht => absurd ht List.not_mem_nil
  | succ n ih =>
      intro t ht
      rw [starts_succ, List.mem_cons] at ht
      obtain rfl | ht := ht
      · exact h
      · split at ht
        · exact ih (hstep s h) t ht
        · exact absurd ht List.not_mem_nil

/-- **Log rule.** A log that every step extends by `out` is extended by the run
with what its steps append, in order. -/
theorem runWhile_log {α : Type*} {I : σ → Prop} (hstep : ∀ s, I s → I (step s).2)
    {log : σ → List α} {out : σ → List α} (hlog : ∀ s, I s → log (step s).2 = log s ++ out s)
    {s : σ} (h : I s) (n : Nat) :
    log (runWhile step go n s).2 = log s ++ (starts step go n s).flatMap out := by
  induction n generalizing s with
  | zero => simp [runWhile, starts]
  | succ n ih =>
      rw [runWhile_succ, starts_succ, List.flatMap_cons, ← List.append_assoc, ← hlog s h]
      split
      · exact ih (hstep s h)
      · rw [List.flatMap_nil, List.append_nil]

/-- A run none of whose steps stops it is an iteration. -/
theorem runWhile_iterate {I : σ → Prop} (hstep : ∀ s, I s → (step s).1 = go ∧ I (step s).2)
    {s : σ} (h : I s) (n : Nat) :
    runWhile step go n s = (go, (fun s => (step s).2)^[n] s) := by
  induction n generalizing s with
  | zero => rfl
  | succ n ih =>
      rw [runWhile_succ, if_pos (hstep s h).1, ih (hstep s h).2, Function.iterate_succ_apply]

/-- **Simulation rule.** Two machines that agree, step by step of the first run, on
the result and keep a relation agree on the result of the run and keep the
relation over it. -/
theorem runWhile_simulates {σ' : Type*} {step' : σ' → ρ × σ'} {R : σ → σ' → Prop}
    {s : σ} {s' : σ'} (h : R s s') (n : Nat)
    (hstep : ∀ t ∈ starts step go n s, ∀ t', R t t' →
      (step t).1 = (step' t').1 ∧ R (step t).2 (step' t').2) :
    (runWhile step go n s).1 = (runWhile step' go n s').1 ∧
      R (runWhile step go n s).2 (runWhile step' go n s').2 := by
  induction n generalizing s s' with
  | zero => exact ⟨rfl, h⟩
  | succ n ih =>
      rw [starts_succ] at hstep
      obtain ⟨hres, hrel⟩ := hstep s List.mem_cons_self s' h
      rw [runWhile_succ, runWhile_succ, ← hres]
      by_cases hgo : (step s).1 = go
      · rw [if_pos hgo, if_pos hgo]
        refine ih hrel fun t ht => hstep t (List.mem_cons_of_mem s ?_)
        rw [if_pos hgo]
        exact ht
      · rw [if_neg hgo, if_neg hgo]
        exact ⟨hres, hrel⟩

end Run

/-! ## Logs cut at marks -/

section Blocks

variable {α : Type*} (mark : α → Bool)

/-- The blocks of a log: every mark opens one, which ends before the next mark. -/
def blocksAt : List α → List (List α)
  | [] => []
  | a :: l => if mark a then l.takeWhile (!mark ·) :: blocksAt l else blocksAt l

variable {mark}

theorem blocksAt_append_of_unmarked {l : List α} (h : ∀ a ∈ l, mark a = false) (l' : List α) :
    blocksAt mark (l ++ l') = blocksAt mark l' := by
  induction l with
  | nil => rfl
  | cons a l ih =>
      have ha : ¬ mark a = true := by
        rw [h a List.mem_cons_self]
        exact Bool.false_ne_true
      rw [List.cons_append, blocksAt, if_neg ha]
      exact ih fun b hb => h b (List.mem_cons_of_mem a hb)

theorem takeWhile_unmarked {l : List α} (h : ∀ a ∈ l, mark a = false) {l' : List α}
    (hl' : ∀ a ∈ l'.head?, mark a = true) : (l ++ l').takeWhile (!mark ·) = l := by
  rw [List.takeWhile_append_of_pos fun a ha => by simp [h a ha]]
  cases l' with
  | nil => simp
  | cons a l' => simp [hl' a rfl]

/-- **A log written block by block is cut into these blocks.** -/
theorem blocksAt_flatMap {bs : List (α × List α)}
    (hbs : ∀ b ∈ bs, mark b.1 = true ∧ ∀ a ∈ b.2, mark a = false) :
    blocksAt mark (bs.flatMap fun b => b.1 :: b.2) = bs.map Prod.snd := by
  induction bs with
  | nil => rfl
  | cons b bs ih =>
      obtain ⟨hopen, hin⟩ := hbs b List.mem_cons_self
      have hrest : ∀ b' ∈ bs, mark b'.1 = true ∧ ∀ a ∈ b'.2, mark a = false :=
        fun b' hb' => hbs b' (List.mem_cons_of_mem b hb')
      have hnext : ∀ a ∈ (bs.flatMap fun b => b.1 :: b.2).head?, mark a = true := by
        cases bs with
        | nil => simp
        | cons b' bs => simpa using (hrest b' List.mem_cons_self).1
      rw [List.flatMap_cons, List.cons_append, blocksAt, if_pos hopen,
        takeWhile_unmarked hin hnext, blocksAt_append_of_unmarked hin, ih hrest, List.map_cons]

end Blocks

end Foundation
