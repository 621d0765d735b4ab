import Mathlib.Tactic.Common

/-!
# Traced computations and bounded loops

A `Traced τ α` is a value of type `α` together with the events of type `τ`
that were met on the way to it, in order. Values never depend on the trace,
so a development can reason about `val` alone and come back to the trace for
the safety results: the same program text serves both.

The loop combinators follow the three shapes of counting and conditional
loops, and each comes with its invariant rule on values and on traces.
-/

namespace Foundation

structure Traced (τ : Type) (α : Type) where
  val : α
  trace : List τ

namespace Traced

variable {τ α β σ : Type}

instance : Monad (Traced τ) where
  pure a := ⟨a, []⟩
  bind x f := ⟨(f x.val).val, x.trace ++ (f x.val).trace⟩

/-- A computation that only records the event `e`. -/
def emit (e : τ) : Traced τ Unit := ⟨(), [e]⟩

@[simp] theorem val_pure (a : α) : (pure a : Traced τ α).val = a := rfl

@[simp] theorem val_bind (x : Traced τ α) (f : α → Traced τ β) :
    (x >>= f).val = (f x.val).val := rfl

@[simp] theorem val_ite (c : Prop) [Decidable c] (x y : Traced τ α) :
    (if c then x else y).val = if c then x.val else y.val := by
  split <;> rfl

/-- The events of a sequence are those of its two parts. -/
theorem mem_trace_bind {x : Traced τ α} {f : α → Traced τ β} {e : τ} :
    e ∈ (x >>= f).trace ↔ e ∈ x.trace ∨ e ∈ (f x.val).trace :=
  List.mem_append

theorem trace_bind (x : Traced τ α) (f : α → Traced τ β) :
    (x >>= f).trace = x.trace ++ (f x.val).trace := rfl

@[simp] theorem trace_pure (a : α) : (pure a : Traced τ α).trace = [] := rfl

/-! ## Trace predicates -/

/-- Every recorded event satisfies `P`. -/
def All (P : τ → Prop) (x : Traced τ α) : Prop := ∀ e ∈ x.trace, P e

variable {P : τ → Prop}

@[simp] theorem all_pure (a : α) : (pure a : Traced τ α).All P :=
  fun _ he => absurd he List.not_mem_nil

@[simp] theorem all_emit (e : τ) : (emit e).All P ↔ P e := by
  simp [All, emit]

theorem all_bind (x : Traced τ α) (f : α → Traced τ β) :
    (x >>= f).All P ↔ x.All P ∧ (f x.val).All P := by
  show (∀ e ∈ x.trace ++ (f x.val).trace, P e) ↔ _
  simp only [List.mem_append, All]
  constructor
  · intro h
    exact ⟨fun e he => h e (Or.inl he), fun e he => h e (Or.inr he)⟩
  · rintro ⟨hx, hf⟩ e (he | he)
    · exact hx e he
    · exact hf e he

theorem All.bind {x : Traced τ α} {f : α → Traced τ β}
    (hx : x.All P) (hf : (f x.val).All P) : (x >>= f).All P :=
  (all_bind x f).mpr ⟨hx, hf⟩

theorem All.mono {Q : τ → Prop} {x : Traced τ α} (h : x.All P)
    (hPQ : ∀ e, P e → Q e) : x.All Q :=
  fun e he => hPQ e (h e he)

/-- The result satisfies `Q` and every recorded event satisfies `P`. -/
structure Yields (P : τ → Prop) (Q : α → Prop) (x : Traced τ α) : Prop where
  result : Q x.val
  events : x.All P

theorem yields_pure {Q : α → Prop} {a : α} (h : Q a) : (pure a : Traced τ α).Yields P Q :=
  ⟨h, all_pure a⟩

theorem yields_emit {e : τ} (h : P e) : (emit e).Yields P fun _ => True :=
  ⟨trivial, (all_emit e).mpr h⟩

/-- The rule of sequencing: what the first part yields, the second may assume. -/
theorem Yields.bind {Q : α → Prop} {R : β → Prop} {x : Traced τ α} {f : α → Traced τ β}
    (hx : x.Yields P Q) (hf : ∀ a, Q a → (f a).Yields P R) : (x >>= f).Yields P R := by
  have hrest := hf x.val hx.result
  exact ⟨hrest.result, hx.events.bind hrest.events⟩

theorem Yields.mono {Q R : α → Prop} {x : Traced τ α} (h : x.Yields P Q)
    (hQR : ∀ a, Q a → R a) : x.Yields P R :=
  ⟨hQR _ h.result, h.events⟩

end Traced

open Traced

variable {τ σ : Type}

/-! ## Counting loops -/

/-- `for (i = 0; i < n; i++) body(i)`. -/
def forUp (body : Nat → σ → Traced τ σ) : Nat → σ → Traced τ σ
  | 0, s => pure s
  | n + 1, s => do
      let s ← forUp body n s
      body n s

/-- `for (i = n; i-- > 0;) body(i)`. -/
def forDown (body : Nat → σ → Traced τ σ) : Nat → σ → Traced τ σ
  | 0, s => pure s
  | n + 1, s => do
      let s ← body n s
      forDown body n s

/-- Invariant rule for an ascending loop: `I i` holds before iteration `i`. -/
theorem forUp_inv {body : Nat → σ → Traced τ σ} (I : Nat → σ → Prop)
    {n : Nat} {s : σ} (h₀ : I 0 s)
    (hstep : ∀ i < n, ∀ s, I i s → I (i + 1) (body i s).val) :
    I n (forUp body n s).val := by
  induction n with
  | zero => exact h₀
  | succ n ih =>
      have hprev := ih (fun i hi => hstep i (Nat.lt_succ_of_lt hi))
      exact hstep n (Nat.lt_succ_self n) _ hprev

/-- Invariant rule for a descending loop: `I (i + 1)` holds before the
iteration that handles `i`. -/
theorem forDown_inv {body : Nat → σ → Traced τ σ} (I : Nat → σ → Prop)
    {n : Nat} {s : σ} (h₀ : I n s)
    (hstep : ∀ i < n, ∀ s, I (i + 1) s → I i (body i s).val) :
    I 0 (forDown body n s).val := by
  induction n generalizing s with
  | zero => exact h₀
  | succ n ih =>
      exact ih (hstep n (Nat.lt_succ_self n) s h₀)
        (fun i hi => hstep i (Nat.lt_succ_of_lt hi))

theorem forUp_all {body : Nat → σ → Traced τ σ} {P : τ → Prop} {n : Nat}
    {s : σ} (h : ∀ i < n, ∀ s, (body i s).All P) : (forUp body n s).All P := by
  induction n with
  | zero => exact all_pure s
  | succ n ih =>
      exact (ih fun i hi => h i (Nat.lt_succ_of_lt hi)).bind
        (h n (Nat.lt_succ_self n) _)

theorem forDown_all {body : Nat → σ → Traced τ σ} {P : τ → Prop} {n : Nat}
    {s : σ} (h : ∀ i < n, ∀ s, (body i s).All P) : (forDown body n s).All P := by
  induction n generalizing s with
  | zero => exact all_pure s
  | succ n ih =>
      exact (h n (Nat.lt_succ_self n) s).bind
        (ih fun i hi => h i (Nat.lt_succ_of_lt hi))

theorem forUp_yields {body : Nat → σ → Traced τ σ} {P : τ → Prop} {I : σ → Prop}
    {n : Nat} {s : σ} (h₀ : I s) (hstep : ∀ i < n, ∀ s, I s → (body i s).Yields P I) :
    (forUp body n s).Yields P I := by
  induction n with
  | zero => exact yields_pure h₀
  | succ n ih =>
      have hprev := ih fun i hi => hstep i (Nat.lt_succ_of_lt hi)
      exact hprev.bind (hstep n (Nat.lt_succ_self n))

/-! ## Conditional loops -/

/-- `while (cond(s)) s = body(s)`, cut off after `fuel` iterations. -/
def whileLoop (cond : σ → Bool) (body : σ → Traced τ σ) : Nat → σ → Traced τ σ
  | 0, s => pure s
  | fuel + 1, s =>
      if cond s then do
        let s ← body s
        whileLoop cond body fuel s
      else pure s

/-- An invariant of the body holds after the loop, ended or cut off. -/
theorem whileLoop_preserves {cond : σ → Bool} {body : σ → Traced τ σ}
    (I : σ → Prop) {fuel : Nat} {s : σ} (h₀ : I s)
    (hstep : ∀ s, I s → cond s = true → I (body s).val) :
    I (whileLoop cond body fuel s).val := by
  induction fuel generalizing s with
  | zero => exact h₀
  | succ fuel ih =>
      rw [whileLoop]
      split
      · next hc => exact ih (hstep s h₀ hc)
      · exact h₀

/-- Invariant rule for a conditional loop. A measure that decreases on every
iteration and is covered by the fuel also shows that the loop has really
ended: the condition is false on exit. -/
theorem whileLoop_inv (cond : σ → Bool) (body : σ → Traced τ σ) (I : σ → Prop)
    (μ : σ → Nat) {fuel : Nat} {s : σ} (hfuel : μ s ≤ fuel) (h₀ : I s)
    (hstep : ∀ s, I s → cond s = true →
      I (body s).val ∧ μ (body s).val < μ s) :
    I (whileLoop cond body fuel s).val ∧
      cond (whileLoop cond body fuel s).val = false := by
  induction fuel generalizing s with
  | zero =>
      refine ⟨h₀, ?_⟩
      cases hc : cond s with
      | false => exact hc
      | true =>
          have := (hstep s h₀ hc).2
          omega
  | succ fuel ih =>
      cases hc : cond s with
      | false =>
          rw [show whileLoop cond body (fuel + 1) s = pure s by
            simp [whileLoop, hc]]
          exact ⟨h₀, hc⟩
      | true =>
          obtain ⟨hI, hμ⟩ := hstep s h₀ hc
          rw [show (whileLoop cond body (fuel + 1) s).val =
              (whileLoop cond body fuel (body s).val).val by
            simp [whileLoop, hc]]
          exact ih (by omega) hI

/-- The first iteration split off. -/
theorem whileLoop_of_cond {cond : σ → Bool} {body : σ → Traced τ σ}
    {fuel : Nat} {s : σ} (hfuel : 0 < fuel) (h : cond s = true) :
    (whileLoop cond body fuel s).val =
      (whileLoop cond body (fuel - 1) (body s).val).val := by
  cases fuel with
  | zero => omega
  | succ fuel => simp [whileLoop, h]

/-- A loop whose condition is false at once does nothing. -/
theorem whileLoop_of_not {cond : σ → Bool} {body : σ → Traced τ σ}
    {fuel : Nat} {s : σ} (h : cond s = false) :
    whileLoop cond body fuel s = pure s := by
  cases fuel with
  | zero => rfl
  | succ fuel => simp [whileLoop, h]

end Foundation
