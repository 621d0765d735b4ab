import SpaceVerifier.Foundation.RangeCopy

/-!
# Copies as maps of addresses

A sequence of copies computes nothing: it composes the memory with a map of
addresses, its route. So a round that is repeated is a route that is iterated,
and two rounds do the same exactly when their routes do. The last part compares
two rounds where part of the memory is pinned to different contents, as it is
when each round is stored in the memory it works on.
-/

namespace Foundation

variable {β : Type*}

/-- The address whose cell ends up in cell `p`. -/
def Move.route (mv : Move) (p : ℕ) : ℕ :=
  if mv.covers p then mv.src + (p - mv.dst) else p

/-- The route of a sequence: the last copy is asked first. -/
def routeSeq : List Move → ℕ → ℕ
  | [] => id
  | mv :: mvs => mv.route ∘ routeSeq mvs

theorem copyRange_eq_comp (mv : Move) (m : ℕ → β) : copyRange mv m = m ∘ mv.route := by
  funext p
  rw [copyRange, Function.comp_apply, Move.route]
  split <;> rfl

/-- **A sequence of copies is a route.** -/
theorem copySeq_eq_comp (mvs : List Move) (m : ℕ → β) : copySeq mvs m = m ∘ routeSeq mvs := by
  induction mvs generalizing m with
  | nil => rfl
  | cons mv mvs ih => rw [copySeq_cons, ih, copyRange_eq_comp, routeSeq, Function.comp_assoc]

theorem iterate_comp (f : ℕ → ℕ) (m : ℕ → β) (n : ℕ) :
    (fun m : ℕ → β => m ∘ f)^[n] m = m ∘ f^[n] := by
  induction n generalizing m with
  | zero => rfl
  | succ n ih => rw [Function.iterate_succ_apply, ih, Function.iterate_succ', Function.comp_assoc]

/-- A repeated sequence iterates its route. -/
theorem iterate_copySeq (mvs : List Move) (m : ℕ → β) (n : ℕ) :
    (copySeq mvs)^[n] m = m ∘ (routeSeq mvs)^[n] := by
  rw [← iterate_comp, show copySeq mvs = fun m : ℕ → β => m ∘ routeSeq mvs from
    funext (copySeq_eq_comp mvs)]

theorem Move.route_of_notMem {mv : Move} {p : ℕ} (hp : p ∉ mv.dstSpan) : mv.route p = p := by
  rw [Move.route, if_neg]
  exact fun hc => hp (Move.covers_iff.mp hc)

theorem Move.route_mem {mv : Move} {p : ℕ} (hp : p ∈ mv.dstSpan) : mv.route p ∈ mv.srcSpan := by
  rw [Move.route, if_pos (Move.covers_iff.mpr hp)]
  exact Move.source_mem hp

theorem routeSeq_of_notMem {mvs : List Move} {p : ℕ} (hp : ∀ mv ∈ mvs, p ∉ mv.dstSpan) :
    routeSeq mvs p = p := by
  induction mvs with
  | nil => rfl
  | cons mv mvs ih =>
      obtain ⟨hmv, hmvs⟩ := List.forall_mem_cons.mp hp
      rw [routeSeq, Function.comp_apply, ih hmvs, Move.route_of_notMem hmv]

/-- A set that holds every source is never left. -/
theorem routeSeq_mapsTo {mvs : List Move} {A : Set ℕ} (h : ∀ mv ∈ mvs, mv.srcSpan ⊆ A) :
    Set.MapsTo (routeSeq mvs) A A := by
  induction mvs with
  | nil => exact Set.mapsTo_id A
  | cons mv mvs ih =>
      obtain ⟨hmv, hmvs⟩ := List.forall_mem_cons.mp h
      refine Set.MapsTo.comp (fun p hp => ?_) (ih hmvs)
      by_cases hin : p ∈ mv.dstSpan
      · exact hmv (Move.route_mem hin)
      · rwa [Move.route_of_notMem hin]

/-! ## Two routes on a memory that is pinned in part -/

section Pinned

/-- Seen from cell `p` of the open part `F`, both routes end in the same open cell,
or outside of `F` in cells with the same contents. -/
def SameSource (F : Set ℕ) (f g : ℕ → ℕ) (u u' : ℕ → β) (p : ℕ) : Prop :=
  (f p ∈ F ∧ g p = f p) ∨ (f p ∉ F ∧ g p ∉ F ∧ u (f p) = u' (g p))

variable {K F : Set ℕ} {f g : ℕ → ℕ} {u u' : ℕ → β}
  (hfix : ∀ p ∈ K, f p = p) (hmaps : Set.MapsTo f F (K ∪ F))
  (hfix' : ∀ p ∈ K, g p = p) (hmaps' : Set.MapsTo g F (K ∪ F))

include hmaps hmaps' in
theorem eqOn_of_sameSource (h : ∀ p ∈ F, SameSource F f g u u' p) {m m' : ℕ → β}
    (hm : Set.EqOn m u K) (hm' : Set.EqOn m' u' K) (hF : Set.EqOn m m' F) :
    Set.EqOn (m ∘ f) (m' ∘ g) F := by
  intro p hp
  rw [Function.comp_apply, Function.comp_apply]
  rcases h p hp with ⟨hopen, hsame⟩ | ⟨hout, hout', hsame⟩
  · rw [hsame]
    exact hF hopen
  · rw [hm ((hmaps hp).resolve_right hout), hm' ((hmaps' hp).resolve_right hout'), hsame]

include hfix hmaps hfix' hmaps' in
theorem iterate_eqOn_of_sameSource (h : ∀ p ∈ F, SameSource F f g u u' p) {m m' : ℕ → β}
    (hm : Set.EqOn m u K) (hm' : Set.EqOn m' u' K) (hF : Set.EqOn m m' F) (n : ℕ) :
    Set.EqOn (m ∘ f^[n]) (m' ∘ g^[n]) F := by
  induction n generalizing m m' with
  | zero => exact hF
  | succ n ih =>
      have hkeep : Set.EqOn (m ∘ f) u K := fun p hp => by
        rw [Function.comp_apply, hfix p hp, hm hp]
      have hkeep' : Set.EqOn (m' ∘ g) u' K := fun p hp => by
        rw [Function.comp_apply, hfix' p hp, hm' hp]
      rw [Function.iterate_succ', Function.iterate_succ', ← Function.comp_assoc,
        ← Function.comp_assoc]
      exact ih hkeep hkeep' (eqOn_of_sameSource hmaps hmaps' h hm hm' hF)

/-- One round that agrees on all contents of the open part is enough to compare
the routes. -/
theorem sameSource_of_eqOn [Nontrivial β] (hdisj : Disjoint K F)
    (h : ∀ m m' : ℕ → β, Set.EqOn m u K → Set.EqOn m' u' K → Set.EqOn m m' F →
      Set.EqOn (m ∘ f) (m' ∘ g) F) : ∀ p ∈ F, SameSource F f g u u' p := by
  classical
  intro p hp
  -- a memory with chosen contents in the open part
  have hrun : ∀ x : ℕ → β, F.piecewise x u (f p) = F.piecewise x u' (g p) := by
    intro x
    have hpin : ∀ v : ℕ → β, Set.EqOn (F.piecewise x v) v K := fun v q hq =>
      Set.piecewise_eq_of_notMem F x v (Set.disjoint_left.mp hdisj hq)
    refine h _ _ (hpin u) (hpin u') (fun q hq => ?_) hp
    rw [Set.piecewise_eq_of_mem F x u hq, Set.piecewise_eq_of_mem F x u' hq]
  by_cases hf : f p ∈ F
  · by_cases hg : g p ∈ F
    · refine Or.inl ⟨hf, ?_⟩
      by_contra hne
      obtain ⟨a, b, hab⟩ := exists_pair_ne β
      have heq := hrun fun q => if q = f p then a else b
      rw [Set.piecewise_eq_of_mem F _ u hf, Set.piecewise_eq_of_mem F _ u' hg, if_pos rfl,
        if_neg hne] at heq
      exact hab heq
    · obtain ⟨a, ha⟩ := exists_ne (u' (g p))
      have heq := hrun fun _ => a
      rw [Set.piecewise_eq_of_mem F _ u hf, Set.piecewise_eq_of_notMem F _ u' hg] at heq
      exact absurd heq ha
  · by_cases hg : g p ∈ F
    · obtain ⟨a, ha⟩ := exists_ne (u (f p))
      have heq := hrun fun _ => a
      rw [Set.piecewise_eq_of_notMem F _ u hf, Set.piecewise_eq_of_mem F _ u' hg] at heq
      exact absurd heq.symm ha
    · refine Or.inr ⟨hf, hg, ?_⟩
      have heq := hrun u
      rwa [Set.piecewise_eq_of_notMem F _ u hf, Set.piecewise_eq_of_notMem F _ u' hg] at heq

end Pinned

end Foundation
