import Mathlib

/-!
# Families of half-open intervals

A list of items with bounds `lo` and `hi`, over any linear order. Sorted by
`lo`, the intervals are pairwise disjoint exactly when each ends before its
successor starts, provided none is empty: an empty interval could hide an
overlap of its two neighbours. Fields that follow one another without a gap are
disjoint in any case.
-/

namespace Foundation

open List

variable {ι α : Type*} [LinearOrder α]

/-- Two intervals of which the first starts no later are disjoint when the
first ends before the second starts. -/
theorem Ico_disjoint_of_le {a b c d : α} (h : b ≤ c) :
    Disjoint (Set.Ico a b) (Set.Ico c d) :=
  Set.Ico_disjoint_Ico.mpr
    ((min_le_left b d).trans (h.trans (le_max_right a c)))

/-- For non-empty intervals in order the converse holds. -/
theorem le_of_Ico_disjoint {a b c d : α} (hac : a ≤ c) (hcd : c < d)
    (h : Disjoint (Set.Ico a b) (Set.Ico c d)) : b ≤ c := by
  have hmin := Set.Ico_disjoint_Ico.mp h
  rw [max_eq_right hac] at hmin
  rcases min_le_iff.mp hmin with hb | hd
  · exact hb
  · exact absurd hcd (not_lt.mpr hd)

/-- Non-empty intervals are disjoint exactly when one ends before the other
starts. -/
theorem Ico_disjoint_iff {a b c d : α} (hab : a < b) (hcd : c < d) :
    Disjoint (Set.Ico a b) (Set.Ico c d) ↔ b ≤ c ∨ d ≤ a := by
  constructor
  · intro h
    rcases le_total a c with hac | hca
    · exact Or.inl (le_of_Ico_disjoint hac hcd h)
    · exact Or.inr (le_of_Ico_disjoint hca hab h.symm)
  · rintro (h | h)
    · exact Ico_disjoint_of_le h
    · exact (Ico_disjoint_of_le h).symm

/-- The interval of an item. -/
def span (lo hi : ι → α) (i : ι) : Set α := Set.Ico (lo i) (hi i)

/-- **Neighbours suffice.** In a list sorted by `lo` and without empty
intervals, checking every element against its predecessor decides whether the
intervals are pairwise disjoint. -/
theorem isChain_iff_pairwise_disjoint {lo hi : ι → α} {l : List ι}
    (hne : ∀ i ∈ l, lo i < hi i)
    (hsorted : l.Pairwise fun i j => lo i ≤ lo j) :
    (l.IsChain fun i j => hi i ≤ lo j) ↔
      l.Pairwise fun i j => Disjoint (span lo hi i) (span lo hi j) := by
  induction l with
  | nil => simp
  | cons a l ih =>
      cases l with
      | nil => simp
      | cons b l =>
          obtain ⟨ha, hrest⟩ := List.pairwise_cons.mp hsorted
          have ih := ih (fun i hi => hne i (List.mem_cons_of_mem a hi)) hrest
          rw [List.isChain_cons_cons, List.pairwise_cons, ih]
          constructor
          · rintro ⟨hab, hpw⟩
            refine ⟨?_, hpw⟩
            intro j hj
            have hbj : lo b ≤ lo j := by
              rcases List.mem_cons.mp hj with rfl | hj
              · exact le_rfl
              · exact (List.pairwise_cons.mp hrest).1 j hj
            exact Ico_disjoint_of_le (hab.trans hbj)
          · -- `b` is not empty, so an interval that meets it from the left is caught
            rintro ⟨hall, hpw⟩
            have hb := List.mem_cons_self (a := b) (l := l)
            exact ⟨le_of_Ico_disjoint (ha b hb)
              (hne b (List.mem_cons_of_mem a hb)) (hall b hb), hpw⟩

/-! ## Fields behind one another -/

section Fields

variable {α : Type*} [AddMonoid α] [LinearOrder α] [CanonicallyOrderedAdd α]

/-- The positions of a field, given by its first position and its width. -/
def fieldSpan (f : α × α) : Set α := Set.Ico f.1 (f.1 + f.2)

/-- Every field begins where its predecessor ends. -/
def Contiguous (l : List (α × α)) : Prop := l.IsChain fun f g => g.1 = f.1 + f.2

/-- Contiguous fields are pairwise disjoint, empty ones among them or not. -/
theorem Contiguous.pairwise_disjoint {l : List (α × α)} (h : Contiguous l) :
    l.Pairwise fun f g : α × α => Disjoint (fieldSpan f) (fieldSpan g) := by
  have hbefore : l.IsChain fun f g => f.1 + f.2 ≤ g.1 := h.imp fun _ _ heq => heq.ge
  -- a field that ends before another begins also ends before all later ones
  have htrans : IsTrans (α × α) fun f g => f.1 + f.2 ≤ g.1 :=
    ⟨fun f g k hfg hgk => hfg.trans (le_self_add.trans hgk)⟩
  exact (List.isChain_iff_pairwise.mp hbefore).imp fun hle => Ico_disjoint_of_le hle

end Fields

end Foundation
