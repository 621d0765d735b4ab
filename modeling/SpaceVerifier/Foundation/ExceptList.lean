import Mathlib.Data.List.Forall2

/-!
# Computations that may fail, and traversals of lists by them

When a bind or a traversal in `Except` succeeds, and with what. A successful
traversal is a pointwise relation between its inputs and its outputs, so the
list library's facts about `Forall₂` apply.
-/

namespace Foundation

variable {ε α β : Type}

theorem bind_eq_ok {x : Except ε α} {f : α → Except ε β} {b : β} :
    x >>= f = .ok b ↔ ∃ a, x = .ok a ∧ f a = .ok b := by
  cases x with
  | error e =>
      constructor
      · intro h
        cases h
      · rintro ⟨_, h, -⟩
        cases h
  | ok a =>
      constructor
      · exact fun h => ⟨a, rfl, h⟩
      · rintro ⟨_, ha, hf⟩
        cases ha
        exact hf

@[simp] theorem pure_eq_ok {a b : α} : (pure a : Except ε α) = .ok b ↔ a = b :=
  ⟨Except.ok.inj, congrArg Except.ok⟩

/-- Two steps whose results are put together. -/
theorem bind_bind_eq_ok {γ : Type} {x : Except ε α} {y : Except ε β} {f : α → β → γ} {c : γ} :
    (x >>= fun a => y >>= fun b => pure (f a b)) = .ok c ↔
      ∃ a b, x = .ok a ∧ y = .ok b ∧ c = f a b := by
  simp only [bind_eq_ok, pure_eq_ok, @eq_comm _ c]
  constructor
  · rintro ⟨a, ha, b, hb, h⟩
    exact ⟨a, b, ha, hb, h⟩
  · rintro ⟨a, b, ha, hb, h⟩
    exact ⟨a, ha, b, hb, h⟩

theorem exists_bind_ok {x : Except ε α} {f : α → Except ε β} :
    (∃ b, x >>= f = .ok b) ↔ ∃ a, x = .ok a ∧ ∃ b, f a = .ok b := by
  simp only [bind_eq_ok]
  exact ⟨fun ⟨b, a, ha, hb⟩ => ⟨a, ha, b, hb⟩, fun ⟨a, ha, b, hb⟩ => ⟨b, a, ha, hb⟩⟩

/-- A computation that does not succeed fails with some error. -/
theorem eq_error_of_not_ok {x : Except ε α} (h : ¬ ∃ a, x = .ok a) :
    ∃ e, x = .error e := by
  cases x with
  | error e => exact ⟨e, rfl⟩
  | ok a => exact absurd ⟨a, rfl⟩ h

/-! ## Pointwise relations between lists -/

theorem exists_forall₂ {R : α → β → Prop} {l : List α} :
    (∃ ys, List.Forall₂ R l ys) ↔ ∀ x ∈ l, ∃ y, R x y := by
  induction l with
  | nil => exact ⟨fun _ x hx => absurd hx List.not_mem_nil, fun _ => ⟨[], .nil⟩⟩
  | cons x l ih =>
      rw [List.forall_mem_cons, ← ih]
      constructor
      · rintro ⟨_, _ | ⟨hhead, htail⟩⟩
        exact ⟨⟨_, hhead⟩, _, htail⟩
      · rintro ⟨⟨y, hy⟩, ys, hys⟩
        exact ⟨y :: ys, .cons hy hys⟩

theorem exists_left_of_forall₂ {R : α → β → Prop} {xs : List α} {ys : List β}
    (h : List.Forall₂ R xs ys) {y : β} (hy : y ∈ ys) : ∃ x ∈ xs, R x y := by
  induction h with
  | nil => exact absurd hy List.not_mem_nil
  | cons hhead _ ih =>
      rcases List.mem_cons.mp hy with rfl | hmem
      · exact ⟨_, List.mem_cons_self, hhead⟩
      · obtain ⟨x, hx, hR⟩ := ih hmem
        exact ⟨x, List.mem_cons_of_mem _ hx, hR⟩

theorem exists_right_of_forall₂ {R : α → β → Prop} {xs : List α} {ys : List β}
    (h : List.Forall₂ R xs ys) {x : α} (hx : x ∈ xs) : ∃ y ∈ ys, R x y :=
  exists_left_of_forall₂ (R := flip R) (List.Forall₂.flip h) hx

theorem forall₂_append_left {R : α → β → Prop} {xs xs' : List α} {zs : List β} :
    List.Forall₂ R (xs ++ xs') zs ↔ ∃ ys ys', List.Forall₂ R xs ys ∧ List.Forall₂ R xs' ys' ∧
      zs = ys ++ ys' := by
  constructor
  · intro h
    induction xs generalizing zs with
    | nil => exact ⟨[], zs, .nil, h, rfl⟩
    | cons x xs ih =>
        cases h with
        | cons hx h =>
            obtain ⟨ys, ys', hys, hys', rfl⟩ := ih h
            exact ⟨_ :: ys, ys', .cons hx hys, hys', rfl⟩
  · rintro ⟨ys, ys', hys, hys', rfl⟩
    exact List.rel_append hys hys'

/-- Two traversals in a row are one. -/
theorem forall₂_comp {γ : Type} {R : α → β → Prop} {S : β → γ → Prop} {xs : List α}
    {zs : List γ} :
    (∃ ys, List.Forall₂ R xs ys ∧ List.Forall₂ S ys zs) ↔
      List.Forall₂ (fun x z => ∃ y, R x y ∧ S y z) xs zs := by
  constructor
  · rintro ⟨ys, hxy, hyz⟩
    induction hxy generalizing zs with
    | nil =>
        cases hyz
        exact List.Forall₂.nil
    | cons hhead _ ih =>
        cases hyz with
        | cons hhead' htail' => exact List.Forall₂.cons ⟨_, hhead, hhead'⟩ (ih htail')
  · intro h
    induction h with
    | nil => exact ⟨[], List.Forall₂.nil, List.Forall₂.nil⟩
    | cons hhead _ ih =>
        obtain ⟨y, hxy, hyz⟩ := hhead
        obtain ⟨ys, hxys, hyzs⟩ := ih
        exact ⟨y :: ys, List.Forall₂.cons hxy hxys, List.Forall₂.cons hyz hyzs⟩

/-! ## Traversals -/

theorem mapM_eq_ok_iff {f : α → Except ε β} {l : List α} {ys : List β} :
    l.mapM f = .ok ys ↔ List.Forall₂ (fun x y => f x = .ok y) l ys := by
  induction l generalizing ys with
  | nil =>
      rw [List.mapM_nil, pure_eq_ok, List.forall₂_nil_left_iff]
      exact eq_comm
  | cons x l ih =>
      simp only [List.mapM_cons, bind_eq_ok, pure_eq_ok, List.forall₂_cons_left_iff]
      constructor
      · rintro ⟨y, hy, ys', hys, rfl⟩
        exact ⟨y, ys', hy, ih.mp hys, rfl⟩
      · rintro ⟨y, ys', hy, hys, rfl⟩
        exact ⟨y, hy, ys', ih.mpr hys, rfl⟩

theorem exists_mapM_ok {f : α → Except ε β} {l : List α} :
    (∃ ys, l.mapM f = .ok ys) ↔ ∀ x ∈ l, ∃ y, f x = .ok y := by
  simp only [mapM_eq_ok_iff, exists_forall₂]

theorem mapM_ok {f : α → Except ε β} {g : α → β} {l : List α}
    (h : ∀ x ∈ l, f x = .ok (g x)) : l.mapM f = .ok (l.map g) := by
  rw [mapM_eq_ok_iff, List.forall₂_map_right_iff, List.forall₂_same]
  exact h

theorem mapM_some {f : α → Except ε β} {x : α} {ys : List β} :
    (some x).toList.mapM f = .ok ys ↔ ∃ y, f x = .ok y ∧ ys = [y] := by
  rw [Option.toList_some, mapM_eq_ok_iff, List.forall₂_cons_left_iff]
  constructor
  · rintro ⟨y, rest, hy, hnil, rfl⟩
    rw [List.forall₂_nil_left_iff.mp hnil]
    exact ⟨y, hy, rfl⟩
  · rintro ⟨y, hy, rfl⟩
    exact ⟨y, [], hy, .nil, rfl⟩

theorem mapM_none {f : α → Except ε β} {ys : List β} :
    (none : Option α).toList.mapM f = .ok ys ↔ ys = [] := by
  rw [Option.toList_none, mapM_eq_ok_iff, List.forall₂_nil_left_iff]

/-- Blocks put one behind the other are found again by the number their entries
carry. -/
theorem filter_flatten_of_tag {tag : β → Nat} {start : Nat} {blocks : List (List β)}
    (h : ∀ i block, blocks[i]? = some block → ∀ b ∈ block, tag b = start + i) {i : Nat}
    {block : List β} (hi : blocks[i]? = some block) :
    blocks.flatten.filter (fun b => tag b = start + i) = block := by
  induction blocks generalizing start i with
  | nil => cases hi
  | cons first rest ih =>
      have hrest : ∀ j block, rest[j]? = some block → ∀ b ∈ block, tag b = start + 1 + j := by
        intro j block hj b hb
        rw [h (j + 1) block hj b hb]
        omega
      rw [List.flatten_cons, List.filter_append]
      cases i with
      | zero =>
          obtain rfl := Option.some.inj hi
          have hself : first.filter (fun b => tag b = start + 0) = first :=
            List.filter_eq_self.mpr fun b hb => decide_eq_true (h 0 first rfl b hb)
          have hnone : rest.flatten.filter (fun b => tag b = start + 0) = [] := by
            refine List.filter_eq_nil_iff.mpr fun b hb => ?_
            obtain ⟨block, hblock, hb⟩ := List.mem_flatten.mp hb
            obtain ⟨j, hj⟩ := List.mem_iff_getElem?.mp hblock
            have := hrest j block hj b hb
            simp only [decide_eq_true_eq]
            omega
          rw [hself, hnone, List.append_nil]
      | succ i =>
          have hnone : first.filter (fun b => tag b = start + (i + 1)) = [] := by
            refine List.filter_eq_nil_iff.mpr fun b hb => ?_
            have := h 0 first rfl b hb
            simp only [decide_eq_true_eq]
            omega
          rw [hnone, List.nil_append, show start + (i + 1) = start + 1 + i by omega]
          exact ih hrest hi

end Foundation
