import SpaceVerifier.Metatheory.ConflictFree

/-!
# What the list of L2 conflicts says

The verdict of L2 is exact; the list is less than that. Every entry is a real
overlap under its right name, but the scan only compares neighbours in sorted
order, and it meets the overlaps of the self test a second time. How often a
pair of intervals is reported is a sum of these two contributions.
-/

namespace SpaceVerifier.Verifier

open Foundation

/-! ## What an entry names -/

/-- The interval of one slot with one origin. -/
def Interval.key (i : Interval) : Nat × Origin := (i.slot, i.origin)

/-- The origins a kind names, the one of `slot_a` first. -/
def OverlapKind.origins : OverlapKind → Origin × Origin
  | .selfSrcDst => (.src, .dst)
  | .srcSrc => (.src, .src)
  | .dstDst => (.dst, .dst)
  | .srcDst => (.src, .dst)
  | .dstSrc => (.dst, .src)

def Conflict.keyA (c : Conflict) : Nat × Origin := (c.slotA, c.kind.origins.1)

def Conflict.keyB (c : Conflict) : Nat × Origin := (c.slotB, c.kind.origins.2)

/-- `c` reports the unordered pair `i`, `j`. -/
def Conflict.Names (c : Conflict) (i j : Interval) : Prop :=
  (c.keyA = i.key ∧ c.keyB = j.key) ∨ (c.keyA = j.key ∧ c.keyB = i.key)

instance (c : Conflict) (i j : Interval) : Decidable (c.Names i j) :=
  inferInstanceAs (Decidable (_ ∨ _))

/-- Two intervals share a bit. -/
def Interval.Meets (i j : Interval) : Prop := ¬ Disjoint i.span j.span

theorem meets_iff {i j : Interval} (hi : i.start < i.stop) (hj : j.start < j.stop) :
    i.Meets j ↔ i.start < j.stop ∧ j.start < i.stop := by
  unfold Interval.Meets Interval.span
  rw [show Disjoint (Foundation.span Interval.start Interval.stop i)
    (Foundation.span Interval.start Interval.stop j) ↔ _ from Ico_disjoint_iff hi hj]
  omega

theorem Interval.Meets.symm {i j : Interval} (h : i.Meets j) : j.Meets i :=
  fun hd => h hd.symm

/-! ## The intervals of a layer -/

section Layer

variable {instrs : List Instruction} (hslots : (instrs.map (·.slot)).Nodup)
include hslots

theorem active_slots_nodup : ((active instrs).map (·.slot)).Nodup :=
  hslots.sublist (List.filter_sublist.map _)

/-- With distinct slot numbers no two intervals have the same name. -/
theorem tickIntervals_keys_nodup : ((tickIntervals instrs).map Interval.key).Nodup := by
  have hactive := List.pairwise_map.mp (active_slots_nodup hslots)
  unfold tickIntervals
  rw [List.map_flatMap, List.nodup_flatMap]
  constructor
  · intro ins _
    simp [intervalsOf, Interval.key]
  · refine hactive.imp ?_
    intro a b hab
    simp [Function.onFun, List.Disjoint, intervalsOf, Interval.key, hab]

end Layer

/-! ## The entries of the two tests -/

/-- The self test reports the two intervals of the instruction. -/
theorem mem_selfConflict {tick : Nat} {ins : Instruction} {c : Conflict}
    (h : c ∈ selfConflict tick ins) :
    ¬ (ins.src + ins.n ≤ ins.dst ∨ ins.dst + ins.n ≤ ins.src) ∧
      c = { tick, slotA := ins.slot, slotB := ins.slot,
            overlapBegin := max ins.src ins.dst
            overlapEnd := min (ins.src + ins.n) (ins.dst + ins.n)
            kind := .selfSrcDst } := by
  unfold selfConflict at h
  by_cases hover : ¬ (ins.src + ins.n ≤ ins.dst ∨ ins.dst + ins.n ≤ ins.src)
  · rw [if_pos hover] at h
    exact ⟨hover, List.mem_singleton.mp h⟩
  · rw [if_neg hover] at h
    exact absurd h List.not_mem_nil

/-- Under distinct names the label of a scan entry is the one of its two
intervals, in sorted order, or the self label. -/
theorem overlapKind_origins {prev curr : Interval} (hkey : prev.key ≠ curr.key) :
    (prev.slot ≠ curr.slot → overlapKind prev curr ≠ .selfSrcDst ∧
      (overlapKind prev curr).origins = (prev.origin, curr.origin)) ∧
    (prev.slot = curr.slot → overlapKind prev curr = .selfSrcDst ∧
      ((prev.origin = .src ∧ curr.origin = .dst) ∨
        (prev.origin = .dst ∧ curr.origin = .src))) := by
  unfold overlapKind
  constructor
  · intro hslot
    rw [if_neg hslot]
    cases prev.origin <;> cases curr.origin <;> exact ⟨by decide, rfl⟩
  · intro hslot
    rw [if_pos hslot]
    refine ⟨rfl, ?_⟩
    have hne : prev.origin ≠ curr.origin := fun ho => hkey (Prod.ext hslot ho)
    cases hp : prev.origin <;> cases hc : curr.origin <;> simp_all

/-- A scan entry names its two intervals and no other pair. -/
theorem names_neighbour {tick : Nat} {prev curr i j : Interval} {c : Conflict}
    (hkey : prev.key ≠ curr.key) (hc : c ∈ neighbourConflict tick prev curr) :
    c.Names i j ↔ (prev.key = i.key ∧ curr.key = j.key) ∨
      (prev.key = j.key ∧ curr.key = i.key) := by
  unfold neighbourConflict at hc
  split at hc
  · obtain rfl := List.mem_singleton.mp hc
    obtain ⟨hcross, hself⟩ := overlapKind_origins hkey
    simp only [Conflict.Names, Conflict.keyA, Conflict.keyB]
    by_cases hslot : prev.slot = curr.slot
    · obtain ⟨hkind, hab⟩ := hself hslot
      rw [hkind]
      simp only [OverlapKind.origins, Interval.key, Prod.mk.injEq] at *
      rcases hab with ⟨hp, hq⟩ | ⟨hp, hq⟩
      · rw [hp, hq]
      · rw [hp, hq, hslot]
        tauto
    · rw [(hcross hslot).2]
      exact Iff.rfl
  · exact absurd hc List.not_mem_nil

/-- A pair stands at the head of a list or further down. -/
theorem pair_infix_cons {a b x y : Interval} {l : List Interval} :
    [a, b] <:+: x :: y :: l ↔ (x = a ∧ y = b) ∨ [a, b] <:+: y :: l := by
  rw [List.infix_cons_iff, List.cons_prefix_cons, List.cons_prefix_cons]
  simp [eq_comm]

/-- The scan reports what two neighbours give. -/
theorem mem_scanLine_iff {tick : Nat} {l : List Interval} {c : Conflict} :
    c ∈ scanLine tick l ↔
      ∃ prev curr, [prev, curr] <:+: l ∧ c ∈ neighbourConflict tick prev curr := by
  induction l with
  | nil => simp [scanLine]
  | cons prev l ih =>
      cases l with
      | nil => simp [scanLine, List.infix_cons_iff]
      | cons curr rest =>
          simp only [scanLine, List.mem_append, ih, pair_infix_cons]
          constructor
          · rintro (h | ⟨i, j, hin, hc⟩)
            · exact ⟨prev, curr, Or.inl ⟨rfl, rfl⟩, h⟩
            · exact ⟨i, j, Or.inr hin, hc⟩
          · rintro ⟨i, j, ⟨rfl, rfl⟩ | hin, hc⟩
            · exact Or.inl hc
            · exact Or.inr ⟨i, j, hin, hc⟩

/-! ## Neighbours in sorted order -/

/-- The intervals of a layer in the order of the scan. -/
def sortedIntervals (instrs : List Instruction) : List Interval :=
  (tickIntervals instrs).insertionSort Interval.keyLe

/-- `i` and `j` stand next to each other in that order. -/
def Neighbours (instrs : List Instruction) (i j : Interval) : Prop :=
  [i, j] <:+: sortedIntervals instrs ∨ [j, i] <:+: sortedIntervals instrs

instance (instrs : List Instruction) (i j : Interval) : Decidable (Neighbours instrs i j) :=
  inferInstanceAs (Decidable (_ ∨ _))

theorem mem_sortedIntervals {instrs : List Instruction} {i : Interval} :
    i ∈ sortedIntervals instrs ↔ i ∈ tickIntervals instrs :=
  List.mem_insertionSort Interval.keyLe

theorem sortedIntervals_sorted (instrs : List Instruction) :
    (sortedIntervals instrs).Pairwise fun i j => i.start ≤ j.start :=
  (List.pairwise_insertionSort Interval.keyLe _).imp Interval.keyLe.start_le

theorem sortedIntervals_keys_nodup {instrs : List Instruction}
    (hslots : (instrs.map (·.slot)).Nodup) :
    ((sortedIntervals instrs).map Interval.key).Nodup :=
  (((List.perm_insertionSort Interval.keyLe _).map Interval.key).nodup_iff).mpr
    (tickIntervals_keys_nodup hslots)

/-- Neighbours are two intervals of the layer, in order and with two names. -/
theorem of_neighbours {instrs : List Instruction} (hslots : (instrs.map (·.slot)).Nodup)
    {prev curr : Interval} (h : [prev, curr] <:+: sortedIntervals instrs) :
    prev ∈ tickIntervals instrs ∧ curr ∈ tickIntervals instrs ∧
      prev.start ≤ curr.start ∧ prev.key ≠ curr.key := by
  have hsub := h.sublist
  refine ⟨?_, ?_, ?_, ?_⟩
  · exact mem_sortedIntervals.mp (h.subset List.mem_cons_self)
  · exact mem_sortedIntervals.mp (h.subset (by simp))
  · have hsorted := (sortedIntervals_sorted instrs).sublist hsub
    exact (List.pairwise_cons.mp hsorted).1 curr List.mem_cons_self
  · have hnodup := (sortedIntervals_keys_nodup hslots).sublist (hsub.map Interval.key)
    simpa using hnodup

/-! ## Every entry is real -/

/-- `c` describes an overlap of the layer: an interval of each of its two
slots, the exact range they share, and the label of this pair. -/
def Conflict.Real (instrs : List Instruction) (c : Conflict) : Prop :=
  c.overlapBegin < c.overlapEnd ∧
  ∃ a ∈ instrs, ∃ b ∈ instrs, a.slot = c.slotA ∧ b.slot = c.slotB ∧
    ∃ i ∈ intervalsOf a, ∃ j ∈ intervalsOf b, i ≠ j ∧
      i.span ∩ j.span = Set.Ico c.overlapBegin c.overlapEnd ∧
      (c.kind = .selfSrcDst ↔ c.slotA = c.slotB) ∧
      (c.slotA ≠ c.slotB → c.kind.origins = (i.origin, j.origin))

theorem selfConflict_real {instrs : List Instruction} {tick : Nat} {ins : Instruction}
    (hins : ins ∈ active instrs) {c : Conflict} (hc : c ∈ selfConflict tick ins) :
    c.Real instrs := by
  obtain ⟨hmem, hn⟩ := mem_active.mp hins
  obtain ⟨hover, rfl⟩ := mem_selfConflict hc
  refine ⟨?_, ins, hmem, ins, hmem, rfl, rfl, ⟨ins.src, ins.src + ins.n, ins.slot, .src⟩,
    by simp [intervalsOf], ⟨ins.dst, ins.dst + ins.n, ins.slot, .dst⟩, by simp [intervalsOf],
    by simp, Set.Ico_inter_Ico, by simp, fun h => absurd rfl h⟩
  show max ins.src ins.dst < min (ins.src + ins.n) (ins.dst + ins.n)
  omega

theorem neighbourConflict_real {instrs : List Instruction}
    (hslots : (instrs.map (·.slot)).Nodup) {tick : Nat} {prev curr : Interval}
    (h : [prev, curr] <:+: sortedIntervals instrs) {c : Conflict}
    (hc : c ∈ neighbourConflict tick prev curr) : c.Real instrs := by
  obtain ⟨hprev, hcurr, hle, hkey⟩ := of_neighbours hslots h
  have hstop := start_lt_stop hcurr
  obtain ⟨a, ha, -, hi, hslotA⟩ := mem_tickIntervals.mp hprev
  obtain ⟨b, hb, -, hj, hslotB⟩ := mem_tickIntervals.mp hcurr
  obtain ⟨hcross, hself⟩ := overlapKind_origins hkey
  unfold neighbourConflict at hc
  by_cases hlt : curr.start < prev.stop
  · rw [if_pos hlt] at hc
    obtain rfl := List.mem_singleton.mp hc
    refine ⟨lt_min hstop hlt, a, ha, b, hb, hslotA, hslotB, prev, hi, curr, hj, ?_, ?_, ?_, ?_⟩
    · rintro rfl
      exact hkey rfl
    · -- in sorted order the later start is the greater one
      show Set.Ico prev.start prev.stop ∩ Set.Ico curr.start curr.stop = _
      rw [Set.Ico_inter_Ico, sup_eq_right.mpr hle, inf_comm]
    · constructor
      · intro hkind
        by_contra hslot
        exact (hcross hslot).1 hkind
      · exact fun hslot => (hself hslot).1
    · exact fun hslot => (hcross hslot).2
  · rw [if_neg hlt] at hc
    exact absurd hc List.not_mem_nil

/-- **Every reported conflict is real and correctly labelled.** -/
theorem checkTick_real {instrs : List Instruction} {tick : Nat}
    (hslots : (instrs.map (·.slot)).Nodup) {c : Conflict}
    (hc : c ∈ checkTick instrs tick) : c.Real instrs := by
  rcases List.mem_append.mp hc with hself | hscan
  · obtain ⟨ins, hins, hmem⟩ := List.mem_flatMap.mp hself
    exact selfConflict_real hins hmem
  · obtain ⟨prev, curr, hin, hmem⟩ := mem_scanLine_iff.mp hscan
    exact neighbourConflict_real hslots hin hmem

/-- A source below the destination of another slot. -/
theorem checkTick_real_cross :
    Conflict.Real [⟨0, 8, 100, 200⟩, ⟨1, 8, 190, 95⟩] ⟨0, 1, 0, 100, 103, .srcDst⟩ :=
  checkTick_real (by decide)
    (show _ ∈ checkTick [⟨0, 8, 100, 200⟩, ⟨1, 8, 190, 95⟩] 0 by decide)

/-! ## How often a pair is reported -/

/-- Two neighbours that meet are reported once, in this place. -/
theorem neighbourConflict_countP (tick : Nat) {prev curr i j : Interval}
    (hkey : prev.key ≠ curr.key)
    (hi : ∀ a ∈ [prev, curr], a.key = i.key → a = i)
    (hj : ∀ a ∈ [prev, curr], a.key = j.key → a = j)
    (hlt : (prev = i ∧ curr = j) ∨ (prev = j ∧ curr = i) → curr.start < prev.stop) :
    (neighbourConflict tick prev curr).countP (fun c => c.Names i j) =
      if (prev = i ∧ curr = j) ∨ (prev = j ∧ curr = i) then 1 else 0 := by
  by_cases hpair : (prev = i ∧ curr = j) ∨ (prev = j ∧ curr = i)
  · rw [if_pos hpair]
    have hnames : ∀ c ∈ neighbourConflict tick prev curr, c.Names i j := by
      intro c hc
      rw [names_neighbour hkey hc]
      rcases hpair with ⟨rfl, rfl⟩ | ⟨rfl, rfl⟩
      · exact Or.inl ⟨rfl, rfl⟩
      · exact Or.inr ⟨rfl, rfl⟩
    have hlen : (neighbourConflict tick prev curr).length = 1 := by
      unfold neighbourConflict
      rw [if_pos (hlt hpair)]
      rfl
    rw [← hlen, List.countP_eq_length]
    intro c hc
    simpa using hnames c hc
  · rw [if_neg hpair, List.countP_eq_zero]
    intro c hc hnames
    rw [decide_eq_true_eq, names_neighbour hkey hc] at hnames
    apply hpair
    rcases hnames with ⟨h₁, h₂⟩ | ⟨h₁, h₂⟩
    · exact Or.inl ⟨hi prev (by simp) h₁, hj curr (by simp) h₂⟩
    · exact Or.inr ⟨hj prev (by simp) h₁, hi curr (by simp) h₂⟩

/-- The scan reports a pair that meets once if it stands together, and never
otherwise. -/
theorem scanLine_countP {tick : Nat} {i j : Interval} (hi : i.start < i.stop)
    (hj : j.start < j.stop) (hmeet : i.Meets j) {l : List Interval}
    (hnodup : (l.map Interval.key).Nodup)
    (hikey : ∀ a ∈ l, a.key = i.key → a = i) (hjkey : ∀ a ∈ l, a.key = j.key → a = j) :
    (scanLine tick l).countP (fun c => c.Names i j) =
      if [i, j] <:+: l ∨ [j, i] <:+: l then 1 else 0 := by
  induction l with
  | nil => simp [scanLine]
  | cons prev l ih =>
      cases l with
      | nil => simp [scanLine, List.infix_cons_iff]
      | cons curr rest =>
          have hmem : ∀ a ∈ [prev, curr], a ∈ prev :: curr :: rest := by simp
          have hkey : prev.key ≠ curr.key := by
            have hhead := (List.nodup_cons.mp hnodup).1
            intro heq
            exact hhead (by simp [heq])
          have hhead := neighbourConflict_countP tick hkey
            (fun a ha => hikey a (hmem a ha)) (fun a ha => hjkey a (hmem a ha)) (by
              have hstarts := (meets_iff hi hj).mp hmeet
              rintro (⟨rfl, rfl⟩ | ⟨rfl, rfl⟩)
              · exact hstarts.2
              · exact hstarts.1)
          have hrest := ih (List.nodup_cons.mp hnodup).2
            (fun a ha => hikey a (List.mem_cons_of_mem _ ha))
            (fun a ha => hjkey a (List.mem_cons_of_mem _ ha))
          -- `prev` does not occur again behind itself
          have hfresh : prev ∉ curr :: rest := fun hin =>
            (List.nodup_cons.mp hnodup).1 (List.mem_map_of_mem hin)
          rw [scanLine, List.countP_append, hhead, hrest]
          simp only [pair_infix_cons (x := prev)]
          by_cases hpair : (prev = i ∧ curr = j) ∨ (prev = j ∧ curr = i)
          · have hno : ¬ ([i, j] <:+: curr :: rest ∨ [j, i] <:+: curr :: rest) := by
              have hprev : prev = i ∨ prev = j := hpair.imp And.left And.left
              rintro (hin | hin)
              · exact hfresh (hin.subset (by rcases hprev with rfl | rfl <;> simp))
              · exact hfresh (hin.subset (by rcases hprev with rfl | rfl <;> simp))
            rw [if_pos hpair, if_neg hno, if_pos (hpair.imp Or.inl Or.inl)]
          · obtain ⟨h₁, h₂⟩ := not_or.mp hpair
            rw [if_neg hpair, Nat.zero_add]
            simp only [h₁, h₂, false_or]

/-- The self test names no pair with two slot numbers. -/
theorem selfConflict_slots {tick : Nat} {ins : Instruction} {c : Conflict} {i j : Interval}
    (hc : c ∈ selfConflict tick ins) (h : c.Names i j) :
    i.slot = ins.slot ∧ j.slot = ins.slot := by
  obtain ⟨-, rfl⟩ := mem_selfConflict hc
  simp only [Conflict.Names, Conflict.keyA, Conflict.keyB, Interval.key, Prod.mk.injEq] at h
  rcases h with ⟨h₁, h₂⟩ | ⟨h₁, h₂⟩
  · exact ⟨h₁.1.symm, h₂.1.symm⟩
  · exact ⟨h₂.1.symm, h₁.1.symm⟩

theorem selfs_countP_of_forall_ne {tick : Nat} {i j : Interval} {l : List Instruction}
    (h : ∀ ins ∈ l, ¬ (i.slot = ins.slot ∧ j.slot = ins.slot)) :
    (l.flatMap (selfConflict tick)).countP (fun c => c.Names i j) = 0 := by
  rw [List.countP_eq_zero]
  intro c hc hnames
  obtain ⟨ins, hins, hmem⟩ := List.mem_flatMap.mp hc
  exact h ins hins (selfConflict_slots hmem (by simpa using hnames))

/-- The two intervals of one instruction, if they meet, are reported once by
its self test. -/
theorem selfConflict_countP {tick : Nat} {ins : Instruction} {i j : Interval}
    (hn : 0 < ins.n) (hi : i ∈ intervalsOf ins) (hj : j ∈ intervalsOf ins) (hne : i ≠ j)
    (hmeet : i.Meets j) :
    (selfConflict tick ins).countP (fun c => c.Names i j) = 1 := by
  have hstart : ∀ x ∈ intervalsOf ins, x.start < x.stop := by
    intro x hx
    rcases mem_intervalsOf.mp hx with rfl | rfl
    · exact Nat.lt_add_of_pos_right hn
    · exact Nat.lt_add_of_pos_right hn
  have hstarts := (meets_iff (hstart i hi) (hstart j hj)).mp hmeet
  unfold selfConflict
  rcases mem_intervalsOf.mp hi with rfl | rfl <;> rcases mem_intervalsOf.mp hj with rfl | rfl
  · exact absurd rfl hne
  · rw [if_pos (by simp only at hstarts; omega)]
    simp [Conflict.Names, Conflict.keyA, Conflict.keyB, Interval.key, OverlapKind.origins]
  · rw [if_pos (by simp only at hstarts; omega)]
    simp [Conflict.Names, Conflict.keyA, Conflict.keyB, Interval.key, OverlapKind.origins]
  · exact absurd rfl hne

section Count

variable {instrs : List Instruction} (hslots : (instrs.map (·.slot)).Nodup) {tick : Nat}
include hslots

/-- The contribution of the self tests. -/
theorem selfs_countP {i j : Interval} (hi : i ∈ tickIntervals instrs)
    (hj : j ∈ tickIntervals instrs) (hne : i ≠ j) (hmeet : i.Meets j) :
    ((active instrs).flatMap (selfConflict tick)).countP (fun c => c.Names i j) =
      if i.slot = j.slot then 1 else 0 := by
  have hnodup := active_slots_nodup hslots
  by_cases hslot : i.slot = j.slot
  · rw [if_pos hslot]
    obtain ⟨a, ha, hn, hia, hsa⟩ := mem_tickIntervals.mp hi
    obtain ⟨b, hb, hnb, hjb, hsb⟩ := mem_tickIntervals.mp hj
    have hactive : a ∈ active instrs := mem_active.mpr ⟨ha, hn⟩
    obtain rfl : b = a := List.inj_on_of_nodup_map hnodup (mem_active.mpr ⟨hb, hnb⟩) hactive
      (by rw [hsa, hsb, hslot])
    -- the other instructions have other slot numbers
    obtain ⟨l₁, l₂, hl⟩ := List.append_of_mem hactive
    rw [hl, List.map_append, List.map_cons] at hnodup
    obtain ⟨-, htail, hdisj⟩ := List.nodup_append.mp hnodup
    have hl₁ : ∀ ins ∈ l₁, ¬ (i.slot = ins.slot ∧ j.slot = ins.slot) := by
      rintro ins hins ⟨hs, -⟩
      exact hdisj _ (List.mem_map_of_mem hins) _ List.mem_cons_self (by rw [hsa, hs])
    have hl₂ : ∀ ins ∈ l₂, ¬ (i.slot = ins.slot ∧ j.slot = ins.slot) := by
      rintro ins hins ⟨hs, -⟩
      refine (List.nodup_cons.mp htail).1 ?_
      rw [hsa, hs]
      exact List.mem_map_of_mem hins
    rw [hl, List.flatMap_append, List.flatMap_cons, List.countP_append, List.countP_append,
      selfs_countP_of_forall_ne hl₁, selfs_countP_of_forall_ne hl₂,
      selfConflict_countP hn hia hjb hne hmeet]
  · rw [if_neg hslot]
    apply selfs_countP_of_forall_ne
    rintro ins - ⟨h₁, h₂⟩
    exact hslot (h₁.trans h₂.symm)

/-- The contribution of the scan. -/
theorem scan_countP {i j : Interval} (hi : i ∈ tickIntervals instrs)
    (hj : j ∈ tickIntervals instrs) (hmeet : i.Meets j) :
    (scanLine tick (sortedIntervals instrs)).countP (fun c => c.Names i j) =
      if Neighbours instrs i j then 1 else 0 := by
  have hnodup := sortedIntervals_keys_nodup hslots
  have hinj := List.inj_on_of_nodup_map hnodup
  exact scanLine_countP (start_lt_stop hi) (start_lt_stop hj) hmeet hnodup
    (fun _ ha h => hinj ha (mem_sortedIntervals.mpr hi) h)
    (fun _ ha h => hinj ha (mem_sortedIntervals.mpr hj) h)

end Count

/-! ## The first interval of a pair is always named -/

/-- The interval behind `i` in sorted order starts no later than `j`, so it
meets `i` as well. -/
theorem scanLine_names_first (tick : Nat) {i j : Interval} (hlt : j.start < i.stop)
    {l : List Interval} (hsorted : l.Pairwise fun i j => i.start ≤ j.start)
    (hsub : [i, j].Sublist l) : ∃ c ∈ scanLine tick l, c.slotA = i.slot := by
  induction l with
  | nil => simp at hsub
  | cons prev l ih =>
      cases l with
      | nil =>
          have hlen := hsub.length_le
          simp at hlen
      | cons curr rest =>
          obtain ⟨hle, hrest⟩ := List.pairwise_cons.mp hsorted
          rw [scanLine]
          cases hsub with
          | cons _ hsub' =>
              obtain ⟨c, hc, hslot⟩ := ih hrest hsub'
              exact ⟨c, List.mem_append_right _ hc, hslot⟩
          | cons_cons _ hsub' =>
              have hj : j ∈ curr :: rest := List.singleton_sublist.mp hsub'
              have hstart : curr.start ≤ j.start := by
                rcases List.mem_cons.mp hj with rfl | hin
                · exact le_rfl
                · exact (List.pairwise_cons.mp hrest).1 j hin
              have hhead : ∃ c ∈ neighbourConflict tick i curr, c.slotA = i.slot := by
                unfold neighbourConflict
                rw [if_pos (hstart.trans_lt hlt)]
                exact ⟨_, List.mem_singleton_self _, rfl⟩
              obtain ⟨c, hc, hslot⟩ := hhead
              exact ⟨c, List.mem_append_left _ hc, hslot⟩

theorem pair_sublist {i j : Interval} {l : List Interval} (hi : i ∈ l) (hj : j ∈ l)
    (hne : i ≠ j) : [i, j].Sublist l ∨ [j, i].Sublist l := by
  obtain ⟨l₁, l₂, rfl⟩ := List.append_of_mem hi
  rcases List.mem_append.mp hj with hin | hin
  · right
    exact (List.singleton_sublist.mpr hin).append (List.singleton_sublist.mpr List.mem_cons_self)
  · left
    have htail : j ∈ l₂ := (List.mem_cons.mp hin).resolve_left hne.symm
    exact ((List.singleton_sublist.mpr htail).cons_cons i).trans (List.sublist_append_right l₁ _)

/-- Of two intervals that meet, at least one slot is named. -/
theorem exists_named {instrs : List Instruction} {tick : Nat} {i j : Interval}
    (hi : i ∈ tickIntervals instrs) (hj : j ∈ tickIntervals instrs) (hne : i ≠ j)
    (hmeet : i.Meets j) :
    ∃ c ∈ checkTick instrs tick, c.slotA = i.slot ∨ c.slotA = j.slot := by
  have hstarts := (meets_iff (start_lt_stop hi) (start_lt_stop hj)).mp hmeet
  have hsorted := sortedIntervals_sorted instrs
  rcases pair_sublist (mem_sortedIntervals.mpr hi) (mem_sortedIntervals.mpr hj) hne with
    hsub | hsub
  · obtain ⟨c, hc, hslot⟩ := scanLine_names_first tick hstarts.2 hsorted hsub
    exact ⟨c, List.mem_append_right _ hc, Or.inl hslot⟩
  · obtain ⟨c, hc, hslot⟩ := scanLine_names_first tick hstarts.1 hsorted hsub
    exact ⟨c, List.mem_append_right _ hc, Or.inr hslot⟩

/-! ## The whole list -/

/-- A real entry names two intervals that meet. -/
theorem Conflict.Real.names {instrs : List Instruction}
    (hslots : (instrs.map (·.slot)).Nodup) {c : Conflict} (h : c.Real instrs) :
    ∃ i ∈ tickIntervals instrs, ∃ j ∈ tickIntervals instrs,
      i ≠ j ∧ i.Meets j ∧ c.Names i j := by
  obtain ⟨hlt, a, ha, b, hb, hsa, hsb, i, hi, j, hj, hne, hspan, hkind, horigins⟩ := h
  have hshared : c.overlapBegin ∈ i.span ∩ j.span := by
    rw [hspan, Set.mem_Ico]
    exact ⟨le_rfl, hlt⟩
  have hmem : ∀ ins ∈ instrs, ∀ x ∈ intervalsOf ins, c.overlapBegin ∈ x.span →
      x ∈ tickIntervals instrs ∧ x.slot = ins.slot := by
    intro ins hins x hx hin
    obtain ⟨hlo, hhi⟩ := Set.mem_Ico.mp hin
    rcases mem_intervalsOf.mp hx with rfl | rfl
    · exact ⟨mem_tickIntervals.mpr ⟨ins, hins, by simp only at hlo hhi; omega, hx, rfl⟩, rfl⟩
    · exact ⟨mem_tickIntervals.mpr ⟨ins, hins, by simp only at hlo hhi; omega, hx, rfl⟩, rfl⟩
  obtain ⟨hi', hislot⟩ := hmem a ha i hi hshared.1
  obtain ⟨hj', hjslot⟩ := hmem b hb j hj hshared.2
  refine ⟨i, hi', j, hj', hne, Set.not_disjoint_iff.mpr ⟨_, hshared⟩, ?_⟩
  by_cases hslot : c.slotA = c.slotB
  · obtain rfl := List.inj_on_of_nodup_map hslots ha hb (by rw [hsa, hsb, hslot])
    simp only [Conflict.Names, Conflict.keyA, Conflict.keyB, hkind.mpr hslot]
    rcases mem_intervalsOf.mp hi with rfl | rfl <;> rcases mem_intervalsOf.mp hj with rfl | rfl
    · exact absurd rfl hne
    · exact Or.inl ⟨by rw [← hsa]; rfl, by rw [← hsb]; rfl⟩
    · exact Or.inr ⟨by rw [← hsa]; rfl, by rw [← hsb]; rfl⟩
    · exact absurd rfl hne
  · left
    simp only [Conflict.keyA, Conflict.keyB, horigins hslot, Interval.key, hislot, hjslot, hsa,
      hsb, and_self]

/-- One conflict for each pair of intervals that meet, and every slot of such a
pair named. -/
def ExactReport (instrs : List Instruction) (tick : Nat) : Prop :=
  ∀ i ∈ tickIntervals instrs, ∀ j ∈ tickIntervals instrs, i ≠ j → i.Meets j →
    (checkTick instrs tick).countP (fun c => c.Names i j) = 1 ∧
      ∃ c ∈ checkTick instrs tick, c.slotA = i.slot ∨ c.slotB = i.slot

/-- **What the list of conflicts contains.** A pair of intervals that share a
bit is reported once if the two belong to one instruction, and once more if
they are neighbours in sorted order. Nothing else is reported, and at least one
slot of every such pair is named. -/
theorem checkTick_reports {instrs : List Instruction} (tick : Nat)
    (hslots : (instrs.map (·.slot)).Nodup) :
    (∀ i ∈ tickIntervals instrs, ∀ j ∈ tickIntervals instrs, i ≠ j → i.Meets j →
      (checkTick instrs tick).countP (fun c => c.Names i j) =
          (if i.slot = j.slot then 1 else 0) + (if Neighbours instrs i j then 1 else 0) ∧
        ∃ c ∈ checkTick instrs tick, c.slotA = i.slot ∨ c.slotA = j.slot) ∧
    (∀ c ∈ checkTick instrs tick, ∃ i ∈ tickIntervals instrs, ∃ j ∈ tickIntervals instrs,
      i ≠ j ∧ i.Meets j ∧ c.Names i j) := by
  constructor
  · intro i hi j hj hne hmeet
    refine ⟨?_, exists_named hi hj hne hmeet⟩
    rw [checkTick, List.countP_append, selfs_countP hslots hi hj hne hmeet]
    congr 1
    exact scan_countP hslots hi hj hmeet
  · intro c hc
    rcases List.mem_append.mp hc with hself | hscan
    · obtain ⟨ins, hins, hmem⟩ := List.mem_flatMap.mp hself
      exact (selfConflict_real hins hmem).names hslots
    · obtain ⟨prev, curr, hin, hmem⟩ := mem_scanLine_iff.mp hscan
      exact (neighbourConflict_real hslots hin hmem).names hslots

/-- A long destination over two short ones: three intervals, two overlaps. -/
def longLayer : List Instruction := [⟨0, 100, 0, 1000⟩, ⟨1, 8, 10, 2000⟩, ⟨2, 8, 30, 3000⟩]

theorem checkTick_reports_long :
    (longLayer.map (·.slot)).Nodup ∧
      (checkTick longLayer 0).countP
        (fun c => c.Names ⟨0, 100, 0, .dst⟩ ⟨10, 18, 1, .dst⟩) = 1 := by
  have hslots : (longLayer.map (·.slot)).Nodup := by decide
  refine ⟨hslots, ?_⟩
  have hreport := ((checkTick_reports 0 hslots).1 ⟨0, 100, 0, .dst⟩ (by decide)
    ⟨10, 18, 1, .dst⟩ (by decide) (by decide)
    ((meets_iff (by decide) (by decide)).mpr (by decide))).1
  rw [hreport]
  decide

/-- The overlap of slots 0 and 2 in this layer is not reported, slot 2 is never
named, and one instruction that overlaps itself is reported twice. -/
theorem not_exactReport_long :
    ((longLayer.map (·.slot)).Nodup ∧ ¬ ExactReport longLayer 0) ∧
      ¬ ExactReport [⟨0, 16, 100, 110⟩] 0 := by
  refine ⟨⟨by decide, ?_⟩, ?_⟩
  · intro h
    have hpair := (h ⟨30, 38, 2, .dst⟩ (by decide) ⟨0, 100, 0, .dst⟩ (by decide) (by decide)
      ((meets_iff (by decide) (by decide)).mpr (by decide))).2
    revert hpair
    decide
  · intro h
    have hpair := (h ⟨110, 126, 0, .src⟩ (by decide) ⟨100, 116, 0, .dst⟩ (by decide)
      (by decide) ((meets_iff (by decide) (by decide)).mpr (by decide))).1
    revert hpair
    decide

end SpaceVerifier.Verifier
