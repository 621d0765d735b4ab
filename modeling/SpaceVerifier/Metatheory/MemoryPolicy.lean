import Mathlib
import SpaceVerifier.Metatheory.MemoryVerdict

/-!
# L1 against the policy it decides

The policy is about sets of bits. On integer bounds no comparison of
`check_layer` raises, and each of its tests is a statement about these sets:
the boundary and the protected regions exactly as the policy has them, the
allowed regions one by one. A range that only the union of several allowed
regions covers is rejected.
-/

namespace SpaceVerifier.Verifier

open Foundation

/-! ## Regions as sets of bits -/

/-- Both bounds are integers, and no region is empty. -/
def OrderedBounds (rs : List Region) : Prop :=
  ∀ r ∈ rs, ∃ b e : Int, r.begin = .int b ∧ r.endBit = .int e ∧ b < e

/-- The bits an instruction writes. -/
def Instruction.dstSet (ins : Instruction) : Set Nat := Set.Ico ins.dst (ins.dst + ins.n)

theorem mem_bits_iff {r : Region} {b e : Int} (hb : r.begin = .int b)
    (he : r.endBit = .int e) (p : Nat) : p ∈ r.bits ↔ b ≤ p ∧ (p : Int) < e := by
  constructor
  · rintro ⟨b', e', hb', he', hin⟩
    obtain rfl := PyVal.int.inj (hb.symm.trans hb')
    obtain rfl := PyVal.int.inj (he.symm.trans he')
    exact hin
  · exact fun hin => ⟨b, e, hb, he, hin⟩

theorem contains_int {r : Region} {b e : Int} (hb : r.begin = .int b)
    (he : r.endBit = .int e) (addr n : Int) :
    r.contains addr n = .ok (decide (b ≤ addr ∧ addr + n ≤ e)) := by
  unfold Region.contains
  rw [hb, he, PyVal.lt_int, PyVal.lt_int]
  by_cases h₁ : addr < b
  · have hno : ¬ (b ≤ addr ∧ addr + n ≤ e) := by omega
    rw [decide_eq_false hno, decide_eq_true h₁]
    rfl
  · rw [decide_eq_false h₁]
    by_cases h₂ : e < addr + n
    · have hno : ¬ (b ≤ addr ∧ addr + n ≤ e) := by omega
      rw [decide_eq_false hno, decide_eq_true h₂]
      rfl
    · have hyes : b ≤ addr ∧ addr + n ≤ e := by omega
      rw [decide_eq_true hyes, decide_eq_false h₂]
      rfl

section Region

variable {ins : Instruction} (hn : 0 < ins.n) {r : Region} {b e : Int}
  (hb : r.begin = .int b) (he : r.endBit = .int e)
include hn hb he

/-- Between non-empty ranges `intersects` is a shared bit. -/
theorem intersects_iff (hbe : b < e) :
    (b < (ins.dst : Int) + ins.n ∧ (ins.dst : Int) < e) ↔ ¬ Disjoint ins.dstSet r.bits := by
  rw [Set.not_disjoint_iff]
  constructor
  · rintro ⟨h₁, h₂⟩
    -- the first bit that both ranges can have
    refine ⟨max ins.dst b.toNat, ?_, (mem_bits_iff hb he _).mpr ?_⟩
    · rw [Instruction.dstSet, Set.mem_Ico]
      omega
    · omega
  · rintro ⟨p, hp, hbits⟩
    obtain ⟨h₁, h₂⟩ := (mem_bits_iff hb he p).mp hbits
    rw [Instruction.dstSet, Set.mem_Ico] at hp
    omega

/-- `contains` is the inclusion of the written bits in one region. -/
theorem contains_iff :
    (b ≤ (ins.dst : Int) ∧ (ins.dst : Int) + ins.n ≤ e) ↔ ins.dstSet ⊆ r.bits := by
  constructor
  · rintro ⟨h₁, h₂⟩ p hp
    rw [Instruction.dstSet, Set.mem_Ico] at hp
    exact (mem_bits_iff hb he p).mpr ⟨by omega, by omega⟩
  · intro hsub
    have hfirst := (mem_bits_iff hb he ins.dst).mp
      (hsub (Set.mem_Ico.mpr ⟨le_rfl, by omega⟩))
    have hlast := (mem_bits_iff hb he (ins.dst + ins.n - 1)).mp
      (hsub (Set.mem_Ico.mpr ⟨by omega, by omega⟩))
    omega

end Region

/-! ## The two loops over regions -/

section Loops

variable {ins : Instruction} (hn : 0 < ins.n)
include hn

theorem firstIntersecting_spec {rs : List Region} (hrs : OrderedBounds rs) :
    ∃ hit, firstIntersecting ins.dst ins.n rs = .ok hit ∧
      (hit = none ↔ ∀ r ∈ rs, Disjoint ins.dstSet r.bits) := by
  induction rs with
  | nil => exact ⟨none, rfl, by simp⟩
  | cons r rs ih =>
      obtain ⟨b, e, hb, he, hbe⟩ := hrs r List.mem_cons_self
      have hmeet := intersects_iff hn hb he hbe
      rw [firstIntersecting, intersects_int hb he]
      by_cases h : b < (ins.dst : Int) + ins.n ∧ (ins.dst : Int) < e
      · rw [decide_eq_true h]
        refine ⟨some r, rfl, iff_of_false (Option.some_ne_none r) ?_⟩
        intro hall
        exact hmeet.mp h (hall r List.mem_cons_self)
      · obtain ⟨hit, hhit, hspec⟩ := ih fun r hr => hrs r (List.mem_cons_of_mem _ hr)
        rw [decide_eq_false h]
        refine ⟨hit, hhit, ?_⟩
        rw [hspec, List.forall_mem_cons]
        have hhead : Disjoint ins.dstSet r.bits := not_not.mp fun hd => h (hmeet.mpr hd)
        exact (and_iff_right hhead).symm

theorem isInAllowed_spec {rs : List Region} (hrs : OrderedBounds rs) :
    ∃ inside, isInAllowed ins.dst ins.n rs = .ok inside ∧
      (inside = true ↔ ∃ r ∈ rs, ins.dstSet ⊆ r.bits) := by
  induction rs with
  | nil => exact ⟨false, rfl, by simp⟩
  | cons r rs ih =>
      obtain ⟨b, e, hb, he, -⟩ := hrs r List.mem_cons_self
      have hsub := contains_iff hn hb he
      rw [isInAllowed, contains_int hb he]
      by_cases h : b ≤ (ins.dst : Int) ∧ (ins.dst : Int) + ins.n ≤ e
      · rw [decide_eq_true h]
        exact ⟨true, rfl, iff_of_true rfl ⟨r, List.mem_cons_self, hsub.mp h⟩⟩
      · obtain ⟨inside, hinside, hspec⟩ := ih fun r hr => hrs r (List.mem_cons_of_mem _ hr)
        rw [decide_eq_false h]
        refine ⟨inside, hinside, ?_⟩
        rw [hspec, List.exists_mem_cons_iff]
        exact (or_iff_right fun hd => h (hsub.mpr hd)).symm

end Loops

/-! ## The policy -/

/-- The boundary and the protected regions of the policy. -/
def Instruction.SafeIn (ins : Instruction) (cfg : Config) (S : Int) : Prop :=
  (ins.dst : Int) + ins.n ≤ 8 * S ∧ ∀ r ∈ cfg.protectedRegions, Disjoint ins.dstSet r.bits

/-- The bits of a list of regions. -/
def unionBits (rs : List Region) : Set Nat := {p | ∃ r ∈ rs, p ∈ r.bits}

/-- The policy with the union of the allowed regions. -/
def UnionPolicy (cfg : Config) (S : Int) (instrs : List Instruction) : Prop :=
  ∀ ins ∈ instrs, 0 < ins.n → ins.SafeIn cfg S ∧
    (cfg.allowedRegions ≠ [] → ins.dstSet ⊆ unionBits cfg.allowedRegions)

/-- The policy with one allowed region for each instruction. -/
def RegionPolicy (cfg : Config) (S : Int) (instrs : List Instruction) : Prop :=
  ∀ ins ∈ instrs, 0 < ins.n → ins.SafeIn cfg S ∧
    (cfg.allowedRegions ≠ [] → ∃ r ∈ cfg.allowedRegions, ins.dstSet ⊆ r.bits)

section Policy

variable {cfg : Config} (hprot : OrderedBounds cfg.protectedRegions)
  (hallow : OrderedBounds cfg.allowedRegions)
include hprot hallow

/-- The regions are reported on exactly when they break the policy. -/
theorem regionReport_spec (tick : Nat) {ins : Instruction} (hn : 0 < ins.n) :
    ∃ vs, RegionReport cfg tick ins vs ∧
      (vs = [] ↔ (∀ r ∈ cfg.protectedRegions, Disjoint ins.dstSet r.bits) ∧
        (cfg.allowedRegions ≠ [] → ∃ r ∈ cfg.allowedRegions, ins.dstSet ⊆ r.bits)) := by
  obtain ⟨hit, hhit, hmeet⟩ := firstIntersecting_spec hn hprot
  obtain ⟨inside, hinside, hsub⟩ := isInAllowed_spec hn hallow
  have hprotected : protectedPart tick ins hit = [] ↔ hit = none := by
    cases hit <;> simp [protectedPart]
  rw [← hmeet]
  cases hempty : cfg.allowedRegions with
  | nil =>
      refine ⟨protectedPart tick ins hit, ⟨hit, hhit, Or.inl ⟨by rw [hempty]; rfl, rfl⟩⟩, ?_⟩
      rw [hprotected]
      simp
  | cons r rs =>
      refine ⟨protectedPart tick ins hit ++ allowedPart tick ins inside,
        ⟨hit, hhit, Or.inr ⟨by rw [hempty]; rfl, inside, hinside, rfl⟩⟩, ?_⟩
      have hallowed : allowedPart tick ins inside = [] ↔ inside = true := by
        cases inside <;> simp [allowedPart]
      rw [List.append_eq_nil_iff, hprotected, hallowed, hsub, hempty]
      simp

variable {S : Int} (hS : cfg.spaceBytes = .int S)
include hS

/-- One instruction is reported on exactly when it breaks the policy. -/
theorem checkInstr_spec (tick : Nat) (ins : Instruction) :
    ∃ vs, checkInstr cfg tick ins = .ok vs ∧
      (vs = [] ↔ (0 < ins.n → ins.SafeIn cfg S ∧
        (cfg.allowedRegions ≠ [] → ∃ r ∈ cfg.allowedRegions, ins.dstSet ⊆ r.bits))) := by
  rcases Nat.eq_zero_or_pos ins.n with hn | hn
  · refine ⟨[], ?_, iff_of_true rfl fun h => absurd h (by omega)⟩
    rw [checkInstr, show ins.isNop = true by simp [Instruction.isNop, hn]]
    rfl
  · have hnop : ins.isNop = false := by simp [Instruction.isNop, Nat.pos_iff_ne_zero.mp hn]
    have hbits : cfg.spaceBits = .ok (.int (S * 2 ^ 3)) := by
      rw [Config.spaceBits, hS]
      rfl
    by_cases hout : S * 2 ^ 3 < ((ins.dst + ins.n : Nat) : Int)
    · refine ⟨_, (checkInstr_eq_ok hnop).mpr ⟨_, hbits, Or.inl ⟨?_, rfl⟩⟩, ?_⟩
      · rw [PyVal.lt_int, decide_eq_true hout]
      · refine iff_of_false (List.cons_ne_nil _ _) ?_
        intro h
        have hle := (h hn).1.1
        omega
    · obtain ⟨vs, hreport, hspec⟩ := regionReport_spec hprot hallow tick hn
      refine ⟨vs, (checkInstr_eq_ok hnop).mpr ⟨_, hbits, Or.inr ⟨?_, hreport⟩⟩, ?_⟩
      · rw [PyVal.lt_int, decide_eq_false hout]
      · have hle : (ins.dst : Int) + ins.n ≤ 8 * S := by omega
        rw [hspec]
        unfold Instruction.SafeIn
        tauto

theorem checkInstrs_spec (tick : Nat) (instrs : List Instruction) :
    ∃ vs, checkInstrs cfg tick instrs = .ok vs ∧
      (vs = [] ↔ RegionPolicy cfg S instrs) := by
  induction instrs with
  | nil => exact ⟨[], rfl, by simp [RegionPolicy]⟩
  | cons ins rest ih =>
      obtain ⟨here, hhere, hspec⟩ := checkInstr_spec hprot hallow hS tick ins
      obtain ⟨vs, hvs, hrest⟩ := ih
      refine ⟨here ++ vs, ?_, ?_⟩
      · rw [checkInstrs]
        exact bind_eq_ok.mpr ⟨here, hhere, bind_eq_ok.mpr ⟨vs, hvs, rfl⟩⟩
      · rw [List.append_eq_nil_iff, hspec, hrest]
        unfold RegionPolicy
        rw [List.forall_mem_cons]

/-- **The L1 verdict is the policy with single allowed regions.** On integer
bounds `check_layer` returns, and it passes if and only if every instruction
with `n > 0` stays in the space, meets no protected region and, when there are
allowed regions, lies inside one of them. -/
theorem checkLayer_pass_iff (instrs : List Instruction) (tick : Nat) :
    ∃ res, checkLayer cfg instrs tick = .ok res ∧
      (res.status = .pass ↔ RegionPolicy cfg S instrs) := by
  obtain ⟨vs, hvs, hspec⟩ := checkInstrs_spec hprot hallow hS tick instrs
  refine ⟨_, bind_eq_ok.mpr ⟨vs, hvs, rfl⟩, ?_⟩
  rw [← hspec]
  cases vs with
  | nil => exact iff_of_true rfl rfl
  | cons v vs => exact iff_of_false (fun h => nomatch h) (List.cons_ne_nil v vs)

end Policy

/-- Two adjacent allowed regions of one byte each. -/
def adjacentConfig : Config :=
  { Config.default with
    spaceBytes := .int 16
    allowedRegions := [⟨.str "LOW", .int 0, .int 8⟩, ⟨.str "HIGH", .int 8, .int 16⟩] }

theorem adjacentConfig_bounds :
    OrderedBounds adjacentConfig.protectedRegions ∧
      OrderedBounds adjacentConfig.allowedRegions := by
  constructor
  · intro r hr
    exact absurd hr List.not_mem_nil
  · intro r hr
    simp only [adjacentConfig, List.mem_cons, List.not_mem_nil, or_false] at hr
    rcases hr with rfl | rfl
    · exact ⟨0, 8, rfl, rfl, by decide⟩
    · exact ⟨8, 16, rfl, rfl, by decide⟩

theorem checkLayer_pass_iff_adjacent :
    ∃ res, checkLayer adjacentConfig [⟨0, 8, 8, 0⟩] 0 = .ok res ∧
      (res.status = .pass ↔ RegionPolicy adjacentConfig 16 [⟨0, 8, 8, 0⟩]) :=
  checkLayer_pass_iff adjacentConfig_bounds.1 adjacentConfig_bounds.2 rfl _ 0

/-- A byte across the border of the two regions lies in their union, and the
layer fails. -/
theorem unionPolicy_fails :
    OrderedBounds adjacentConfig.allowedRegions ∧
      UnionPolicy adjacentConfig 16 [⟨0, 8, 4, 100⟩] ∧
      ∃ res, checkLayer adjacentConfig [⟨0, 8, 4, 100⟩] 0 = .ok res ∧
        res.status = .fail := by
  refine ⟨adjacentConfig_bounds.2, ?_, _, rfl, rfl⟩
  intro ins hins _
  obtain rfl := List.mem_singleton.mp hins
  refine ⟨⟨by decide, fun r hr => absurd hr List.not_mem_nil⟩, fun _ p hp => ?_⟩
  rw [Instruction.dstSet, Set.mem_Ico] at hp
  by_cases hlow : p < 8
  · exact ⟨⟨.str "LOW", .int 0, .int 8⟩, by simp [adjacentConfig],
      (mem_bits_iff rfl rfl p).mpr (by omega)⟩
  · exact ⟨⟨.str "HIGH", .int 8, .int 16⟩, by simp [adjacentConfig],
      (mem_bits_iff rfl rfl p).mpr (by simp only at hp; omega)⟩

/-! ## Region tests on any integer bounds -/

/-- Both tests say of a range what its bit positions say. -/
structure RegionTestsExact (r : Region) (b e addr n : Int) : Prop where
  contains : r.contains addr n = .ok true ↔
    ∀ p, addr ≤ p → p < addr + n → b ≤ p ∧ p < e
  intersects : r.intersects addr n = .ok true ↔
    ∃ p, (addr ≤ p ∧ p < addr + n) ∧ b ≤ p ∧ p < e

section AnyBounds

variable {r : Region} {b e : Int} (hb : r.begin = .int b) (he : r.endBit = .int e)
  {addr n : Int} (hn : 1 ≤ n)
include hb he hn

/-- `contains` is inclusion, also for an empty or an inverted region: a range
of at least one bit lies in no such region. -/
theorem contains_ok_true_iff : r.contains addr n = .ok true ↔
    ∀ p, addr ≤ p → p < addr + n → b ≤ p ∧ p < e := by
  rw [contains_int hb he, Except.ok.injEq, decide_eq_true_iff]
  constructor
  · rintro ⟨h₁, h₂⟩ p hlo hhi
    exact ⟨by omega, by omega⟩
  · intro h
    have hfirst := h addr le_rfl (by omega)
    have hlast := h (addr + n - 1) (by omega) (by omega)
    exact ⟨hfirst.1, by omega⟩

/-- `intersects` compares end points, which a region without bits can pass
between. -/
theorem intersects_ok_true_iff : r.intersects addr n = .ok true ↔
    (∃ p, (addr ≤ p ∧ p < addr + n) ∧ b ≤ p ∧ p < e) ∨
      (e ≤ b ∧ b < addr + n ∧ addr < e) := by
  rw [intersects_int hb he, Except.ok.injEq, decide_eq_true_iff]
  constructor
  · rintro ⟨h₁, h₂⟩
    rcases lt_or_ge b e with hbe | hbe
    · left
      exact ⟨max addr b, by omega, by omega⟩
    · right
      exact ⟨hbe, h₁, h₂⟩
  · rintro (⟨p, hp, hin⟩ | ⟨-, h⟩)
    · omega
    · exact h

/-- **Exactly when the region tests mean what their sets mean.** `contains`
always does; `intersects` does if and only if the region has a bit, or the range
does not reach across its bounds. -/
theorem regionTestsExact_iff :
    RegionTestsExact r b e addr n ↔ b < e ∨ e ≤ addr ∨ addr + n ≤ b := by
  have hcontains := @contains_ok_true_iff r b e hb he addr n hn
  have hmeets := @intersects_ok_true_iff r b e hb he addr n hn
  constructor
  · intro h
    by_contra hno
    have hacross : e ≤ b ∧ b < addr + n ∧ addr < e := by omega
    obtain ⟨p, -, hin⟩ := h.intersects.mp (hmeets.mpr (Or.inr hacross))
    omega
  · intro hok
    refine ⟨hcontains, ?_⟩
    rw [hmeets]
    apply or_iff_left
    rintro ⟨h₁, h₂, h₃⟩
    omega

end AnyBounds

theorem regionTestsExact_iff_inside :
    RegionTestsExact ⟨.str "test", .int 100, .int 200⟩ 100 200 150 50 :=
  (regionTestsExact_iff rfl rfl (by decide)).mpr (by decide)

/-- An inverted region has no bit, and a range around it is said to meet it. -/
theorem regionTests_inverted :
    ¬ RegionTestsExact ⟨.str "bad", .int 200, .int 100⟩ 200 100 50 200 := by
  intro h
  obtain ⟨p, -, hin⟩ := h.intersects.mp rfl
  omega

end SpaceVerifier.Verifier
