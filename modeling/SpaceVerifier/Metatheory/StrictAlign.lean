import Mathlib
import SpaceVerifier.Runtime.Invariants
import SpaceVerifier.Metatheory.TickSafety

/-!
# What the strict-align check guarantees

The check reads the three cells through the table and tests the pointers they
hold. What it knows of `VAR_RP` is said about its first bit only: behind the
protected region that settles all 24 bits of a STORE24, but a cell that begins
inside the 24 bits, and not at their first, is missed.
-/

namespace SpaceVerifier.Runtime

open Foundation Foundation.Traced

/-! ## The table and the cells -/

/-- The three pointer variables. -/
inductive VarCell where
  | ap
  | bp
  | rp
deriving DecidableEq, Repr

/-- The entry of the table that holds the address of the cell. -/
def VarCell.index : VarCell → Nat
  | .ap => 58
  | .bp => 59
  | .rp => 60

section Table

variable (g : VmGeometry) (m : Mem)

/-- `ART`. -/
def artStart : Nat := (g.workspaceBase + 512 + 7) / 8 * 8

/-- The end of the part of the table that the check needs. -/
def artEnd : Nat := artStart g + 61 * g.addrBits

/-- Where the cell of a pointer variable lies. -/
def cellAddr (c : VarCell) : Nat :=
  uintAt m.bit (artStart g + c.index * g.addrBits) g.addrBits

/-- The pointer the cell holds. -/
def cellPtr (c : VarCell) : Nat := uintAt m.bit (cellAddr g m c) g.addrBits

/-- A pointer that LOAD24 and STORE24 may use. -/
def PointerOk (v : Nat) : Prop :=
  v = 0 ∨ (v % 32 = 0 ∧ g.workspaceBase ≤ v ∧ v + 24 ≤ g.spaceBits)

instance (v : Nat) : Decidable (PointerOk g v) :=
  inferInstanceAs (Decidable (_ ∨ _))

/-- `VAR_RP` is null, or its first bit is outside the protected region and
outside the cells. -/
def FirstBitFree : Prop :=
  cellPtr g m .rp = 0 ∨
    (cellPtr g m .rp ∉ Set.Ico g.workspaceBase (artEnd g) ∧
      ∀ c, cellPtr g m .rp ∉ Set.Ico (cellAddr g m c) (cellAddr g m c + g.addrBits))

/-- Everything the check tests. -/
structure CheckPasses : Prop where
  table : artEnd g ≤ g.spaceBits
  cells : ∀ c, cellAddr g m c + g.addrBits ≤ g.spaceBits
  pointers : ∀ c, PointerOk g (cellPtr g m c)
  firstBit : FirstBitFree g m

/-- What the next STORE24 relies on. -/
structure StoreSafe : Prop where
  pointers : ∀ c, PointerOk g (cellPtr g m c)
  region : cellPtr g m .rp ≠ 0 →
    Disjoint (Set.Ico (cellPtr g m .rp) (cellPtr g m .rp + 24))
      (Set.Ico g.workspaceBase (artEnd g))
  cells : cellPtr g m .rp ≠ 0 → ∀ c,
    Disjoint (Set.Ico (cellPtr g m .rp) (cellPtr g m .rp + 24))
      (Set.Ico (cellAddr g m c) (cellAddr g m c + g.addrBits))

/-- No cell begins behind the first bit of a STORE24. -/
def CellsClear : Prop :=
  cellPtr g m .rp = 0 ∨
    ∀ c, ¬ (cellPtr g m .rp < cellAddr g m c ∧ cellAddr g m c < cellPtr g m .rp + 24)

end Table

theorem VarCell.forall_iff {P : VarCell → Prop} : (∀ c, P c) ↔ P .ap ∧ P .bp ∧ P .rp := by
  constructor
  · intro h
    exact ⟨h .ap, h .bp, h .rp⟩
  · rintro ⟨hap, hbp, hrp⟩ c
    cases c with
    | ap => exact hap
    | bp => exact hbp
    | rp => exact hrp

/-! ## Sequences of tests

The check is a sequence of tests that ends at the first one to fail. -/

/-- `w'` is `w` up to the diagnostics. -/
def Diagnoses (w w' : World) : Prop :=
  ∃ e lines, w' = { w with vm := { w.vm with lastErr := e }, stderr := lines }

/-- `r` is the result of a test for `P`: passed without effect, or failed. -/
structure Tests (P : Prop) (w : World) (r : Int × World) : Prop where
  pass : P → r = (0, w)
  fail : ¬ P → r.1 = -1 ∧ Diagnoses w r.2

namespace Tests

variable {P Q : Prop} {w : World} {r : Int × World}

theorem done (w : World) : Tests True w (0, w) :=
  ⟨fun _ => rfl, fun h => absurd trivial h⟩

theorem congr (h : Tests P w r) (hPQ : P ↔ Q) : Tests Q w r :=
  ⟨fun hq => h.pass (hPQ.mpr hq), fun hq => h.fail fun hp => hq (hPQ.mp hp)⟩

theorem zero_iff (h : Tests P w r) : r.1 = 0 ↔ P := by
  constructor
  · intro h0
    by_contra hP
    rw [(h.fail hP).1] at h0
    cases h0
  · intro hP
    rw [h.pass hP]

/-- `if (bad) return invariant_fail(…);` and the rest. -/
theorem guard {bad : Prop} [Decidable bad] {line : String} (hbad : bad ↔ ¬ P)
    (hrest : P → Tests Q w r) :
    Tests (P ∧ Q) w (if bad then invariantFail w line else r) := by
  by_cases hP : P
  · rw [if_neg fun hb => hbad.mp hb hP]
    exact (hrest hP).congr (iff_and_self.mpr fun _ => hP)
  · rw [if_pos (hbad.mpr hP)]
    exact ⟨fun h => absurd h.1 hP, fun _ => ⟨rfl, _, _, rfl⟩⟩

theorem unlessFailed {x : Traced Event (Int × World)}
    {f : World → Traced Event (Int × World)} (h : Tests P w x.val)
    (hrest : P → Tests Q w (f w).val) : Tests (P ∧ Q) w (unlessFailed x f).val := by
  unfold Runtime.unlessFailed
  simp only [val_bind, val_ite, val_pure]
  by_cases hP : P
  · rw [if_neg (not_not.mpr (h.zero_iff.mpr hP)), h.pass hP]
    exact (hrest hP).congr (iff_and_self.mpr fun _ => hP)
  · rw [if_pos fun h0 => hP (h.zero_iff.mp h0)]
    exact ⟨fun h => absurd h.1 hP, fun _ => ⟨rfl, (h.fail hP).2⟩⟩

end Tests

/-! ## The parts of the check -/

theorem pointsInto_iff {rp cell width : Nat} (hfit : cell + width < 2 ^ 64) :
    pointsInto rp cell width = true ↔ ¬ rp ∉ Set.Ico cell (cell + width) := by
  unfold pointsInto
  rw [add64_of_lt hfit, not_not, Set.mem_Ico, decide_eq_true_eq]

/-- The tests on `VAR_RP`: only its first bit is looked at. -/
theorem checkRpProtected_tests (w : World) (rp b e : Nat) {ap bp rpc width : Nat}
    (hap : ap + width < 2 ^ 64) (hbp : bp + width < 2 ^ 64) (hrp : rpc + width < 2 ^ 64) :
    Tests (rp = 0 ∨ (rp ∉ Set.Ico b e ∧ rp ∉ Set.Ico ap (ap + width) ∧
        rp ∉ Set.Ico bp (bp + width) ∧ rp ∉ Set.Ico rpc (rpc + width)))
      w (checkRpProtected w rp b e ap bp rpc width) := by
  unfold checkRpProtected
  by_cases h0 : rp = 0
  · rw [if_pos h0]
    exact (Tests.done w).congr (iff_of_true trivial (Or.inl h0))
  · rw [if_neg h0]
    refine Tests.congr (Tests.guard not_not.symm fun _ => Tests.guard (pointsInto_iff hap) fun _ =>
      Tests.guard (pointsInto_iff hbp) fun _ => Tests.guard (pointsInto_iff hrp) fun _ =>
        Tests.done w) ?_
    simp only [h0, false_or, and_true]
    rfl

section Check

variable {g : VmGeometry} (hg : g.Wf) (ha : g.addrBits ≤ 56) {w : World} (hw : Ready g w)
include hg ha

/-- The space is small enough for every sum of the check. -/
theorem spaceBits_lt : g.spaceBits ≤ 2 ^ 56 := by
  have hbits := hg.spaceBits_le_pow
  have hpow : 2 ^ g.addrBits ≤ 2 ^ 56 := Nat.pow_le_pow_right (by decide) ha
  omega

include hw

theorem checkVarPtr_tests (name : String) {addr : Nat}
    (hfit : addr + g.addrBits ≤ g.spaceBits) :
    Tests (PointerOk g (uintAt w.vm.mem.bit addr g.addrBits)) w
      (checkVarPtr w name addr 24).val := by
  have hspace := spaceBits_lt hg ha
  unfold checkVarPtr
  simp only [val_bind, val_ite, val_pure]
  rw [hw.geometry, vmReadUint_val w.vm hg.addrBits_le (by omega)]
  generalize uintAt w.vm.mem.bit addr g.addrBits = v
  unfold PointerOk
  by_cases h0 : v = 0
  · rw [if_pos h0]
    exact (Tests.done w).congr (iff_of_true trivial (Or.inl h0))
  · rw [if_neg h0]
    -- a pointer inside the space does not wrap the sum
    have hbound : (v ≥ g.spaceBits ∨ add64 v 24 > g.spaceBits) ↔ ¬ v + 24 ≤ g.spaceBits := by
      by_cases hv : v < g.spaceBits
      · rw [add64_of_lt (by omega)]
        omega
      · omega
    refine (Tests.guard hbound fun _ => Tests.guard (P := v % 32 = 0) Iff.rfl fun _ =>
      Tests.guard (P := g.workspaceBase ≤ v) not_le.symm fun _ => Tests.done w).congr ?_
    simp only [h0, false_or, and_true]
    omega

/-- The three pointers and the region. -/
theorem checkPointers_tests
    (hcells : ∀ c, cellAddr g w.vm.mem c + g.addrBits ≤ g.spaceBits) :
    Tests ((∀ c, PointerOk g (cellPtr g w.vm.mem c)) ∧ FirstBitFree g w.vm.mem) w
      (checkPointers w (cellAddr g w.vm.mem .ap) (cellAddr g w.vm.mem .bp)
        (cellAddr g w.vm.mem .rp) (artEnd g)).val := by
  have hspace := spaceBits_lt hg ha
  obtain ⟨hap, hbp, hrp⟩ := VarCell.forall_iff.mp hcells
  -- the pointer is read a second time, from the same memory
  have hread : (vmReadUint w.vm (cellAddr g w.vm.mem .rp) g.addrBits).val =
      cellPtr g w.vm.mem .rp := vmReadUint_val w.vm hg.addrBits_le (by omega)
  have hfit : ∀ c, cellAddr g w.vm.mem c + g.addrBits < 2 ^ 64 := by
    intro c
    have hcell := hcells c
    omega
  have hregion := checkRpProtected_tests w (cellPtr g w.vm.mem .rp) g.workspaceBase
    (artEnd g) (hfit .ap) (hfit .bp) (hfit .rp)
  have hlast : Tests (FirstBitFree g w.vm.mem) w (do
      let rp ← vmReadUint w.vm (cellAddr g w.vm.mem .rp) w.vm.addrBits
      unlessFailed (pure (checkRpProtected w rp w.vm.workspaceBase (artEnd g)
        (cellAddr g w.vm.mem .ap) (cellAddr g w.vm.mem .bp) (cellAddr g w.vm.mem .rp)
        w.vm.addrBits)) fun w => pure (0, w)).val := by
    rw [hw.geometry, val_bind, hread]
    have hfree := hregion.congr (Q := FirstBitFree g w.vm.mem) (by
      rw [FirstBitFree, VarCell.forall_iff])
    exact (Tests.unlessFailed hfree fun _ => Tests.done w).congr (iff_of_eq (and_true _))
  refine Tests.congr ((checkVarPtr_tests hg ha hw "VAR_AP" hap).unlessFailed fun _ =>
    (checkVarPtr_tests hg ha hw "VAR_BP" hbp).unlessFailed fun _ =>
      (checkVarPtr_tests hg ha hw "VAR_RP" hrp).unlessFailed fun _ => hlast) ?_
  rw [VarCell.forall_iff, and_assoc, and_assoc]
  rfl

omit hw in
/-- No address of the table wraps. -/
theorem artStart_eq : align8Bits (add64 g.workspaceBase 512) = artStart g ∧
    ∀ k ≤ 61, add64 (artStart g) (k * g.addrBits % 2 ^ 64) = artStart g + k * g.addrBits ∧
      artStart g + k * g.addrBits ≤ 2 ^ 57 := by
  have hspace := spaceBits_lt hg ha
  have hbase := hg.workspaceBase_le
  constructor
  · rw [add64_of_lt (show g.workspaceBase + 512 < 2 ^ 64 by omega)]
    unfold align8Bits artStart
    rw [add64_of_lt (by omega)]
    simp only
    omega
  · intro k hk
    have hmul : k * g.addrBits ≤ 61 * 56 := Nat.mul_le_mul hk ha
    unfold artStart
    rw [Nat.mod_eq_of_lt (by omega), add64_of_lt (by omega)]
    exact ⟨rfl, by omega⟩

/-- **What the check tests**, and that passing it has no effect. -/
theorem strictAlign_tests : Tests (CheckPasses g w.vm.mem) w
    (vmInvariantsStrictAlign32Check w).val := by
  have hspace := spaceBits_lt hg ha
  obtain ⟨hart, hentry⟩ := artStart_eq hg ha
  have hcell : ∀ c : VarCell, (vmReadUint w.vm (artStart g + c.index * g.addrBits)
      g.addrBits).val = cellAddr g w.vm.mem c := by
    intro c
    have hlt := (hentry c.index (by cases c <;> decide)).2
    exact vmReadUint_val w.vm hg.addrBits_le (by omega)
  have hout : ∀ c, add64 (cellAddr g w.vm.mem c) g.addrBits > g.spaceBits ↔
      ¬ cellAddr g w.vm.mem c + g.addrBits ≤ g.spaceBits := by
    intro c
    have hlt : cellAddr g w.vm.mem c < 2 ^ g.addrBits := uintAt_lt _ _ _
    have hpow : 2 ^ g.addrBits ≤ 2 ^ 56 := Nat.pow_le_pow_right (by decide) ha
    rw [add64_of_lt (by omega)]
    omega
  unfold vmInvariantsStrictAlign32Check
  simp only [val_bind, val_ite, val_pure]
  rw [hw.geometry, hart, (hentry 61 le_rfl).1, (hentry 58 (by decide)).1,
    (hentry 59 (by decide)).1, (hentry 60 (by decide)).1]
  have hap := hcell .ap
  have hbp := hcell .bp
  have hrp := hcell .rp
  simp only [VarCell.index] at hap hbp hrp
  rw [hap, hbp, hrp]
  refine (Tests.guard (P := artEnd g ≤ g.spaceBits) not_le.symm fun _ =>
    Tests.guard (hout .ap) fun h₁ => Tests.guard (hout .bp) fun h₂ =>
      Tests.guard (hout .rp) fun h₃ =>
        checkPointers_tests hg ha hw (VarCell.forall_iff.mpr ⟨h₁, h₂, h₃⟩)).congr ?_
  constructor
  · rintro ⟨htable, h₁, h₂, h₃, hptr, hfree⟩
    exact ⟨htable, VarCell.forall_iff.mpr ⟨h₁, h₂, h₃⟩, hptr, hfree⟩
  · rintro ⟨htable, hcells, hptr, hfree⟩
    obtain ⟨h₁, h₂, h₃⟩ := VarCell.forall_iff.mp hcells
    exact ⟨htable, h₁, h₂, h₃, hptr, hfree⟩

end Check

/-! ## The 24 bits of a STORE24 -/

/-- A range that begins outside another meets it only by running into it. -/
theorem disjoint_Ico_iff {a b n k : Nat} (hn : 0 < n) (hk : 0 < k)
    (ha : a ∉ Set.Ico b (b + k)) :
    Disjoint (Set.Ico a (a + n)) (Set.Ico b (b + k)) ↔ ¬ (a < b ∧ b < a + n) := by
  rw [Set.mem_Ico] at ha
  rw [Set.Ico_disjoint_Ico]
  omega

/-- **What a passing check leaves open.** The pointers and the protected region
are settled, and the cells are if none begins inside the 24 bits. -/
theorem CheckPasses.storeSafe_iff {g : VmGeometry} {m : Mem} (hg : g.Wf)
    (h : CheckPasses g m) : StoreSafe g m ↔ CellsClear g m := by
  have ha := hg.addrBits_ge
  constructor
  · intro hsafe
    by_cases h0 : cellPtr g m .rp = 0
    · exact Or.inl h0
    · right
      intro c
      have hfree := (h.firstBit.resolve_left h0).2 c
      exact (disjoint_Ico_iff (by decide) (by omega) hfree).mp (hsafe.cells h0 c)
  · intro hclear
    refine ⟨h.pointers, ?_, ?_⟩
    · -- above the base and outside the region is behind the region
      intro h0
      obtain ⟨-, hbase, -⟩ := (h.pointers .rp).resolve_left h0
      have hfree := (h.firstBit.resolve_left h0).1
      rw [Set.mem_Ico] at hfree
      rw [Set.Ico_disjoint_Ico]
      omega
    · intro h0 c
      have hfree := (h.firstBit.resolve_left h0).2 c
      exact (disjoint_Ico_iff (by decide) (by omega) hfree).mpr
        (hclear.resolve_left h0 c)

/-- **Exactly when a passing check makes STORE24 safe.** -/
theorem strictAlign_safe_iff {calloc : Nat → Bool} {S P : Nat} {vm : Vm}
    (h : Accepted calloc S P vm) (hlimit : CallocLimit calloc (2 ^ 53)) {w : World}
    (hw : Ready vm.toVmGeometry w)
    (hpass : (vmInvariantsStrictAlign32Check w).val.1 = 0) :
    StoreSafe vm.toVmGeometry w.vm.mem ↔ CellsClear vm.toVmGeometry w.vm.mem := by
  obtain ⟨hg, ha⟩ := addrBits_le_of_limit h hlimit
  exact ((strictAlign_tests hg ha hw).zero_iff.mp hpass).storeSafe_iff hg

/-- A machine of 256 bytes, one slot and 16-bit addresses: its table ends at bit
1640 and leaves 51 bytes for the cells. -/
def tableVm : Vm :=
  { Vm.zero with
    toVmGeometry :=
      { spaceBytes := 256, spaceBits := 2048, processorN := 1, addrBits := 16, nBits := 16
        instrBits := 48, instrBytes := 6, processorStart := 0, processorBits := 48
        offN := 0, offDst := 16, offSrc := 32, mmio := mmioAt 48 16, workspaceBase := 152 }
    space := some fun _ => 0 }

theorem tableVm_accepted : Accepted hostCalloc 256 1 tableVm :=
  ⟨by decide, by decide, rfl⟩

/-- `VAR_RP` holds 1696; its cell is at bit 1800, that of `VAR_BP` at 1816, and
the cell of `VAR_AP` begins at bit `0x0600 + ap`. -/
def tableWorld (ap : Byte) : World :=
  bareWorld (tableVm.withMem fun i =>
    if i = 199 then 0x06 else if i = 200 then ap
    else if i = 201 then 0x07 else if i = 202 then 0x18
    else if i = 203 then 0x07 else if i = 204 then 0x08
    else if i = 225 then 0x06 else if i = 226 then 0xA0 else 0)

/-- The cell of `VAR_AP` directly behind the 24 bits. -/
theorem strictAlign_safe_iff_behind :
    (vmInvariantsStrictAlign32Check (tableWorld 0xB8)).val.1 = 0 ∧
      StoreSafe tableVm.toVmGeometry (tableWorld 0xB8).vm.mem :=
  have hpass : (vmInvariantsStrictAlign32Check (tableWorld 0xB8)).val.1 = 0 := by decide
  ⟨hpass, (strictAlign_safe_iff tableVm_accepted (hostCalloc_limit.mono (by decide))
    (w := tableWorld 0xB8) ⟨rfl, rfl⟩ hpass).mpr
      (Or.inr fun c => by cases c <;> decide)⟩

/-- The cell of `VAR_AP` eight bits behind `VAR_RP`: the check passes, and the
next STORE24 overwrites the cell. -/
theorem strictAlign_unsafe :
    (vmInvariantsStrictAlign32Check (tableWorld 0xA8)).val.1 = 0 ∧
      ¬ StoreSafe tableVm.toVmGeometry (tableWorld 0xA8).vm.mem := by
  refine ⟨by decide, ?_⟩
  intro hsafe
  have hdisjoint := hsafe.cells (by decide) .ap
  have hstore : 1704 ∈ Set.Ico (cellPtr tableVm.toVmGeometry (tableWorld 0xA8).vm.mem .rp)
      (cellPtr tableVm.toVmGeometry (tableWorld 0xA8).vm.mem .rp + 24) := by decide
  have hcell : 1704 ∈ Set.Ico (cellAddr tableVm.toVmGeometry (tableWorld 0xA8).vm.mem .ap)
      (cellAddr tableVm.toVmGeometry (tableWorld 0xA8).vm.mem .ap +
        tableVm.toVmGeometry.addrBits) := by decide
  exact Set.disjoint_left.mp hdisjoint hstore hcell

end SpaceVerifier.Runtime
