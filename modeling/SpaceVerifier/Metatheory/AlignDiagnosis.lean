import SpaceVerifier.Foundation.BitAgree
import SpaceVerifier.Metatheory.DrivenRun
import SpaceVerifier.Metatheory.StrictAlign

/-!
# What the strict-align check reports

The check reads the table, the cells and the pointers step by step and leaves at
the first test that fails. All its tests can be written down as one list, without
machine arithmetic, and the check answers with the first failing entry of that
list. The list depends on few bits of the memory: while an image is verified
to keep them, the check has to be called only once.
-/

namespace SpaceVerifier.Runtime

open Foundation Foundation.Traced

/-! ## Lists of tests -/

/-- A test, and the text that the check prints if it fails. -/
structure AlignTest where
  ok : Bool
  text : String
deriving DecidableEq, Repr

/-- The outcome of a list of tests is that of the first one to fail. -/
def alignOutcome (w : World) (tests : List AlignTest) : Int × World :=
  match tests.find? (!·.ok) with
  | none => (0, w)
  | some t => invariantFail w (failHead w ++ t.text)

section Outcome

variable {w : World} {t : AlignTest} {tests tests' : List AlignTest}

theorem alignOutcome_cons : alignOutcome w (t :: tests) =
    if t.ok then alignOutcome w tests else invariantFail w (failHead w ++ t.text) := by
  unfold alignOutcome
  cases hok : t.ok with
  | true =>
      rw [List.find?_cons_of_neg (by simp [hok])]
      rfl
  | false =>
      rw [List.find?_cons_of_pos (by simp [hok])]
      rfl

theorem alignOutcome_cases (w : World) (tests : List AlignTest) :
    ((∀ t ∈ tests, t.ok = true) ∧ alignOutcome w tests = (0, w)) ∨
      (¬ (∀ t ∈ tests, t.ok = true) ∧ (alignOutcome w tests).1 = -1) := by
  induction tests with
  | nil => exact Or.inl ⟨fun t ht => absurd ht List.not_mem_nil, rfl⟩
  | cons t tests ih =>
      rw [alignOutcome_cons, List.forall_mem_cons]
      cases hok : t.ok with
      | true => simpa using ih
      | false => exact Or.inr ⟨by simp, rfl⟩

theorem alignOutcome_zero_iff : (alignOutcome w tests).1 = 0 ↔ ∀ t ∈ tests, t.ok = true := by
  rcases alignOutcome_cases w tests with ⟨hall, hout⟩ | ⟨hnot, hout⟩
  · rw [hout]
    exact iff_of_true rfl hall
  · rw [hout]
    exact iff_of_false (by decide) hnot

/-- The code does not depend on the machine. -/
theorem alignOutcome_fst (w w' : World) :
    (alignOutcome w tests).1 = (alignOutcome w' tests).1 := by
  unfold alignOutcome
  split <;> rfl

theorem alignOutcome_append : alignOutcome w (tests ++ tests') =
    if (alignOutcome w tests).1 = 0 then alignOutcome w tests' else alignOutcome w tests := by
  induction tests with
  | nil => rfl
  | cons t tests ih =>
      rw [List.cons_append, alignOutcome_cons, alignOutcome_cons]
      cases t.ok with
      | true => exact ih
      | false => rfl

/-- `if (bad) return invariant_fail(…);` and the rest. -/
theorem alignOutcome_guard {bad : Prop} [Decidable bad] {ok : Bool} {text : String}
    {r : Int × World} (hbad : bad ↔ ¬ ok = true)
    (hrest : ok = true → r = alignOutcome w tests) :
    (if bad then invariantFail w (failHead w ++ text) else r) =
      alignOutcome w (⟨ok, text⟩ :: tests) := by
  rw [alignOutcome_cons]
  by_cases hok : ok = true
  · rw [if_neg fun hb => hbad.mp hb hok, if_pos hok, hrest hok]
  · rw [if_pos (hbad.mpr hok), if_neg hok]

theorem alignOutcome_unlessFailed {x : Traced Event (Int × World)}
    {f : World → Traced Event (Int × World)} (h : x.val = alignOutcome w tests)
    (hrest : (∀ t ∈ tests, t.ok = true) → (f w).val = alignOutcome w tests') :
    (unlessFailed x f).val = alignOutcome w (tests ++ tests') := by
  unfold unlessFailed
  simp only [val_bind, val_ite, val_pure]
  rw [alignOutcome_append, h]
  rcases alignOutcome_cases w tests with ⟨hall, hout⟩ | ⟨-, hout⟩
  · rw [hout]
    exact hrest hall
  · rw [hout, if_pos (by decide), if_neg (by decide), ← hout]

end Outcome

/-! ## The tests of the check -/

def VarCell.all : List VarCell := [.ap, .bp, .rp]

def VarCell.name : VarCell → String
  | .ap => "VAR_AP"
  | .bp => "VAR_BP"
  | .rp => "VAR_RP"

/-- The line about a cell outside the space. -/
def VarCell.outText : VarCell → String
  | .ap => "VAR_AP addr out of bounds\n"
  | .bp => "VAR_BP addr out of bounds\n"
  | .rp => "VAR_RP addr out of bounds\n"

/-- How a line about a pointer into the cell ends. -/
def VarCell.hitText : VarCell → String
  | .ap => " points into VAR_AP cell\n"
  | .bp => " points into VAR_BP cell\n"
  | .rp => " points into VAR_RP cell\n"

section Tests

variable (g : VmGeometry) (m : Mem)

def cellTest (c : VarCell) : AlignTest :=
  ⟨cellAddr g m c + g.addrBits ≤ g.spaceBits, c.outText⟩

/-- The tests of a pointer. A null pointer is not tested. -/
def pointerTests (c : VarCell) : List AlignTest :=
  let v := cellPtr g m c
  if v = 0 then []
  else
    [⟨v + 24 ≤ g.spaceBits,
        s!"{c.name}={v} is out of bounds (space_bits={g.spaceBits}, min_bits={24})\n"⟩,
      ⟨v % 32 = 0,
        s!"{c.name}={v} (at bitaddr={cellAddr g m c}) is not 32-bit aligned (bitaddr%32!=0)\n"⟩,
      ⟨g.workspaceBase ≤ v,
        s!"{c.name}={v} is in processor/MMIO region (workspace_base={g.workspaceBase})\n"⟩]

/-- The tests of the first bit of a STORE24. -/
def storeTests : List AlignTest :=
  let v := cellPtr g m .rp
  if v = 0 then []
  else
    ⟨v < g.workspaceBase ∨ artEnd g ≤ v,
        s!"VAR_RP={v} is in protected region (begin={g.workspaceBase} end={artEnd g})\n"⟩ ::
    VarCell.all.map fun c =>
      ⟨v < cellAddr g m c ∨ cellAddr g m c + g.addrBits ≤ v, s!"VAR_RP={v}{c.hitText}"⟩

/-- Everything the check tests, in order. -/
def alignTests : List AlignTest :=
  ⟨artEnd g ≤ g.spaceBits, "cannot locate ART (out of bounds)\n"⟩ ::
    (VarCell.all.map (cellTest g m) ++ (VarCell.all.flatMap (pointerTests g m) ++ storeTests g m))

end Tests

section Check

variable {g : VmGeometry} (hg : g.Wf) (ha : g.addrBits ≤ 56) {w : World} (hw : Ready g w)
include hg ha hw

theorem checkVarPtr_outcome (c : VarCell)
    (hfit : cellAddr g w.vm.mem c + g.addrBits ≤ g.spaceBits) :
    (checkVarPtr w c.name (cellAddr g w.vm.mem c) 24).val =
      alignOutcome w (pointerTests g w.vm.mem c) := by
  have hspace := spaceBits_lt hg ha
  unfold checkVarPtr pointerTests cellPtr
  simp only [val_bind, val_ite, val_pure]
  rw [hw.geometry, vmReadUint_val w.vm hg.addrBits_le (by omega)]
  generalize uintAt w.vm.mem.bit (cellAddr g w.vm.mem c) g.addrBits = v
  by_cases h0 : v = 0
  · rw [if_pos h0, if_pos h0]
    rfl
  · rw [if_neg h0, if_neg h0]
    have hbound : (v ≥ g.spaceBits ∨ add64 v 24 > g.spaceBits) ↔
        ¬ decide (v + 24 ≤ g.spaceBits) = true := by
      rw [decide_eq_true_iff]
      by_cases hv : v < g.spaceBits
      · rw [add64_of_lt (by omega)]
        omega
      · omega
    refine alignOutcome_guard hbound fun _ => alignOutcome_guard ?_ fun _ =>
      alignOutcome_guard ?_ fun _ => rfl
    · exact (not_congr decide_eq_true_iff).symm
    · rw [decide_eq_true_iff]
      exact not_le.symm

omit hw in
theorem checkRpProtected_outcome
    (hfit : ∀ c, cellAddr g w.vm.mem c + g.addrBits ≤ g.spaceBits) :
    checkRpProtected w (cellPtr g w.vm.mem .rp) g.workspaceBase (artEnd g)
        (cellAddr g w.vm.mem .ap) (cellAddr g w.vm.mem .bp) (cellAddr g w.vm.mem .rp)
        g.addrBits =
      alignOutcome w (storeTests g w.vm.mem) := by
  have hspace := spaceBits_lt hg ha
  have hinto : ∀ c, pointsInto (cellPtr g w.vm.mem .rp) (cellAddr g w.vm.mem c) g.addrBits =
      true ↔ ¬ decide (cellPtr g w.vm.mem .rp < cellAddr g w.vm.mem c ∨
        cellAddr g w.vm.mem c + g.addrBits ≤ cellPtr g w.vm.mem .rp) = true := by
    intro c
    have hcell := hfit c
    rw [pointsInto_iff (by omega), decide_eq_true_iff, Set.mem_Ico]
    omega
  have hap := hinto .ap
  have hbp := hinto .bp
  have hrp := hinto .rp
  unfold checkRpProtected storeTests
  simp only [VarCell.all, List.map_cons, List.map_nil]
  generalize cellPtr g w.vm.mem .rp = v at *
  by_cases h0 : v = 0
  · rw [if_pos h0, if_pos h0]
    rfl
  · rw [if_neg h0, if_neg h0]
    refine alignOutcome_guard ?_ fun _ => alignOutcome_guard hap fun _ =>
      alignOutcome_guard hbp fun _ => alignOutcome_guard hrp fun _ => rfl
    rw [decide_eq_true_iff]
    omega

theorem checkPointers_outcome
    (hfit : ∀ c, cellAddr g w.vm.mem c + g.addrBits ≤ g.spaceBits) :
    (checkPointers w (cellAddr g w.vm.mem .ap) (cellAddr g w.vm.mem .bp)
        (cellAddr g w.vm.mem .rp) (artEnd g)).val =
      alignOutcome w (VarCell.all.flatMap (pointerTests g w.vm.mem) ++
        storeTests g w.vm.mem) := by
  have hspace := spaceBits_lt hg ha
  have hcell := hfit .rp
  have hread : (vmReadUint w.vm (cellAddr g w.vm.mem .rp) g.addrBits).val =
      cellPtr g w.vm.mem .rp := vmReadUint_val w.vm hg.addrBits_le (by omega)
  have hlast : (do
      let rp ← vmReadUint w.vm (cellAddr g w.vm.mem .rp) w.vm.addrBits
      unlessFailed (pure (checkRpProtected w rp w.vm.workspaceBase (artEnd g)
        (cellAddr g w.vm.mem .ap) (cellAddr g w.vm.mem .bp) (cellAddr g w.vm.mem .rp)
        w.vm.addrBits)) fun w => pure (0, w)).val = alignOutcome w (storeTests g w.vm.mem) := by
    rw [hw.geometry, val_bind, hread, ← List.append_nil (storeTests g w.vm.mem)]
    exact alignOutcome_unlessFailed (checkRpProtected_outcome hg ha hfit) fun _ => rfl
  have htests : VarCell.all.flatMap (pointerTests g w.vm.mem) ++ storeTests g w.vm.mem =
      pointerTests g w.vm.mem .ap ++ (pointerTests g w.vm.mem .bp ++
        (pointerTests g w.vm.mem .rp ++ storeTests g w.vm.mem)) := by
    simp [VarCell.all]
  rw [htests]
  unfold checkPointers
  refine alignOutcome_unlessFailed (checkVarPtr_outcome hg ha hw .ap (hfit .ap)) fun _ => ?_
  refine alignOutcome_unlessFailed (checkVarPtr_outcome hg ha hw .bp (hfit .bp)) fun _ => ?_
  exact alignOutcome_unlessFailed (checkVarPtr_outcome hg ha hw .rp (hfit .rp)) fun _ => hlast

/-- **The check is its list of tests.** -/
theorem strictAlign_outcome : (vmInvariantsStrictAlign32Check w).val =
    alignOutcome w (alignTests g w.vm.mem) := by
  have hspace := spaceBits_lt hg ha
  obtain ⟨hart, hentry⟩ := artStart_eq hg ha
  have hcell : ∀ c : VarCell, (vmReadUint w.vm (artStart g + c.index * g.addrBits)
      g.addrBits).val = cellAddr g w.vm.mem c := by
    intro c
    have hlt := (hentry c.index (by cases c <;> decide)).2
    exact vmReadUint_val w.vm hg.addrBits_le (by omega)
  have hout : ∀ c, add64 (cellAddr g w.vm.mem c) g.addrBits > g.spaceBits ↔
      ¬ decide (cellAddr g w.vm.mem c + g.addrBits ≤ g.spaceBits) = true := by
    intro c
    have hlt : cellAddr g w.vm.mem c < 2 ^ g.addrBits := uintAt_lt _ _ _
    have hpow : 2 ^ g.addrBits ≤ 2 ^ 56 := Nat.pow_le_pow_right (by decide) ha
    rw [add64_of_lt (by omega), decide_eq_true_iff, not_le]
  unfold vmInvariantsStrictAlign32Check
  simp only [val_bind, val_ite, val_pure]
  rw [hw.geometry, hart, (hentry 61 le_rfl).1, (hentry 58 (by decide)).1,
    (hentry 59 (by decide)).1, (hentry 60 (by decide)).1]
  have hap := hcell .ap
  have hbp := hcell .bp
  have hrp := hcell .rp
  simp only [VarCell.index] at hap hbp hrp
  rw [hap, hbp, hrp]
  unfold alignTests
  simp only [VarCell.all, List.map_cons, List.map_nil, List.cons_append, List.nil_append, cellTest]
  refine alignOutcome_guard ?_ fun _ => alignOutcome_guard (hout .ap) fun h₁ =>
    alignOutcome_guard (hout .bp) fun h₂ => alignOutcome_guard (hout .rp) fun h₃ =>
      checkPointers_outcome hg ha hw (VarCell.forall_iff.mpr
        ⟨of_decide_eq_true h₁, of_decide_eq_true h₂, of_decide_eq_true h₃⟩)
  rw [decide_eq_true_iff]
  exact not_le.symm

end Check

/-- **The diagnosis of the check.** It answers with the first failing test of the
list: 0 and no effect if there is none, else -1, the tick and the alignment error in
`last_err`, one line on `stderr` and no other effect. No test fails exactly when
the pointers, the cells and the first bit of a STORE24 are as they should be. -/
theorem strictAlign_diagnosis {calloc : Nat → Bool} {S P : Nat} {vm : Vm}
    (h : Accepted calloc S P vm) (hlimit : CallocLimit calloc (2 ^ 53)) {w : World}
    (hw : Ready vm.toVmGeometry w) :
    (vmInvariantsStrictAlign32Check w).val =
      alignOutcome w (alignTests vm.toVmGeometry w.vm.mem) ∧
    ((∀ t ∈ alignTests vm.toVmGeometry w.vm.mem, t.ok = true) ↔
      CheckPasses vm.toVmGeometry w.vm.mem) := by
  obtain ⟨hg, ha⟩ := addrBits_le_of_limit h hlimit
  have hout := strictAlign_outcome hg ha hw
  refine ⟨hout, ?_⟩
  rw [← @alignOutcome_zero_iff w, ← hout]
  exact (strictAlign_tests hg ha hw).zero_iff

/-- A pointer that a STORE24 may use. -/
theorem strictAlign_diagnosis_table :
    (vmInvariantsStrictAlign32Check (tableWorld 0xA8)).val = (0, tableWorld 0xA8) := by
  obtain ⟨hout, hok⟩ := strictAlign_diagnosis tableVm_accepted (hostCalloc_limit.mono (by decide))
    (w := tableWorld 0xA8) ⟨rfl, rfl⟩
  rw [hout, alignOutcome, List.find?_eq_none.mpr (by decide)]

/-! ## The bits the check depends on -/

/-- The entries of the table and the cells they point to. -/
def pointerBits (g : VmGeometry) (m : Mem) : Set Nat :=
  {p | ∃ c : VarCell, p ∈ Set.Ico (artStart g + c.index * g.addrBits)
      (artStart g + c.index * g.addrBits + g.addrBits) ∨
    p ∈ Set.Ico (cellAddr g m c) (cellAddr g m c + g.addrBits)}

section Kept

variable {g : VmGeometry} {m m' : Mem} (h : Set.EqOn m'.bit m.bit (pointerBits g m))
include h

theorem cellAddr_kept (c : VarCell) : cellAddr g m' c = cellAddr g m c :=
  uintAt_eq_of_eqOn h fun _ hp => ⟨c, Or.inl hp⟩

theorem cellPtr_kept (c : VarCell) : cellPtr g m' c = cellPtr g m c := by
  unfold cellPtr
  rw [cellAddr_kept h c]
  exact uintAt_eq_of_eqOn h fun _ hp => ⟨c, Or.inr hp⟩

theorem alignTests_kept : alignTests g m' = alignTests g m := by
  unfold alignTests cellTest pointerTests storeTests
  simp only [cellAddr_kept h, cellPtr_kept h]

theorem storeSafe_kept : StoreSafe g m' ↔ StoreSafe g m := by
  constructor
  · rintro ⟨hptr, hregion, hcells⟩
    simp only [cellAddr_kept h, cellPtr_kept h] at hptr hregion hcells
    exact ⟨hptr, hregion, hcells⟩
  · rintro ⟨hptr, hregion, hcells⟩
    refine ⟨?_, ?_, ?_⟩
    all_goals simp only [cellAddr_kept h, cellPtr_kept h]
    · exact hptr
    · exact hregion
    · exact hcells

end Kept

end SpaceVerifier.Runtime

namespace SpaceVerifier.Verifier

open Foundation SpaceVerifier.Runtime

/-- The two hundred and fifty-six bytes of `tableWorld`, and one copy behind its cells. -/
def tableImage : List Byte :=
  [0, 8, 0x07, 0x30, 0, 160] ++ (List.range' 6 250).map (tableWorld 0xB8).vm.mem

def tableRegion : Region := { name := .str "tables", begin := .int 0, endBit := .int 1832 }

theorem tableImage_program : program (imageMem tableImage) 16 1 =
    [{ slot := 0, n := 8, dst := 1840, src := 160 }] := rfl

theorem tableImage_length : tableImage.length = 256 := by
  rw [tableImage, List.length_append, List.length_map, List.length_range']
  rfl

theorem tableImage_verified : Verified hostCalloc 256 1 tableVm [tableRegion] [] tableImage
    [{ slot := 0, n := 8, dst := 1840, src := 160 }] := by
  have hg := (tableVm_accepted.wf (hostCalloc_limit.mono (by decide))).1
  exact
    { accepted := tableVm_accepted
      limit := hostCalloc_limit.mono (by decide)
      bounds := by
        intro r hr
        obtain rfl := List.mem_singleton.mp hr
        exact ⟨0, 1832, rfl, rfl⟩
      covers := by
        intro p hp
        have hp' : p < 152 := hp
        exact ⟨tableRegion, List.mem_singleton_self _, 0, 1832, rfl, rfl, by omega, by omega⟩
      length := tableImage_length
      inReq := rfl
      passes := by
        refine ⟨_, 0, ⟨.pass, [], 1, 0⟩, resolve_ofSizes (by decide) 1 _ _, ?_, ?_, rfl⟩
        · have hlen : tableImage.length = tableVm.spaceBytes := tableImage_length
          rw [← tableImage_program]
          exact read_machine hg hlen _ _
        · rfl }

def tableStart : World := bareWorld (tableVm.withMem (imageMem tableImage))

end SpaceVerifier.Verifier
