import SpaceVerifier.Foundation.ExceptList
import SpaceVerifier.Verifier.MemoryCheck

/-!
# What L1 decides

One inversion lemma says everything the body of `check_layer` can do with an
instruction. The rest of the module is read off it: on which inputs no
comparison raises, and what it means that nothing is reported.
-/

namespace SpaceVerifier.Verifier

open Foundation

/-! ## Protected bits -/

/-- The bounds of the regions are integers, none is null. -/
def IntBounds (rs : List Region) : Prop :=
  ∀ r ∈ rs, ∃ b e : Int, r.begin = .int b ∧ r.endBit = .int e

/-- The bits of a region with integer bounds. -/
def Region.bits (r : Region) : Set Nat :=
  {p | ∃ b e : Int, r.begin = .int b ∧ r.endBit = .int e ∧ b ≤ p ∧ p < e}

def protectedBits (rs : List Region) : Set Nat := {p | ∃ r ∈ rs, p ∈ r.bits}

theorem intersects_int {r : Region} {b e : Int} (hb : r.begin = .int b)
    (he : r.endBit = .int e) (addr n : Int) :
    r.intersects addr n = .ok (decide (b < addr + n ∧ addr < e)) := by
  unfold Region.intersects
  rw [hb, he, PyVal.le_int, PyVal.le_int]
  by_cases h₁ : addr + n ≤ b
  · have hno : ¬ (b < addr + n ∧ addr < e) := by omega
    rw [decide_eq_false hno, decide_eq_true h₁]
    rfl
  · rw [decide_eq_false h₁]
    by_cases h₂ : e ≤ addr
    · have hno : ¬ (b < addr + n ∧ addr < e) := by omega
      rw [decide_eq_false hno, decide_eq_true h₂]
      rfl
    · have hyes : b < addr + n ∧ addr < e := by omega
      rw [decide_eq_true hyes, decide_eq_false h₂]
      rfl

/-- No protected region is met: the range lies outside all their bits. -/
theorem firstIntersecting_none {rs : List Region} (hrs : IntBounds rs) {dst n : Nat}
    (h : firstIntersecting dst n rs = .ok none) {p : Nat} (hp : p ∈ protectedBits rs) :
    p ∉ Set.Ico dst (dst + n) := by
  induction rs with
  | nil =>
      obtain ⟨r, hr, -⟩ := hp
      exact absurd hr List.not_mem_nil
  | cons r rs ih =>
      obtain ⟨b, e, hb, he⟩ := hrs r List.mem_cons_self
      rw [firstIntersecting, intersects_int hb he] at h
      by_cases hmeet : b < (dst : Int) + n ∧ (dst : Int) < e
      · -- the loop would have stopped here
        rw [decide_eq_true hmeet] at h
        cases h
      · rw [decide_eq_false hmeet] at h
        obtain ⟨r', hr', b', e', hb', he', hin⟩ := hp
        rcases List.mem_cons.mp hr' with rfl | hrest
        · obtain rfl := PyVal.int.inj (hb.symm.trans hb')
          obtain rfl := PyVal.int.inj (he.symm.trans he')
          rw [Set.mem_Ico]
          omega
        · exact ih (fun r hr => hrs r (List.mem_cons_of_mem _ hr)) h
            ⟨r', hrest, b', e', hb', he', hin⟩

/-! ## One instruction -/

/-- The report on a protected region, if the loop stopped at one. -/
def protectedPart (tick : Nat) (ins : Instruction) : Option Region → List Violation
  | some r => [mkViolation tick ins (.protectedRegion ins.dst ins.n r)]
  | none => []

/-- The report on the allowed regions. -/
def allowedPart (tick : Nat) (ins : Instruction) : Bool → List Violation
  | true => []
  | false => [mkViolation tick ins (.notAllowed ins.dst ins.n)]

/-- What the region tests report for an instruction inside the space. -/
def RegionReport (cfg : Config) (tick : Nat) (ins : Instruction)
    (vs : List Violation) : Prop :=
  ∃ hit, firstIntersecting ins.dst ins.n cfg.protectedRegions = .ok hit ∧
    ((cfg.allowedRegions.isEmpty = true ∧ vs = protectedPart tick ins hit) ∨
      (cfg.allowedRegions.isEmpty = false ∧ ∃ inside,
        isInAllowed ins.dst ins.n cfg.allowedRegions = .ok inside ∧
        vs = protectedPart tick ins hit ++ allowedPart tick ins inside))

/-- Everything the loop body does with an instruction that is no NOP. -/
theorem checkInstr_eq_ok {cfg : Config} {tick : Nat} {ins : Instruction}
    {vs : List Violation} (hnop : ins.isNop = false) :
    checkInstr cfg tick ins = .ok vs ↔ ∃ bits, cfg.spaceBits = .ok bits ∧
      ((bits.lt (.int (ins.dst + ins.n : Nat)) = .ok true ∧
          vs = [mkViolation tick ins (.boundary ins.dst ins.n bits)]) ∨
        (bits.lt (.int (ins.dst + ins.n : Nat)) = .ok false ∧
          RegionReport cfg tick ins vs)) := by
  unfold checkInstr
  rw [hnop]
  simp only [Bool.false_eq_true, if_false, bind_eq_ok]
  refine exists_congr fun bits => and_congr_right fun _ => ?_
  constructor
  · rintro ⟨out, hout, h⟩
    cases out with
    | true => exact Or.inl ⟨hout, (Except.ok.inj h).symm⟩
    | false =>
        obtain ⟨hit, hhit, h⟩ := bind_eq_ok.mp h
        refine Or.inr ⟨hout, hit, hhit, ?_⟩
        cases hempty : cfg.allowedRegions.isEmpty with
        | true =>
            rw [hempty] at h
            refine Or.inl ⟨rfl, ?_⟩
            cases hit <;> exact (Except.ok.inj h).symm
        | false =>
            rw [hempty] at h
            obtain ⟨inside, hinside, h⟩ := bind_eq_ok.mp h
            refine Or.inr ⟨rfl, inside, hinside, ?_⟩
            cases hit <;> cases inside <;> exact (Except.ok.inj h).symm
  · rintro (⟨hout, rfl⟩ | ⟨hout, hit, hhit, hallowed⟩)
    · exact ⟨true, hout, rfl⟩
    · refine ⟨false, hout, bind_eq_ok.mpr ⟨hit, hhit, ?_⟩⟩
      rcases hallowed with ⟨hempty, rfl⟩ | ⟨hempty, inside, hinside, rfl⟩
      · rw [hempty]
        cases hit <;> rfl
      · rw [hempty]
        refine bind_eq_ok.mpr ⟨inside, hinside, ?_⟩
        cases hit <;> cases inside <;> rfl

/-- Without violations an instruction has passed the boundary test and met no
protected region. -/
theorem checkInstr_nil {cfg : Config} {S tick : Nat} {ins : Instruction}
    (hS : cfg.spaceBytes = .int S) (hn : ins.n ≠ 0)
    (h : checkInstr cfg tick ins = .ok []) :
    ins.dst + ins.n ≤ 8 * S ∧
      firstIntersecting ins.dst ins.n cfg.protectedRegions = .ok none := by
  have hnop : ins.isNop = false := by simpa [Instruction.isNop] using hn
  obtain ⟨bits, hbits, ⟨-, hvs⟩ | ⟨hin, hit, hhit, hreport⟩⟩ := (checkInstr_eq_ok hnop).mp h
  · cases hvs
  · constructor
    · rw [Config.spaceBits, hS] at hbits
      obtain rfl := Except.ok.inj hbits
      rw [PyVal.lt_int] at hin
      have hle := of_decide_eq_false (Except.ok.inj hin)
      omega
    · cases hit with
      | none => exact hhit
      | some r =>
          -- a region that is met is reported, whatever the allowed regions say
          rcases hreport with ⟨-, hvs⟩ | ⟨-, inside, -, hvs⟩
          · cases hvs
          · cases hvs

/-- The comparisons L1 makes for an instruction are between numbers. -/
def L1Defined (cfg : Config) (ins : Instruction) : Prop :=
  ins.isNop = true ∨ ∃ bits out, cfg.spaceBits = .ok bits ∧
    bits.lt (.int (ins.dst + ins.n : Nat)) = .ok out ∧
    (out = true ∨
      (∃ hit, firstIntersecting ins.dst ins.n cfg.protectedRegions = .ok hit) ∧
      (cfg.allowedRegions.isEmpty = true ∨
        ∃ inside, isInAllowed ins.dst ins.n cfg.allowedRegions = .ok inside))

theorem regionReport_iff {cfg : Config} (tick : Nat) {ins : Instruction} :
    (∃ vs, RegionReport cfg tick ins vs) ↔
      (∃ hit, firstIntersecting ins.dst ins.n cfg.protectedRegions = .ok hit) ∧
      (cfg.allowedRegions.isEmpty = true ∨
        ∃ inside, isInAllowed ins.dst ins.n cfg.allowedRegions = .ok inside) := by
  constructor
  · rintro ⟨vs, hit, hhit, ⟨hempty, -⟩ | ⟨-, inside, hinside, -⟩⟩
    · exact ⟨⟨hit, hhit⟩, Or.inl hempty⟩
    · exact ⟨⟨hit, hhit⟩, Or.inr ⟨inside, hinside⟩⟩
  · rintro ⟨⟨hit, hhit⟩, hallowed⟩
    cases hempty : cfg.allowedRegions.isEmpty with
    | true => exact ⟨_, hit, hhit, Or.inl ⟨hempty, rfl⟩⟩
    | false =>
        obtain ⟨inside, hinside⟩ := hallowed.resolve_left (by simp [hempty])
        exact ⟨_, hit, hhit, Or.inr ⟨hempty, inside, hinside, rfl⟩⟩

theorem checkInstr_ok_iff {cfg : Config} (tick : Nat) {ins : Instruction} :
    (∃ vs, checkInstr cfg tick ins = .ok vs) ↔ L1Defined cfg ins := by
  cases hnop : ins.isNop with
  | true =>
      refine iff_of_true ⟨[], ?_⟩ (Or.inl hnop)
      rw [checkInstr, hnop]
      rfl
  | false =>
      simp only [checkInstr_eq_ok hnop, L1Defined, hnop, Bool.false_eq_true, false_or,
        ← regionReport_iff tick]
      constructor
      · rintro ⟨vs, bits, hbits, ⟨hout, -⟩ | ⟨hin, hreport⟩⟩
        · exact ⟨bits, true, hbits, hout, Or.inl rfl⟩
        · exact ⟨bits, false, hbits, hin, Or.inr ⟨vs, hreport⟩⟩
      · rintro ⟨bits, out, hbits, hout, hrest⟩
        cases out with
        | true => exact ⟨_, bits, hbits, Or.inl ⟨hout, rfl⟩⟩
        | false =>
            obtain ⟨vs, hvs⟩ := hrest.resolve_left (by decide)
            exact ⟨vs, bits, hbits, Or.inr ⟨hout, hvs⟩⟩

/-! ## One layer -/

/-- The loop is a traversal; it reports what its instructions report. -/
theorem checkInstrs_eq_ok {cfg : Config} {tick : Nat} {instrs : List Instruction}
    {vs : List Violation} :
    checkInstrs cfg tick instrs = .ok vs ↔
      ∃ vss, instrs.mapM (checkInstr cfg tick) = .ok vss ∧ vss.flatten = vs := by
  induction instrs generalizing vs with
  | nil => simp [checkInstrs]
  | cons ins rest ih =>
      simp only [checkInstrs, List.mapM_cons, bind_eq_ok, pure_eq_ok, ih]
      constructor
      · rintro ⟨here, hhere, _, ⟨vss, hvss, rfl⟩, rfl⟩
        exact ⟨_, ⟨here, hhere, vss, hvss, rfl⟩, rfl⟩
      · rintro ⟨_, ⟨here, hhere, vss, hvss, rfl⟩, rfl⟩
        exact ⟨here, hhere, _, ⟨vss, hvss, rfl⟩, rfl⟩

theorem checkInstrs_nil {cfg : Config} {tick : Nat} {instrs : List Instruction}
    (h : checkInstrs cfg tick instrs = .ok []) {ins : Instruction}
    (hins : ins ∈ instrs) : checkInstr cfg tick ins = .ok [] := by
  obtain ⟨vss, hvss, hflat⟩ := checkInstrs_eq_ok.mp h
  obtain ⟨vs, hvs, hcheck⟩ := exists_right_of_forall₂ (mapM_eq_ok_iff.mp hvss) hins
  rw [hcheck, List.flatten_eq_nil_iff.mp hflat vs hvs]

theorem checkLayer_ok_iff {cfg : Config} (tick : Nat) {instrs : List Instruction} :
    (∃ res, checkLayer cfg instrs tick = .ok res) ↔
      ∀ ins ∈ instrs, L1Defined cfg ins := by
  simp only [← checkInstr_ok_iff tick, ← exists_mapM_ok]
  simp only [checkLayer, bind_eq_ok, pure_eq_ok, checkInstrs_eq_ok]
  constructor
  · rintro ⟨_, _, ⟨vss, hvss, -⟩, -⟩
    exact ⟨vss, hvss⟩
  · rintro ⟨vss, hvss⟩
    exact ⟨_, _, ⟨vss, hvss, rfl⟩, rfl⟩

/-- A layer fails when something is reported. -/
theorem checkLayer_fail_iff {cfg : Config} {tick : Nat} {instrs : List Instruction}
    {res : MemoryCheckResult} (h : checkLayer cfg instrs tick = .ok res) :
    res.status = .fail ↔ res.violations ≠ [] := by
  obtain ⟨vs, -, h⟩ := bind_eq_ok.mp h
  obtain rfl := Except.ok.inj h
  cases vs with
  | nil => exact iff_of_false (fun hf => nomatch hf) fun hne => hne rfl
  | cons v vs => exact iff_of_true rfl (List.cons_ne_nil v vs)

/-- A passing layer has no violation. -/
theorem checkLayer_pass {cfg : Config} {instrs : List Instruction} {tick : Nat}
    {res : MemoryCheckResult} (h : checkLayer cfg instrs tick = .ok res)
    (hpass : res.status = .pass) : checkInstrs cfg tick instrs = .ok [] := by
  obtain ⟨vs, hvs, h⟩ := bind_eq_ok.mp h
  obtain rfl := Except.ok.inj h
  cases vs with
  | nil => exact hvs
  | cons v vs => cases hpass

end SpaceVerifier.Verifier
