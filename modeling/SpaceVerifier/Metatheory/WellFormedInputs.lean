import SpaceVerifier.Metatheory.ConflictList
import SpaceVerifier.Metatheory.LayerLoading
import SpaceVerifier.Metatheory.MemoryVerdict
import SpaceVerifier.Metatheory.ReportPrinting

/-!
# Inputs on which nothing raises

`main` meets its inputs late: a value of a wrong type raises where the program
first computes with it, and an integer with too many digits where a report shows
it. For each stage the module says on which inputs it does not raise, in terms of
the values it is given.
-/

namespace SpaceVerifier.Verifier

open Foundation

/-! ## Configurations that load -/

/-- An object with a name. -/
def RegionFits : PyVal → Prop
  | .dict fields => (fields.lookup ("name" : PyStr)).isSome = true
  | _ => False

/-- A list of regions, or something else without elements. -/
def RegionsFit : PyVal → Prop
  | .list rs => ∀ r ∈ rs, RegionFits r
  | .dict fields => fields = []
  | .str s => s.chars = []
  | _ => False

/-- A size from which `addr_bits` can be derived. -/
def SizeFits : PyVal → Prop
  | .int _ => True
  | .bool _ => True
  | .float x => (x.mulPow2 3).le (.fin 0) = true ∨ ∃ q, x.mulPow2 3 = .fin q
  | _ => False

def fieldD (fields : List (PyStr × PyVal)) (key : PyStr) (default : PyVal) : PyVal :=
  (fields.lookup key).getD default

/-- The fields of the JSON object are what `config.py` computes with. -/
structure FieldsFit (fields : List (PyStr × PyVal)) : Prop where
  size : (fieldD fields "addr_bits" .none).isNone = true →
    SizeFits (fieldD fields "space_bytes" (.int 524288))
  protectedRegions : RegionsFit (fieldD fields "protected_regions" (.list []))
  allowedRegions : RegionsFit (fieldD fields "allowed_regions" (.list []))

/-- The configuration file, if one is named, is such a JSON object. -/
def ConfigFits (env : Env) (path : Option String) : Prop :=
  ∀ p, path = some p → p ≠ "" → ∃ data fields, env.file p = .file data ∧
    env.jsonLoad data = some (.dict fields) ∧ FieldsFit fields

theorem loadRegion_ok_iff {r : PyVal} :
    (∃ region, Config.loadRegion r = .ok region) ↔ RegionFits r := by
  cases r with
  | dict fields =>
      cases hname : fields.lookup ("name" : PyStr) with
      | none =>
          refine iff_of_false ?_ (by simp [RegionFits, hname])
          rintro ⟨region, h⟩
          obtain ⟨name, h, -⟩ := bind_eq_ok.mp h
          simp only [PyVal.item, hname] at h
          cases h
      | some name =>
          refine iff_of_true ⟨_, bind_eq_ok.mpr ⟨name, ?_, rfl⟩⟩ (by simp [RegionFits, hname])
          simp only [PyVal.item, hname]
  | _ => exact iff_of_false (by rintro ⟨_, h⟩; cases h) id

theorem loadRegions_ok_iff {fields : List (PyStr × PyVal)} {key : String} :
    (∃ rs, Config.loadRegions (.dict fields) key = .ok rs) ↔
      RegionsFit (fieldD fields key (.list [])) := by
  have hvalue : (PyVal.dict fields).getD key (.list []) = .ok (fieldD fields key (.list [])) :=
    rfl
  rw [Config.loadRegions, hvalue]
  show (∃ rs, ((fieldD fields key (.list [])).iter >>= fun rs =>
    rs.mapM Config.loadRegion) = .ok rs) ↔ _
  rw [exists_bind_ok]
  cases fieldD fields key (.list []) with
  | list rs => simp [PyVal.iter, RegionsFit, exists_mapM_ok, loadRegion_ok_iff]
  | dict d =>
      cases d with
      | nil => exact iff_of_true ⟨[], rfl, [], rfl⟩ rfl
      | cons kv d =>
          refine iff_of_false ?_ (List.cons_ne_nil _ _)
          rintro ⟨_, h, hall⟩
          obtain rfl := Except.ok.inj h
          exact loadRegion_ok_iff.mp (exists_mapM_ok.mp hall _ List.mem_cons_self)
  | str s =>
      obtain ⟨cs⟩ := s
      cases cs with
      | nil => exact iff_of_true ⟨[], rfl, [], rfl⟩ rfl
      | cons c cs =>
          refine iff_of_false ?_ (List.cons_ne_nil _ _)
          rintro ⟨_, h, hall⟩
          obtain rfl := Except.ok.inj h
          exact loadRegion_ok_iff.mp (exists_mapM_ok.mp hall _ List.mem_cons_self)
  | _ => exact iff_of_false (by rintro ⟨_, h, -⟩; cases h) id

/-- What `derive_addr_bits` needs of `space_bytes`. -/
theorem derive_ok_iff {ceilLog2 : ℚ → Int} {v : PyVal} :
    (∃ a, (v.mulPow2 3 >>= deriveAddrBits ceilLog2) = .ok a) ↔ SizeFits v := by
  have hnum : ∀ {bits : PyVal} {x : PyFloat}, bits.num = .ok x →
      ((∃ a, deriveAddrBits ceilLog2 bits = .ok a) ↔
        x.le (.fin 0) = true ∨ ∃ q, x = .fin q) := by
    intro bits x hx
    have hle : bits.le (.int 0) = .ok (x.le (.fin 0)) := by
      rw [PyVal.le, hx]
      rfl
    rw [deriveAddrBits, hle]
    cases hneg : x.le (.fin 0) with
    | true => exact iff_of_true ⟨8, rfl⟩ (Or.inl rfl)
    | false =>
        show (∃ a, (bits.mathCeilLog2 ceilLog2 >>= _) = .ok a) ↔ _
        rw [exists_bind_ok, PyVal.mathCeilLog2, hx]
        cases x with
        | fin q => exact iff_of_true ⟨_, rfl, _, rfl⟩ (Or.inr ⟨q, rfl⟩)
        | _ =>
            refine iff_of_false (by rintro ⟨_, h, -⟩; cases h) ?_
            rintro (h | ⟨_, h⟩)
            · cases h
            · cases h
  rw [exists_bind_ok]
  cases v with
  | int z => exact iff_of_true ⟨_, rfl, (hnum rfl).mpr (Or.inr ⟨_, rfl⟩)⟩ trivial
  | bool b => exact iff_of_true ⟨_, rfl, (hnum rfl).mpr (Or.inr ⟨_, rfl⟩)⟩ trivial
  | float x =>
      constructor
      · rintro ⟨bits, hbits, h⟩
        obtain rfl := Except.ok.inj hbits
        exact (hnum rfl).mp h
      · exact fun h => ⟨_, rfl, (hnum rfl).mpr h⟩
  | str s =>
      refine iff_of_false ?_ id
      rintro ⟨bits, hbits, _, h⟩
      obtain rfl := Except.ok.inj hbits
      cases h
  | list l =>
      refine iff_of_false ?_ id
      rintro ⟨bits, hbits, _, h⟩
      obtain rfl := Except.ok.inj hbits
      cases h
  | none => exact iff_of_false (by rintro ⟨_, h, -⟩; cases h) id
  | dict d => exact iff_of_false (by rintro ⟨_, h, -⟩; cases h) id

theorem resolve_ok_iff {ceilLog2 : ℚ → Int} {c : Config} :
    (∃ cfg, c.resolve ceilLog2 = .ok cfg) ↔ (c.addrBits.isNone = true → SizeFits c.spaceBytes) := by
  unfold Config.resolve
  cases hnone : c.addrBits.isNone with
  | false => exact iff_of_true ⟨c, rfl⟩ fun h => by cases h
  | true =>
      simp only [if_true, true_imp_iff]
      rw [← @derive_ok_iff ceilLog2]
      show (∃ cfg, (c.spaceBytes.mulPow2 3 >>= fun bits => deriveAddrBits ceilLog2 bits >>=
        fun a => .ok { c with addrBits := .int a }) = .ok cfg) ↔ _
      simp only [exists_bind_ok]
      exact exists_congr fun bits => and_congr_right fun _ =>
        exists_congr fun a => and_iff_left ⟨_, rfl⟩

/-- The file is read field by field; only the regions can raise. -/
theorem load_ok_iff {fields : List (PyStr × PyVal)} {c : Config} :
    Config.default.load (.dict fields) = .ok c ↔ ∃ protectedRegions allowedRegions,
      Config.loadRegions (.dict fields) "protected_regions" = .ok protectedRegions ∧
      Config.loadRegions (.dict fields) "allowed_regions" = .ok allowedRegions ∧
      c = { spaceBytes := fieldD fields "space_bytes" (.int 524288)
            processorN := fieldD fields "processor_n" (.int 64)
            addrBits := fieldD fields "addr_bits" .none
            protectedRegions, allowedRegions } := by
  constructor
  · intro h
    obtain ⟨_, hsize, h⟩ := bind_eq_ok.mp h
    obtain ⟨_, hslots, h⟩ := bind_eq_ok.mp h
    obtain ⟨_, haddr, h⟩ := bind_eq_ok.mp h
    obtain ⟨prot, hprot, h⟩ := bind_eq_ok.mp h
    obtain ⟨allowed, hallowed, h⟩ := bind_eq_ok.mp h
    obtain rfl := Except.ok.inj hsize
    obtain rfl := Except.ok.inj hslots
    obtain rfl := Except.ok.inj haddr
    exact ⟨prot, allowed, hprot, hallowed, (Except.ok.inj h).symm⟩
  · rintro ⟨prot, allowed, hprot, hallowed, rfl⟩
    refine bind_eq_ok.mpr ⟨_, rfl, bind_eq_ok.mpr ⟨_, rfl, bind_eq_ok.mpr ⟨_, rfl, ?_⟩⟩⟩
    exact bind_eq_ok.mpr ⟨_, hprot, bind_eq_ok.mpr ⟨_, hallowed, rfl⟩⟩

theorem load_resolve_ok_iff {ceilLog2 : ℚ → Int} {d : PyVal} :
    (∃ cfg, (Config.default.load d >>= Config.resolve ceilLog2) = .ok cfg) ↔
      ∃ fields, d = .dict fields ∧ FieldsFit fields := by
  rw [exists_bind_ok]
  cases d with
  | dict fields =>
      simp only [load_ok_iff, resolve_ok_iff]
      constructor
      · rintro ⟨c, ⟨prot, allowed, hprot, hallowed, rfl⟩, hsize⟩
        exact ⟨fields, rfl, hsize, loadRegions_ok_iff.mp ⟨prot, hprot⟩,
          loadRegions_ok_iff.mp ⟨allowed, hallowed⟩⟩
      · rintro ⟨fields, heq, hsize, hprot, hallowed⟩
        obtain rfl := PyVal.dict.inj heq
        obtain ⟨prot, hprot⟩ := loadRegions_ok_iff.mpr hprot
        obtain ⟨allowed, hallowed⟩ := loadRegions_ok_iff.mpr hallowed
        exact ⟨_, ⟨prot, allowed, hprot, hallowed, rfl⟩, hsize⟩
  | _ => exact iff_of_false (by rintro ⟨_, h, -⟩; cases h) (by rintro ⟨_, h, -⟩; cases h)

/-- **`Config(path)` raises nothing** exactly on such a file. -/
theorem init_ok_iff {env : Env} {path : Option String} :
    (∃ cfg, Config.init env path = .ok cfg) ↔ ConfigFits env path := by
  have hdefault : ∃ cfg, Config.default.resolve env.ceilLog2 = .ok cfg :=
    resolve_ok_iff.mpr fun _ => trivial
  cases path with
  | none => exact iff_of_true hdefault fun p h => by cases h
  | some p =>
      by_cases hp : p = ""
      · subst hp
        refine iff_of_true hdefault ?_
        rintro _ ⟨⟩ hne
        exact absurd rfl hne
      · have hfile : ConfigFits env (some p) ↔ ∃ data fields, env.file p = .file data ∧
            env.jsonLoad data = some (.dict fields) ∧ FieldsFit fields :=
          ⟨fun h => h p rfl hp, fun h _ heq _ => Option.some.inj heq ▸ h⟩
        rw [hfile]
        unfold Config.init openRead
        simp only [if_neg hp]
        cases hdata : env.file p with
        | missing => exact iff_of_false (by rintro ⟨_, h⟩; cases h) (by simp)
        | unreadable => exact iff_of_false (by rintro ⟨_, h⟩; cases h) (by simp)
        | file data =>
            cases hjson : env.jsonLoad data with
            | none =>
                refine iff_of_false ?_ (by simp [hjson])
                simp only [bind, Except.bind, hjson]
                rintro ⟨_, h⟩
                cases h
            | some d =>
                simp only [bind, Except.bind, hjson]
                show (∃ cfg, (Config.default.load d >>= Config.resolve env.ceilLog2) =
                  .ok cfg) ↔ _
                rw [load_resolve_ok_iff]
                simp [hjson]

/-! ## Images that parse -/

/-- A width the reader can use: an integer, or a float that is not positive. -/
def WidthReadable : PyVal → Prop
  | .float x => x.le (.fin 0) = true
  | v => ∃ z, v.asInt = .ok z

/-- The image is not shorter than configured, and its slots, if there are any,
have fields of a usable width. -/
structure ImageParses (cfg : Config) (data : List Byte) : Prop where
  long : (PyVal.int data.length).lt cfg.spaceBytes = .ok false
  slots : ∃ k, cfg.processorN.range = .ok k ∧ (k = 0 ∨ WidthReadable cfg.addrBits)

theorem readInstruction_ok_iff {cfg : Config} {data : List Byte} {slot : Nat} :
    (∃ ins, readInstruction cfg data slot = .ok ins) ↔ WidthReadable cfg.addrBits := by
  cases h : cfg.addrBits with
  | float x =>
      rw [readInstruction, h]
      simp only [WidthReadable]
      split
      · next hle => exact iff_of_true ⟨_, rfl⟩ hle
      · next hle => exact iff_of_false (by rintro ⟨_, hok⟩; cases hok) hle
  | _ =>
      simp only [readInstruction, Config.instrBits, Config.offDst, Config.offSrc,
        Config.nBits, h, WidthReadable, bind_eq_ok, pure_eq_ok]
      constructor
      · rintro ⟨_, _, ⟨z, hz, -⟩, -⟩
        exact ⟨z, hz⟩
      · rintro ⟨z, hz⟩
        exact ⟨_, _, ⟨z, hz, rfl⟩, z, hz, z, hz, z, hz, _, ⟨z, hz, z, hz, rfl⟩, rfl⟩

theorem read_ok_iff {cfg : Config} {data : List Byte} :
    (∃ instrs, read cfg data = .ok instrs) ↔ ImageParses cfg data := by
  have hval : read cfg data = (do
      let short ← (PyVal.int data.length).lt cfg.spaceBytes
      if short then .error (.valueError "data size < space_bytes"
        [.int data.length, cfg.spaceBytes])
      else do
        let slots ← cfg.processorN.range
        (List.range slots).mapM (readInstruction cfg data)) := by
    unfold read
    refine bind_congr fun short => ?_
    cases short <;> rfl
  rw [hval]
  constructor
  · rintro ⟨instrs, h⟩
    obtain ⟨short, hshort, h⟩ := bind_eq_ok.mp h
    cases short with
    | true => cases h
    | false =>
        obtain ⟨slots, hslots, h⟩ := bind_eq_ok.mp h
        refine ⟨hshort, slots, hslots, ?_⟩
        rcases Nat.eq_zero_or_pos slots with h0 | hpos
        · exact Or.inl h0
        · exact Or.inr (readInstruction_ok_iff.mp
            (exists_mapM_ok.mp ⟨instrs, h⟩ 0 (List.mem_range.mpr hpos)))
  · rintro ⟨hlong, slots, hslots, hwidth⟩
    have hall : ∀ slot ∈ List.range slots,
        ∃ ins, readInstruction cfg data slot = .ok ins := by
      intro slot hslot
      rcases hwidth with rfl | hw
      · exact absurd hslot List.not_mem_nil
      · exact readInstruction_ok_iff.mpr hw
    obtain ⟨instrs, hinstrs⟩ := exists_mapM_ok.mpr hall
    refine ⟨instrs, bind_eq_ok.mpr ⟨false, hlong, ?_⟩⟩
    exact bind_eq_ok.mpr ⟨slots, hslots, hinstrs⟩

/-! ## Instructions that L1 can judge -/

/-- The bounds can be compared as far as a region test looks: it does not look
behind a null bound, nor behind a `begin` that decides it. -/
def Region.Comparable (decided : PyFloat → Bool) (r : Region) : Prop :=
  r.begin.isNone = true ∨ r.endBit.isNone = true ∨
    ∃ b, r.begin.num = .ok b ∧ (decided b = true ∨ ∃ e, r.endBit.num = .ok e)

/-- The regions are comparable up to the first one that passes the test. -/
def ComparableUntil (decided : PyFloat → Bool) (test : Region → Except PyExc Bool) :
    List Region → Prop
  | [] => True
  | r :: rs => r.Comparable decided ∧ (test r = .ok false → ComparableUntil decided test rs)

/-- The destination does not end behind the space. -/
def DstInside (cfg : Config) (ins : Instruction) : Prop :=
  ∃ bits, cfg.spaceBits = .ok bits ∧ bits.lt (.int (ins.dst + ins.n : Nat)) = .ok false

/-- The region bounds that L1 compares with the instruction are numbers. -/
def L1Comparable (cfg : Config) (ins : Instruction) : Prop :=
  ins.isNop = false → DstInside cfg ins →
    ComparableUntil (fun b => (PyFloat.fin (ins.dst + ins.n : Int)).le b)
      (·.intersects ins.dst ins.n) cfg.protectedRegions ∧
    ComparableUntil (fun b => (PyFloat.fin (ins.dst : Int)).lt b)
      (·.contains ins.dst ins.n) cfg.allowedRegions

section Comparisons

variable {r : Region} {addr n : Int}

/-- A region test with the two comparisons it makes of bounds that are not null. -/
theorem regionTest_ok_iff {test : Except PyExc Bool} {decided : PyFloat → Bool}
    (late : PyFloat → Bool)
    (hnull : (r.begin.isNone || r.endBit.isNone) = true → test = .ok false)
    (hnum : (r.begin.isNone || r.endBit.isNone) = false →
      test = r.begin.num >>= fun b => if decided b then .ok false else
        r.endBit.num >>= fun e => .ok (late e)) :
    (∃ out, test = .ok out) ↔ r.Comparable decided := by
  unfold Region.Comparable
  cases hnone : r.begin.isNone || r.endBit.isNone with
  | true =>
      refine iff_of_true ⟨false, hnull hnone⟩ ?_
      rcases Bool.or_eq_true_iff.mp hnone with hb | he
      · exact Or.inl hb
      · exact Or.inr (Or.inl he)
  | false =>
      obtain ⟨hb, he⟩ := Bool.or_eq_false_iff.mp hnone
      rw [hnum hnone, hb, he, exists_bind_ok]
      simp only [Bool.false_eq_true, false_or]
      refine exists_congr fun b => and_congr_right fun _ => ?_
      cases decided b with
      | true => exact iff_of_true ⟨false, rfl⟩ (Or.inl rfl)
      | false =>
          simp only [Bool.false_eq_true, if_false, false_or, exists_bind_ok]
          exact exists_congr fun e => and_iff_left ⟨_, rfl⟩

theorem intersects_ok_iff : (∃ hit, r.intersects addr n = .ok hit) ↔
    r.Comparable fun b => (PyFloat.fin (addr + n : Int)).le b := by
  refine regionTest_ok_iff (fun e => !e.le (.fin addr)) (fun hnone => ?_) fun hnum => ?_
  · rw [Region.intersects, hnone]
    rfl
  · rw [Region.intersects, hnum]
    simp only [Bool.false_eq_true, if_false, PyVal.le, bind_assoc]
    show (r.begin.num >>= _) = _
    refine bind_congr fun b => ?_
    show (if (PyFloat.fin (addr + n : Int)).le b = true then _ else _) = _
    refine if_congr Iff.rfl rfl ?_
    show (r.endBit.num >>= _) = _
    refine bind_congr fun e => ?_
    show (if e.le (.fin addr) = true then _ else _) = _
    cases e.le (.fin addr) <;> rfl

theorem contains_ok_iff : (∃ inside, r.contains addr n = .ok inside) ↔
    r.Comparable fun b => (PyFloat.fin addr).lt b := by
  refine regionTest_ok_iff (fun e => !e.lt (.fin (addr + n : Int))) (fun hnone => ?_)
    fun hnum => ?_
  · rw [Region.contains, hnone]
    rfl
  · rw [Region.contains, hnum]
    simp only [Bool.false_eq_true, if_false, PyVal.lt, bind_assoc]
    show (r.begin.num >>= _) = _
    refine bind_congr fun b => ?_
    show (if (PyFloat.fin addr).lt b = true then _ else _) = _
    refine if_congr Iff.rfl rfl ?_
    show (r.endBit.num >>= _) = _
    refine bind_congr fun e => ?_
    show (if e.lt (.fin (addr + n : Int)) = true then _ else _) = _
    cases e.lt (.fin (addr + n : Int)) <;> rfl

theorem firstIntersecting_ok_iff {rs : List Region} :
    (∃ hit, firstIntersecting addr n rs = .ok hit) ↔
      ComparableUntil (fun b => (PyFloat.fin (addr + n : Int)).le b)
        (·.intersects addr n) rs := by
  induction rs with
  | nil => exact iff_of_true ⟨none, rfl⟩ trivial
  | cons r rs ih =>
      rw [firstIntersecting, exists_bind_ok, ComparableUntil, ← intersects_ok_iff, ← ih]
      constructor
      · rintro ⟨hit, hhit, hrest⟩
        refine ⟨⟨hit, hhit⟩, fun hmiss => ?_⟩
        obtain rfl := Except.ok.inj (hhit.symm.trans hmiss)
        exact hrest
      · rintro ⟨⟨hit, hhit⟩, hrest⟩
        refine ⟨hit, hhit, ?_⟩
        cases hit with
        | true => exact ⟨_, rfl⟩
        | false => exact hrest hhit

theorem isInAllowed_ok_iff {rs : List Region} :
    (∃ inside, isInAllowed addr n rs = .ok inside) ↔
      ComparableUntil (fun b => (PyFloat.fin addr).lt b) (·.contains addr n) rs := by
  induction rs with
  | nil => exact iff_of_true ⟨false, rfl⟩ trivial
  | cons r rs ih =>
      rw [isInAllowed, exists_bind_ok, ComparableUntil, ← contains_ok_iff, ← ih]
      constructor
      · rintro ⟨inside, hinside, hrest⟩
        refine ⟨⟨inside, hinside⟩, fun hmiss => ?_⟩
        obtain rfl := Except.ok.inj (hinside.symm.trans hmiss)
        exact hrest
      · rintro ⟨⟨inside, hinside⟩, hrest⟩
        refine ⟨inside, hinside, ?_⟩
        cases inside with
        | true => exact ⟨_, rfl⟩
        | false => exact hrest hinside

end Comparisons

/-- The size that an image was compared with is a number. -/
theorem ImageParses.spaceBits {cfg : Config} {data : List Byte} (h : ImageParses cfg data)
    (k : Nat) : ∃ bits out, cfg.spaceBits = .ok bits ∧ bits.lt (.int k) = .ok out := by
  have hlong := h.long
  unfold Config.spaceBits
  cases hS : cfg.spaceBytes with
  | int z => exact ⟨_, _, rfl, rfl⟩
  | bool b => exact ⟨_, _, rfl, rfl⟩
  | float x => exact ⟨_, _, rfl, rfl⟩
  | _ =>
      rw [hS] at hlong
      cases hlong

/-- On an image that parses, L1 raises only at a region bound. -/
theorem l1Defined_iff {cfg : Config} {data : List Byte} (h : ImageParses cfg data)
    {ins : Instruction} : L1Defined cfg ins ↔ L1Comparable cfg ins := by
  obtain ⟨bits, out, hbits, hout⟩ := h.spaceBits (ins.dst + ins.n)
  unfold L1Defined L1Comparable
  cases hnop : ins.isNop with
  | true => simp
  | false =>
      have hregions : (cfg.allowedRegions.isEmpty = true ∨
          ∃ inside, isInAllowed ins.dst ins.n cfg.allowedRegions = .ok inside) ↔
          ComparableUntil (fun b => (PyFloat.fin (ins.dst : Int)).lt b)
            (·.contains ins.dst ins.n) cfg.allowedRegions := by
        rw [← isInAllowed_ok_iff, or_iff_right_of_imp]
        intro hempty
        rw [List.isEmpty_iff.mp hempty]
        exact ⟨false, rfl⟩
      rw [hregions, firstIntersecting_ok_iff]
      simp only [Bool.false_eq_true, false_or, true_imp_iff]
      constructor
      · rintro ⟨bits', out', hbits', hout', hrest⟩ ⟨bits'', hbits'', hin⟩
        obtain rfl := Except.ok.inj (hbits'.symm.trans hbits'')
        obtain rfl := Except.ok.inj (hout'.symm.trans hin)
        exact hrest.resolve_left Bool.false_ne_true
      · intro hrest
        refine ⟨bits, out, hbits, hout, ?_⟩
        cases out with
        | true => exact Or.inl rfl
        | false => exact Or.inr (hrest ⟨bits, hbits, hout⟩)

/-! ## Findings that can be printed -/

/-- The numbers that an entry about the instruction shows: the text has the bounds
of the destination, JSON the source too. -/
def NumbersFit (host : PyHost) (format : Format) (ins : Instruction) : Prop :=
  host.Fits (ins.dst + ins.n : Nat) ∧ (format = .json → host.Fits ins.src)

/-- What L1 shows of the instruction, if anything, can be written. -/
structure FindingsFit (host : PyHost) (format : Format) (cfg : Config) (ins : Instruction) :
    Prop where
  boundary : ∀ bits, cfg.spaceBits = .ok bits →
    bits.lt (.int (ins.dst + ins.n : Nat)) = .ok true →
    NumbersFit host format ins ∧ Shows host format bits
  protectedRegion : DstInside cfg ins → ∀ r,
    firstIntersecting ins.dst ins.n cfg.protectedRegions = .ok (some r) →
    NumbersFit host format ins ∧ Shows host format r.name ∧ Shows host format r.begin ∧
      Shows host format r.endBit
  notAllowed : DstInside cfg ins → cfg.allowedRegions ≠ [] →
    isInAllowed ins.dst ins.n cfg.allowedRegions = .ok false → NumbersFit host format ins

/-- What L2 shows of the layer can be written: the end of a self overlap, and the
end of an overlap of neighbours in the order of the scan. -/
structure OverlapsFit (host : PyHost) (instrs : List Instruction) : Prop where
  self : ∀ ins ∈ active instrs,
    ¬ (ins.src + ins.n ≤ ins.dst ∨ ins.dst + ins.n ≤ ins.src) →
    host.Fits (min (ins.src + ins.n) (ins.dst + ins.n) : Nat)
  neighbours : ∀ prev curr, [prev, curr] <:+: sortedIntervals instrs →
    curr.start < prev.stop → host.Fits (min curr.stop prev.stop : Nat)

section Findings

variable {host : PyHost} {format : Format} {cfg : Config} {tick : Nat} {ins : Instruction}

/-- The numbers of a violation: the larger ones fit when their sum does. -/
theorem numbersFit_iff {R : Prop} :
    ((host.Fits ins.dst ∧ host.Fits (ins.dst + ins.n : Nat) ∧ R) ∧
      (format = .json → host.Fits ins.n ∧ host.Fits ins.dst ∧ host.Fits ins.src)) ↔
      NumbersFit host format ins ∧ R := by
  constructor
  · rintro ⟨⟨-, hsum, hR⟩, hjson⟩
    exact ⟨⟨hsum, fun hj => (hjson hj).2.2⟩, hR⟩
  · rintro ⟨⟨hsum, hsrc⟩, hR⟩
    have hdst := hsum.of_le (Nat.le_add_right ins.dst ins.n)
    have hn := hsum.of_le (Nat.le_add_left ins.n ins.dst)
    exact ⟨⟨hdst, hsum, hR⟩, fun hj => ⟨hn, hdst, hsrc hj⟩⟩

theorem boundary_printable_iff {bits : PyVal} :
    (mkViolation tick ins (.boundary ins.dst ins.n bits)).Printable host format ↔
      NumbersFit host format ins ∧ Shows host format bits := by
  rw [← numbersFit_iff]
  unfold Violation.Printable Reason.Printable
  simp only [mkViolation, Reason.pieces, List.mem_cons, reduceCtorEq, Piece.val.injEq,
    List.not_mem_nil, false_or, or_false, forall_eq_or_imp, forall_eq, shows_int]
  refine and_congr_left fun _ => ⟨fun h => ⟨h.1, h.2.2⟩, fun h => ⟨h.1, ?_, h.2⟩⟩
  exact h.2.1.of_le (Nat.le_add_left ins.n ins.dst)

theorem protectedRegion_printable_iff {r : Region} :
    (mkViolation tick ins (.protectedRegion ins.dst ins.n r)).Printable host format ↔
      NumbersFit host format ins ∧ Shows host format r.name ∧ Shows host format r.begin ∧
        Shows host format r.endBit := by
  rw [← numbersFit_iff]
  unfold Violation.Printable Reason.Printable
  simp only [mkViolation, Reason.pieces, List.mem_cons, reduceCtorEq, Piece.val.injEq,
    List.not_mem_nil, false_or, or_false, forall_eq_or_imp, forall_eq, shows_int]

theorem notAllowed_printable_iff :
    (mkViolation tick ins (.notAllowed ins.dst ins.n)).Printable host format ↔
      NumbersFit host format ins := by
  rw [← and_true (NumbersFit host format ins), ← numbersFit_iff]
  unfold Violation.Printable Reason.Printable
  simp only [mkViolation, Reason.pieces, List.mem_cons, reduceCtorEq, Piece.val.injEq,
    List.not_mem_nil, false_or, or_false, forall_eq_or_imp, forall_eq, shows_int, and_true]

/-- What L1 reports of an instruction can be printed exactly when its numbers, and
the values of the region it meets, can be written. -/
theorem findingsFit_iff {vs : List Violation} (hnop : ins.isNop = false)
    (h : checkInstr cfg tick ins = .ok vs) :
    (∀ v ∈ vs, v.Printable host format) ↔ FindingsFit host format cfg ins := by
  obtain ⟨bits, hbits, hcase⟩ := (checkInstr_eq_ok hnop).mp h
  have hinside : DstInside cfg ins ↔
      bits.lt (.int (ins.dst + ins.n : Nat)) = .ok false := by
    constructor
    · rintro ⟨bits', hbits', hin⟩
      obtain rfl := Except.ok.inj (hbits.symm.trans hbits')
      exact hin
    · exact fun hin => ⟨bits, hbits, hin⟩
  rcases hcase with ⟨hout, rfl⟩ | ⟨hin, hit, hhit, hregions⟩
  · have hno : ¬ DstInside cfg ins := by
      rw [hinside, hout]
      rintro ⟨⟩
    rw [List.forall_mem_singleton, boundary_printable_iff]
    constructor
    · refine fun hfit => ⟨fun bits' hbits' _ => ?_, fun hd => absurd hd hno,
        fun hd => absurd hd hno⟩
      obtain rfl := Except.ok.inj (hbits.symm.trans hbits')
      exact hfit
    · exact fun hfit => hfit.boundary bits hbits hout
  · have hyes : DstInside cfg ins := hinside.mpr hin
    have hboundary : ∀ bits', cfg.spaceBits = .ok bits' →
        bits'.lt (.int (ins.dst + ins.n : Nat)) = .ok true →
        NumbersFit host format ins ∧ Shows host format bits' := by
      intro bits' hbits' hout
      obtain rfl := Except.ok.inj (hbits.symm.trans hbits')
      rw [hin] at hout
      cases hout
    have hprotected : (∀ v ∈ protectedPart tick ins hit, v.Printable host format) ↔
        ∀ r, hit = some r → NumbersFit host format ins ∧ Shows host format r.name ∧
          Shows host format r.begin ∧ Shows host format r.endBit := by
      cases hit with
      | none => simp [protectedPart]
      | some r =>
          simp only [protectedPart, List.forall_mem_singleton, protectedRegion_printable_iff,
            Option.some.injEq, forall_eq']
    have hfit : FindingsFit host format cfg ins ↔
        (∀ v ∈ protectedPart tick ins hit, v.Printable host format) ∧
          (cfg.allowedRegions ≠ [] →
            isInAllowed ins.dst ins.n cfg.allowedRegions = .ok false →
            NumbersFit host format ins) := by
      rw [hprotected]
      constructor
      · exact fun hf => ⟨fun r hr => hf.protectedRegion hyes r (hr ▸ hhit), hf.notAllowed hyes⟩
      · rintro ⟨hp, ha⟩
        exact ⟨hboundary, fun _ r hr => hp r (Except.ok.inj (hhit.symm.trans hr)), fun _ => ha⟩
    rw [hfit]
    rcases hregions with ⟨hempty, rfl⟩ | ⟨hsome, inside, hinside', rfl⟩
    · rw [and_iff_left fun hne => absurd (List.isEmpty_iff.mp hempty) hne]
    · have hne : cfg.allowedRegions ≠ [] := fun hnil => by simp [hnil] at hsome
      rw [List.forall_mem_append]
      refine and_congr_right fun _ => ?_
      cases inside with
      | true =>
          refine iff_of_true (by simp [allowedPart]) fun _ hout => ?_
          rw [hinside'] at hout
          cases hout
      | false =>
          rw [allowedPart, List.forall_mem_singleton, notAllowed_printable_iff]
          exact ⟨fun hn _ _ => hn, fun hn => hn hne hinside'⟩

/-- The same for the conflicts of a layer. -/
theorem overlapsFit_iff {instrs : List Instruction} :
    (∀ c ∈ checkTick instrs tick, c.Printable host) ↔ OverlapsFit host instrs := by
  have hself : ∀ ins : Instruction,
      (∀ c ∈ selfConflict tick ins, c.Printable host) ↔
        (¬ (ins.src + ins.n ≤ ins.dst ∨ ins.dst + ins.n ≤ ins.src) →
          host.Fits (min (ins.src + ins.n) (ins.dst + ins.n) : Nat)) := by
    intro ins
    unfold selfConflict
    by_cases hover : ¬ (ins.src + ins.n ≤ ins.dst ∨ ins.dst + ins.n ≤ ins.src)
    · simp only [if_pos hover, List.forall_mem_singleton, Conflict.Printable]
      refine ⟨fun h _ => h.2, fun h => ⟨(h hover).of_le ?_, h hover⟩⟩
      omega
    · simp [hover]
  have hscan : ∀ prev curr, [prev, curr] <:+: sortedIntervals instrs →
      ((∀ c ∈ neighbourConflict tick prev curr, c.Printable host) ↔
        (curr.start < prev.stop → host.Fits (min curr.stop prev.stop : Nat))) := by
    intro prev curr hin
    unfold neighbourConflict
    split
    · next hlt =>
        have hcurr := start_lt_stop (mem_sortedIntervals.mp (hin.subset
          (List.mem_cons_of_mem _ List.mem_cons_self)))
        simp only [List.forall_mem_singleton, Conflict.Printable]
        refine ⟨fun h _ => h.2, fun h => ⟨(h hlt).of_le ?_, h hlt⟩⟩
        omega
    · next hge => simp [hge]
  unfold checkTick
  rw [List.forall_mem_append]
  constructor
  · rintro ⟨hs, hn⟩
    constructor
    · intro ins hins
      exact (hself ins).mp fun c hc => hs c (List.mem_flatMap.mpr ⟨ins, hins, hc⟩)
    · intro prev curr hin
      exact (hscan prev curr hin).mp fun c hc => hn c (mem_scanLine_iff.mpr ⟨_, _, hin, hc⟩)
  · rintro ⟨hs, hn⟩
    constructor
    · intro c hc
      obtain ⟨ins, hins, hc⟩ := List.mem_flatMap.mp hc
      exact (hself ins).mpr (hs ins hins) c hc
    · intro c hc
      obtain ⟨prev, curr, hin, hc⟩ := mem_scanLine_iff.mp hc
      exact (hscan prev curr hin).mpr (hn prev curr hin) c hc

end Findings

end SpaceVerifier.Verifier
