import SpaceVerifier.Metatheory.TickSafety
import SpaceVerifier.Metatheory.BitcpyExact

/-!
# Runs that never change their code

A memory whose copies stay away from a set of bits keeps these bits along
every run, and with them its code: each slot of each tick fetches the
instruction that the initial memory held. What such a run returns can then be
read off the initial memory.
-/

namespace SpaceVerifier.Runtime

open Foundation Foundation.Traced

/-- The bits `K` of `m₀` are out of reach: they contain the code and the IN
request, which is off, no OUT register, and no destination of a copy. -/
structure Shielded (g : VmGeometry) (m₀ : Mem) (K : Set Nat) : Prop where
  code : ∀ p < g.processorBits, p ∈ K
  inReq : g.mmio.inReq ∈ K
  inReq_off : m₀.bit g.mmio.inReq = false
  out : ∀ p ∈ K, p ∉ outRegs g
  dst_le : ∀ i < g.processorN, (slotInst g m₀ i).n ≠ 0 →
    (slotInst g m₀ i).dst + (slotInst g m₀ i).n ≤ g.spaceBits
  dst_away : ∀ i < g.processorN, (slotInst g m₀ i).n ≠ 0 → ∀ p ∈ K,
    p ∉ Set.Ico (slotInst g m₀ i).dst ((slotInst g m₀ i).dst + (slotInst g m₀ i).n)

/-- The machine runs with layout `g` and still holds the bits `K` of `m₀`. -/
structure Keeps (g : VmGeometry) (m₀ : Mem) (K : Set Nat) (w : World) : Prop where
  ready : Ready g w
  bits : ∀ p ∈ K, w.vm.mem.bit p = m₀.bit p

/-- A fetch yields the instruction of the initial memory. -/
def Event.Fetched (g : VmGeometry) (m₀ : Mem) : Event → Prop
  | .fetch slot ins => slot < g.processorN ∧ ins = slotInst g m₀ slot
  | _ => True

theorem Event.Control.fetched {g : VmGeometry} {m₀ : Mem} {limit : Nat} {e : Event}
    (h : e.Control limit) : e.Fetched g m₀ := by
  cases e <;> trivial

theorem Event.Device.fetched {g g' : VmGeometry} {m₀ : Mem} {e : Event}
    (h : e.Device g') : e.Fetched g m₀ := by
  rcases h with h | h
  · exact h.fetched
  · cases e <;> trivial

theorem Keeps.of_vm {g : VmGeometry} {m₀ : Mem} {K : Set Nat} {w w' : World}
    (h : Keeps g m₀ K w) (hready : Ready g w') (hmem : w'.vm.mem = w.vm.mem) :
    Keeps g m₀ K w' :=
  ⟨hready, fun p hp => by rw [hmem, h.bits p hp]⟩

section Kept

variable {g : VmGeometry} (hg : g.Wf) {m₀ : Mem} {K : Set Nat} (hk : Shielded g m₀ K)
include hg hk

/-! ## One slot -/

theorem Keeps.slotInst_eq {w : World} (h : Keeps g m₀ K w) {i : Nat}
    (hi : i < g.processorN) : slotInst g w.vm.mem i = slotInst g m₀ i :=
  slotInst_congr hg hi fun p hp => h.bits p (hk.code p hp)

/-- The slots keep `K`. -/
theorem Keeps.beforeSlot {w : World} (h : Keeps g m₀ K w) {i : Nat}
    (hi : i ≤ g.processorN) : Keeps g m₀ K (w.beforeSlot i) := by
  induction i with
  | zero => exact h.of_vm (h.ready.beforeSlot 0) rfl
  | succ i ih =>
      have hkept := ih (Nat.le_of_succ_le hi)
      -- the earlier slots have kept the code, so slot `i` is still the initial one
      have hins : slotIns w.vm i = slotInst g m₀ i :=
        (slotIns_eq hg h.ready hi).trans (hkept.slotInst_eq hg hk hi)
      by_cases hn : (slotInst g m₀ i).n = 0
      · rw [beforeSlot_nop w (by rw [hins]; exact hn)]
        exact hkept
      · refine ⟨h.ready.beforeSlot _, fun p hp => ?_⟩
        have hle := hk.dst_le i hi hn
        have hbits := hg.spaceBits_le
        rw [World.vm_beforeSlot, mem_beforeSlot_succ hins hn, bitcpy_frame _ (by omega)]
        · exact hkept.bits p hp
        · rw [Nat.mul_zero, Nat.zero_add]
          exact hk.dst_away i hi hn p hp

theorem Keeps.slotIns_eq {w : World} (h : Keeps g m₀ K w) {i : Nat}
    (hi : i < g.processorN) : slotIns w.vm i = slotInst g m₀ i :=
  (Runtime.slotIns_eq hg h.ready hi).trans ((h.beforeSlot hg hk hi.le).slotInst_eq hg hk hi)

/-- Whether a slot fails its source test; the destination test cannot fail. -/
def SourceOut (g : VmGeometry) (m₀ : Mem) (i : Nat) : Prop :=
  (slotInst g m₀ i).n ≠ 0 ∧
    add64 (slotInst g m₀ i).src (slotInst g m₀ i).n > g.spaceBits

theorem Keeps.badSlot_iff {w : World} (h : Keeps g m₀ K w) {i : Nat}
    (hi : i < g.processorN) : BadSlot w.vm i ↔ SourceOut g m₀ i := by
  unfold BadSlot VmInst.OutOfBounds SourceOut
  rw [h.slotIns_eq hg hk hi, h.ready.geometry]
  refine and_congr_right fun hn => or_iff_left ?_
  have hle := hk.dst_le i hi hn
  have hbits := hg.spaceBits_le
  rw [add64_of_lt (by omega)]
  omega

/-! ## One tick -/

/-- The device phase: the OUT service misses `K`, the IN service is idle. -/
theorem served_keeps {w : World} (h : Keeps g m₀ K w) :
    Keeps g m₀ K (served w) := by
  have hreset := h.ready.reset
  have hout := (serviceOut_serving hg hreset.geometry hreset.space).serves
  have hmid : Keeps g m₀ K (inWorld w) :=
    ⟨inWorld_ready h.ready, fun p hp =>
      (hout.vm.bit_eq (hk.out p hp)).trans (h.bits p hp)⟩
  -- the request bit is kept as well, so nothing is read from the input
  have hidle := serviceIn_idle (w := inWorld w) (by
    rw [hmid.ready.geometry, hmid.bits _ hk.inReq, hk.inReq_off])
  show Keeps g m₀ K (serviceIn (inWorld w)).val
  rw [hidle]
  exact hmid

/-- **One tick** keeps `K` and fetches the initial code, whatever it returns. -/
theorem vmTick_keeps {w : World} (h : Keeps g m₀ K w) :
    (vmTick w).Yields (Event.Fetched g m₀) fun r => Keeps g m₀ K r.2 := by
  have hserved : Keeps g m₀ K (served w) := served_keeps hg hk h
  have hbegun : Keeps g m₀ K (begun w) := hserved.of_vm h.ready.begun (by rw [vm_begun])
  constructor
  · have hready := vmTick_ready h.ready
    obtain ⟨r, t, htick, hshape⟩ := vmTick_shape h.ready.space
    rw [htick] at hready ⊢
    cases hshape with
    | halt => exact hserved.of_vm hready rfl
    | ok =>
        have hP := hserved.ready.processorN
        exact (hbegun.beforeSlot hg hk hP.le).of_vm hready rfl
    | err _ hfirst =>
        have hj := hfirst.1.1
        rw [hserved.ready.geometry] at hj
        exact (hbegun.beforeSlot hg hk hj.le).of_vm hready rfl
  · refine vmTick_all hg h.ready (fun _ he => he.fetched) ?_ fun _ _ _ _ => trivial
    intro i hi
    exact ⟨hi, hserved.slotIns_eq hg hk hi⟩

/-! ## Whole runs -/

/-- **Every run** keeps `K` and fetches the initial code in every slot of every
tick, whatever it returns in the end. -/
theorem vmRun_keeps {w : World} (h : Keeps g m₀ K w) (life : Nat) :
    (vmRun life w).Yields (Event.Fetched g m₀) fun r => Keeps g m₀ K r.2 :=
  vmRun_yields (fun _ hw => vmTick_keeps hg hk hw) h life

variable (hhalt : g.mmio.halt ∈ K)
include hhalt

theorem vmTick_rc {w : World} (h : Keeps g m₀ K w) :
    ((vmTick w).val.1 = .halt ↔ m₀.bit g.mmio.halt = true) ∧
      ((vmTick w).val.1 = .err ↔
        m₀.bit g.mmio.halt = false ∧ ∃ i < g.processorN, SourceOut g m₀ i) := by
  have hserved : Keeps g m₀ K (served w) := served_keeps hg hk h
  have hP := hserved.ready.processorN
  have hbit : (served w).vm.mem.bit (served w).vm.mmio.halt = m₀.bit g.mmio.halt := by
    rw [hserved.ready.geometry, hserved.bits _ hhalt]
  obtain ⟨r, t, htick, hshape⟩ := vmTick_shape h.ready.space
  rw [htick]
  cases hshape with
  | halt h₁ => simp [← hbit, h₁]
  | ok h₁ hgood =>
      simp only [← hbit, h₁, true_and]
      refine ⟨by simp, iff_of_false (by simp) ?_⟩
      rintro ⟨i, hi, hs⟩
      exact hgood i (by omega) ((hserved.badSlot_iff hg hk hi).mpr hs)
  | @err j h₁ hfirst =>
      simp only [← hbit, h₁, true_and]
      obtain ⟨hj, hbad⟩ := hfirst.1
      rw [hP] at hj
      exact ⟨by simp, iff_of_true trivial ⟨j, hj, (hserved.badSlot_iff hg hk hj).mp hbad⟩⟩

/-- **What a run returns.** No run of any length fails if and only if the
machine halts at once or no slot has its source out of range. -/
theorem vmRun_ne_err_iff {w : World} (h : Keeps g m₀ K w) :
    (∀ life, (vmRun life w).val.1 ≠ .err) ↔
      m₀.bit g.mmio.halt = true ∨ ∀ i < g.processorN, ¬ SourceOut g m₀ i := by
  constructor
  · intro hall
    have hone := hall 1
    obtain ⟨-, herr⟩ := vmTick_rc hg hk hhalt h
    have htick : (vmTick w).val.1 ≠ .err := by
      intro he
      refine hone ?_
      simp only [vmRun, val_bind, val_ite]
      rw [if_pos (by rw [he]; decide)]
      exact he
    rw [ne_eq, herr, not_and] at htick
    cases hbit : m₀.bit g.mmio.halt with
    | true => exact Or.inl rfl
    | false => exact Or.inr fun i hi hs => htick hbit ⟨i, hi, hs⟩
  · intro hgood life
    induction life generalizing w with
    | zero =>
        show VmRc.ok ≠ .err
        decide
    | succ life ih =>
        obtain ⟨-, herr⟩ := vmTick_rc hg hk hhalt h
        have htick : (vmTick w).val.1 ≠ .err := by
          rw [ne_eq, herr]
          rintro ⟨hbit, i, hi, hs⟩
          rcases hgood with hgood | hgood
          · rw [hbit] at hgood
            cases hgood
          · exact hgood i hi hs
        simp only [vmRun, val_bind, val_ite]
        split
        · exact htick
        · exact ih (vmTick_keeps hg hk h).result

end Kept

end SpaceVerifier.Runtime
