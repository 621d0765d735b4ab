import Mathlib.Data.Set.Function
import SpaceVerifier.Foundation.BitMem

/-!
# Memories that agree on some of their bits

`Set.EqOn m.bit m'.bit A` says that two memories hold the same bits at the
positions `A`. Writes keep it, and a field or a block of bytes inside `A` reads
the same in both.
-/

namespace Foundation

variable {A : Set Nat} {m m' : Mem}

/-- Memories that agree everywhere are equal. -/
theorem eq_of_eqOn_univ (h : Set.EqOn m.bit m'.bit Set.univ) : m = m' :=
  Mem.ext_bit fun p => h (Set.mem_univ p)

section

variable (h : Set.EqOn m.bit m'.bit A)
include h

theorem eqOn_setBit (p : Nat) (v : Bool) :
    Set.EqOn (m.setBit p v).bit (m'.setBit p v).bit A := by
  intro q hq
  rw [Mem.bit_setBit, Mem.bit_setBit, h hq]

theorem eqOn_writeField (pos w v : Nat) :
    Set.EqOn (m.writeField pos w v).bit (m'.writeField pos w v).bit A := by
  intro q hq
  rw [Mem.bit_writeField, Mem.bit_writeField, h hq]

theorem uintAt_eq_of_eqOn {pos w : Nat} (hin : Set.Ico pos (pos + w) ⊆ A) :
    uintAt m.bit pos w = uintAt m'.bit pos w := by
  refine uintAt_congr fun i hi => h (hin ?_)
  rw [Set.mem_Ico]
  omega

theorem bytesAt_eq_of_eqOn {start n : Nat}
    (hin : Set.Ico (8 * start) (8 * (start + n)) ⊆ A) :
    bytesAt m start n = bytesAt m' start n := by
  refine List.map_congr_left fun i hi => ?_
  have hi' := List.mem_range.mp hi
  refine BitVec.eq_of_getMsbD_eq fun k hk => ?_
  have hmem : 8 * (start + i) + k ∈ Set.Ico (8 * start) (8 * (start + n)) := by
    rw [Set.mem_Ico]
    omega
  have hbit := h (hin hmem)
  rwa [m.bit_of_byte _ hk, m'.bit_of_byte _ hk] at hbit

end

end Foundation
