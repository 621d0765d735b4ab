import Mathlib.Tactic.Common
import Mathlib.Data.Nat.Bitwise
import Mathlib.Tactic.Ring

/-!
# Byte memories read as bit strings, most significant bit first

Bit `p` of a memory is bit `p % 8` of byte `p / 8`, counted from the most
significant end. The module gives the bit of a byte store, extensionality by
bits, and the number spelled by `w` consecutive bits (`uintAt`), which is what
every MSB-first reader and writer of a fixed-width field is compared with.
-/

namespace Foundation

abbrev Byte := BitVec 8

/-- A byte-addressed memory. It is total: positions past a block stand for
whatever the address space holds there. -/
abbrev Mem := Nat → Byte

/-- Bit `p` of a memory. -/
def Mem.bit (m : Mem) (p : Nat) : Bool := (m (p / 8)).getMsbD (p % 8)

def Mem.store (m : Mem) (i : Nat) (v : Byte) : Mem :=
  fun j => if j = i then v else m j

theorem Mem.bit_store (m : Mem) (i : Nat) (v : Byte) (p : Nat) :
    (m.store i v).bit p =
      if p / 8 = i then v.getMsbD (p % 8) else m.bit p := by
  unfold Mem.bit Mem.store
  split <;> rfl

theorem Mem.bit_of_byte (m : Mem) (i : Nat) {k : Nat} (hk : k < 8) :
    m.bit (8 * i + k) = (m i).getMsbD k := by
  unfold Mem.bit
  rw [show (8 * i + k) / 8 = i by omega, show (8 * i + k) % 8 = k by omega]

/-- Two memories with the same bits are equal. -/
theorem Mem.ext_bit {m m' : Mem} (h : ∀ p, m.bit p = m'.bit p) : m = m' := by
  funext i
  apply BitVec.eq_of_getMsbD_eq
  intro k hk
  have := h (8 * i + k)
  rwa [m.bit_of_byte i hk, m'.bit_of_byte i hk] at this

/-- The memory whose bit `p` is `f p`. -/
def Mem.ofBits (f : Nat → Bool) : Mem :=
  fun i => BitVec.ofBoolListBE ((List.range 8).map fun k => f (8 * i + k))

@[simp] theorem Mem.bit_ofBits (f : Nat → Bool) (p : Nat) :
    (Mem.ofBits f).bit p = f p := by
  have hp : p % 8 < 8 := Nat.mod_lt _ (by decide)
  have h : 8 * (p / 8) + p % 8 = p := by omega
  unfold Mem.bit Mem.ofBits
  show (BitVec.ofBoolListBE _).getMsbD (p % 8) = f p
  rw [BitVec.getMsbD_ofBoolListBE, List.getD_eq_getElem?_getD]
  simp [hp, h]

/-! ## Single bits inside a byte -/

/-- The mask `1 << (7 - k)` selects bit `k`, counted from the top. -/
theorem getMsbD_bitMask {k j : Nat} (hk : k < 8) (hj : j < 8) :
    ((1 : Byte) <<< (7 - k)).getMsbD j = decide (j = k) := by
  have h : ∀ k j : Fin 8,
      ((1 : Byte) <<< (7 - k.val)).getMsbD j.val = decide (j.val = k.val) := by
    decide
  exact h ⟨k, hk⟩ ⟨j, hj⟩

/-- `(b >> (7 - k)) & 1` is bit `k`, counted from the top. -/
theorem shift_and_one_ne_zero (b : Byte) {k : Nat} (hk : k < 8) :
    (decide ((b >>> (7 - k)) &&& 1 ≠ 0)) = b.getMsbD k := by
  have hbit : b.getMsbD k = (b >>> (7 - k)).getLsbD 0 := by
    simp [BitVec.getMsbD_eq_getLsbD, hk]
  rw [hbit, show (1 : Byte) = 1#8 from rfl,
    BitVec.and_one_eq_setWidth_ofBool_getLsbD]
  cases (b >>> (7 - k)).getLsbD 0 <;> rfl

/-- Setting or clearing the bits of a mask. -/
theorem getMsbD_setMask (b mask : Byte) (v : Bool) {j : Nat} (hj : j < 8) :
    (if v then b ||| mask else b &&& ~~~mask).getMsbD j =
      if mask.getMsbD j then v else b.getMsbD j := by
  cases v <;> cases hm : mask.getMsbD j <;> simp [hm, hj]

/-- Two bytes merged under a mask. -/
theorem getMsbD_mergeMask (old new mask : Byte) {j : Nat} (hj : j < 8) :
    ((old &&& ~~~mask) ||| (new &&& mask)).getMsbD j =
      if mask.getMsbD j then new.getMsbD j else old.getMsbD j := by
  cases hm : mask.getMsbD j <;> simp [hm, hj]

/-- Bit `p` set to `v` by masking the byte that holds it. -/
def Mem.setBit (m : Mem) (p : Nat) (v : Bool) : Mem :=
  let mask := (1 : Byte) <<< (7 - p % 8)
  m.store (p / 8) (if v then m (p / 8) ||| mask else m (p / 8) &&& ~~~mask)

@[simp] theorem Mem.bit_setBit (m : Mem) (p : Nat) (v : Bool) (q : Nat) :
    (m.setBit p v).bit q = if q = p then v else m.bit q := by
  have hq : q % 8 < 8 := Nat.mod_lt _ (by decide)
  unfold Mem.setBit
  rw [Mem.bit_store]
  by_cases hbyte : q / 8 = p / 8
  · rw [if_pos hbyte, getMsbD_setMask _ _ v hq,
      getMsbD_bitMask (Nat.mod_lt _ (by decide)) hq, ← hbyte]
    by_cases hqp : q = p
    · rw [if_pos hqp, if_pos (by simp [hqp])]
    · have hmod : ¬ q % 8 = p % 8 := by omega
      rw [if_neg hqp, if_neg (by simpa using hmod)]
      rfl
  · have hne : ¬ q = p := fun h => hbyte (by rw [h])
    rw [if_neg hbyte, if_neg hne]

/-- The bytes `[start, start + n)` of a memory. -/
def bytesAt (m : Mem) (start n : Nat) : List Byte :=
  (List.range n).map fun i => m (start + i)

@[simp] theorem length_bytesAt (m : Mem) (start n : Nat) :
    (bytesAt m start n).length = n := by
  simp [bytesAt]

/-! ## Fields: the number spelled by `w` consecutive bits -/

/-- The `w`-bit number at bit `pos` of the bit string `b`. -/
def uintAt (b : Nat → Bool) (pos : Nat) : Nat → Nat
  | 0 => 0
  | w + 1 => 2 * uintAt b pos w + (b (pos + w)).toNat

theorem uintAt_lt (b : Nat → Bool) (pos w : Nat) : uintAt b pos w < 2 ^ w := by
  induction w with
  | zero => simp [uintAt]
  | succ w ih =>
      have hb := (b (pos + w)).toNat_lt
      rw [uintAt, pow_succ]
      omega

theorem uintAt_congr {b b' : Nat → Bool} {pos pos' w : Nat}
    (h : ∀ i < w, b (pos + i) = b' (pos' + i)) :
    uintAt b pos w = uintAt b' pos' w := by
  induction w with
  | zero => rfl
  | succ w ih =>
      rw [uintAt, uintAt, ih fun i hi => h i (Nat.lt_succ_of_lt hi),
        h w (Nat.lt_succ_self w)]

theorem testBit_uintAt (b : Nat → Bool) (pos w i : Nat) :
    (uintAt b pos w).testBit i =
      (decide (i < w) && b (pos + (w - 1 - i))) := by
  induction w generalizing i with
  | zero => simp [uintAt]
  | succ w ih =>
      have hpar : 2 * uintAt b pos w + (b (pos + w)).toNat =
          Nat.bit (b (pos + w)) (uintAt b pos w) := by
        cases b (pos + w) <;> simp [Nat.bit]
      rw [uintAt, hpar]
      cases i with
      | zero => simp
      | succ i =>
          rw [Nat.testBit_bit_succ, ih]
          congr 2
          · simp
          · omega

/-- A number is the field at `pos` when its bits are the field's bits. -/
theorem eq_uintAt {b : Nat → Bool} {pos w v : Nat} (hv : v < 2 ^ w)
    (h : ∀ i < w, v.testBit (w - 1 - i) = b (pos + i)) :
    v = uintAt b pos w := by
  apply Nat.eq_of_testBit_eq
  intro j
  rw [testBit_uintAt]
  by_cases hj : j < w
  · have := h (w - 1 - j) (by omega)
    rw [show w - 1 - (w - 1 - j) = j by omega] at this
    simp [hj, this]
  · have hle : v < 2 ^ j :=
      Nat.lt_of_lt_of_le hv (Nat.pow_le_pow_right (by decide) (by omega))
    simp [hj, Nat.testBit_lt_two_pow hle]

/-- Fields of one width are equal exactly when their bits are. -/
theorem uintAt_inj {b b' : Nat → Bool} {pos pos' w : Nat} :
    uintAt b pos w = uintAt b' pos' w ↔ ∀ i < w, b (pos + i) = b' (pos' + i) := by
  constructor
  · intro h i hi
    have hbit := congrArg (fun v => v.testBit (w - 1 - i)) h
    simp only [testBit_uintAt, decide_eq_true (show w - 1 - i < w by omega),
      Bool.true_and] at hbit
    rwa [show w - 1 - (w - 1 - i) = i by omega] at hbit
  · exact uintAt_congr

/-- A field without a set bit is zero. -/
theorem uintAt_eq_zero {b : Nat → Bool} {pos w : Nat}
    (h : ∀ i < w, b (pos + i) = false) : uintAt b pos w = 0 := by
  symm
  refine eq_uintAt (Nat.two_pow_pos w) ?_
  intro i hi
  rw [Nat.zero_testBit, h i hi]

/-- A field read in two parts. -/
theorem uintAt_add (b : Nat → Bool) (pos u w : Nat) :
    uintAt b pos (u + w) = uintAt b pos u * 2 ^ w + uintAt b (pos + u) w := by
  induction w with
  | zero => simp [uintAt]
  | succ w ih =>
      rw [← Nat.add_assoc, uintAt, uintAt, ih, pow_succ,
        show pos + (u + w) = pos + u + w by omega]
      ring

theorem uintAt_shiftRight (b : Nat → Bool) (pos u w : Nat) :
    uintAt b pos (u + w) >>> w = uintAt b pos u := by
  rw [uintAt_add, Nat.shiftRight_eq_div_pow, Nat.mul_comm,
    Nat.mul_add_div (Nat.two_pow_pos w),
    Nat.div_eq_of_lt (uintAt_lt b (pos + u) w), Nat.add_zero]

theorem uintAt_and_mask (b : Nat → Bool) (pos u w : Nat) :
    uintAt b pos (u + w) &&& ((1 <<< w) - 1) = uintAt b (pos + u) w := by
  rw [Nat.one_shiftLeft, Nat.and_two_pow_sub_one_eq_mod, uintAt_add,
    Nat.mul_add_mod_of_lt (uintAt_lt b (pos + u) w)]

/-- A byte is the field of its eight bits. -/
theorem uintAt_byte (m : Mem) (i : Nat) :
    uintAt m.bit (8 * i) 8 = (m i).toNat := by
  symm
  refine eq_uintAt (m i).isLt ?_
  intro k hk
  rw [m.bit_of_byte i hk, BitVec.testBit_toNat, BitVec.getMsbD_eq_getLsbD]
  simp [hk]

/-! ## Writing a field -/

/-- The `w` low bits of `v`, most significant first, at bit `pos`. -/
def Mem.writeField (m : Mem) (pos w v : Nat) : Mem :=
  Mem.ofBits fun p =>
    if pos ≤ p ∧ p < pos + w then v.testBit (w - 1 - (p - pos)) else m.bit p

theorem Mem.bit_writeField (m : Mem) (pos w v p : Nat) :
    (m.writeField pos w v).bit p =
      if pos ≤ p ∧ p < pos + w then v.testBit (w - 1 - (p - pos))
      else m.bit p :=
  Mem.bit_ofBits _ p

theorem Mem.bit_writeField_of_notMem (m : Mem) {pos w v p : Nat}
    (h : ¬ (pos ≤ p ∧ p < pos + w)) : (m.writeField pos w v).bit p = m.bit p := by
  rw [Mem.bit_writeField, if_neg h]

/-- A field holds the low bits of what was written into it. -/
theorem uintAt_writeField_mod (m : Mem) (pos w v : Nat) :
    uintAt (m.writeField pos w v).bit pos w = v % 2 ^ w := by
  symm
  refine eq_uintAt (Nat.mod_lt v (Nat.two_pow_pos w)) ?_
  intro i hi
  rw [Mem.bit_writeField, if_pos ⟨by omega, by omega⟩,
    show pos + i - pos = i by omega, Nat.testBit_mod_two_pow,
    decide_eq_true (show w - 1 - i < w by omega), Bool.true_and]

/-- A field holds what was written into it. -/
theorem uintAt_writeField (m : Mem) (pos : Nat) {w v : Nat} (hv : v < 2 ^ w) :
    uintAt (m.writeField pos w v).bit pos w = v := by
  rw [uintAt_writeField_mod, Nat.mod_eq_of_lt hv]

/-- Writing back what a field holds changes nothing. -/
theorem writeField_uintAt (m : Mem) (pos w : Nat) :
    m.writeField pos w (uintAt m.bit pos w) = m := by
  apply Mem.ext_bit
  intro p
  rw [Mem.bit_writeField]
  split
  · next hp =>
      rw [testBit_uintAt, decide_eq_true (show w - 1 - (p - pos) < w by omega),
        Bool.true_and, show pos + (w - 1 - (w - 1 - (p - pos))) = p by omega]
  · rfl

/-! ## Little-endian words -/

/-- The bytes `f 0, …, f n` as one word, `f 0` the least significant. -/
def leWord (f : Nat → Byte) : (n : Nat) → BitVec (8 * (n + 1))
  | 0 => f 0
  | n + 1 => leWord (fun i => f (i + 1)) n ++ f 0

/-- Bit `r` of byte `j` of a word, both from the least significant end. -/
theorem getLsbD_leWord {f : Nat → Byte} {n j r : Nat} (hj : j ≤ n) (hr : r < 8) :
    (leWord f n).getLsbD (8 * j + r) = (f j).getLsbD r := by
  induction n generalizing f j with
  | zero =>
      obtain rfl : j = 0 := by omega
      show (f 0).getLsbD (8 * 0 + r) = _
      rw [Nat.mul_zero, Nat.zero_add]
  | succ n ih =>
      show (leWord (fun i => f (i + 1)) n ++ f 0).getLsbD (8 * j + r) = _
      rw [BitVec.getLsbD_append]
      cases j with
      | zero => rw [if_pos (by omega), Nat.mul_zero, Nat.zero_add]
      | succ j =>
          rw [if_neg (by omega), show 8 * (j + 1) + r - 8 = 8 * j + r by omega]
          exact ih (by omega)

end Foundation
