import Mathlib.Data.Nat.Digits.Defs
import SpaceVerifier.Foundation.BitMem

/-!
# Numbers as little-endian bytes

A number in a fixed number of bytes, least significant first, and back. The two
are inverse on numbers that fit and on every list of bytes.
-/

namespace Foundation

/-- The `w` low bytes of `v`, least significant first. -/
def leBytes : (w v : Nat) → List Byte
  | 0, _ => []
  | w + 1, v => BitVec.ofNat 8 v :: leBytes w (v / 256)

/-- The number whose base 256 digits are the bytes. -/
def leValue (bs : List Byte) : Nat := Nat.ofDigits 256 (bs.map BitVec.toNat)

@[simp] theorem length_leBytes (w v : Nat) : (leBytes w v).length = w := by
  induction w generalizing v with
  | zero => rfl
  | succ w ih => rw [leBytes, List.length_cons, ih]

theorem leValue_cons (b : Byte) (bs : List Byte) :
    leValue (b :: bs) = b.toNat + 256 * leValue bs := by
  rw [leValue, List.map_cons, Nat.ofDigits_cons]
  rfl

theorem leValue_lt (bs : List Byte) : leValue bs < 256 ^ bs.length := by
  induction bs with
  | nil => decide
  | cons b bs ih =>
      have hb : b.toNat < 256 := b.isLt
      rw [leValue_cons, List.length_cons, pow_succ]
      omega

theorem leValue_leBytes {w v : Nat} (hv : v < 256 ^ w) : leValue (leBytes w v) = v := by
  induction w generalizing v with
  | zero =>
      obtain rfl : v = 0 := by simpa using hv
      rfl
  | succ w ih =>
      have hbyte : (BitVec.ofNat 8 v).toNat = v % 256 := BitVec.toNat_ofNat v 8
      rw [pow_succ] at hv
      rw [leBytes, leValue_cons, hbyte, ih (by omega)]
      omega

theorem leBytes_leValue (bs : List Byte) : leBytes bs.length (leValue bs) = bs := by
  induction bs with
  | nil => rfl
  | cons b bs ih =>
      have hb : b.toNat < 256 := b.isLt
      have hlow : BitVec.ofNat 8 (leValue (b :: bs)) = b := by
        apply BitVec.eq_of_toNat_eq
        rw [BitVec.toNat_ofNat, leValue_cons]
        omega
      have hhigh : leValue (b :: bs) / 256 = leValue bs := by
        rw [leValue_cons]
        omega
      rw [List.length_cons, leBytes, hlow, hhigh, ih]

end Foundation
