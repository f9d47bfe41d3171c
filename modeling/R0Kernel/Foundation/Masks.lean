import Mathlib.Data.UInt
import Mathlib.Data.Nat.Bitwise

/-!
# Masks of low bits

Clearing the low bits of a machine word goes down to a multiple of a power of two.
-/

namespace R0Kernel.Masks

variable {k n w : Nat}

lemma and_clear (hn : n < 2 ^ w) (hk : k ≤ w) :
    n &&& (2 ^ w - 2 ^ k) = n / 2 ^ k * 2 ^ k := by
  have hmask : 2 ^ w - 2 ^ k = (2 ^ (w - k) - 1) <<< k := by
    rw [Nat.shiftLeft_eq, Nat.sub_mul, ← pow_add, Nat.sub_add_cancel hk, Nat.one_mul]
  apply Nat.eq_of_testBit_eq
  intro i
  rw [hmask,
    Nat.testBit_mul_two_pow, Nat.testBit_div_two_pow]
  by_cases hi : k ≤ i
  · rw [Nat.sub_add_cancel hi]
    by_cases hlt : i < w
    · have hroom : i - k < w - k := by omega
      simp [hi, hroom]
    · have hhigh : n.testBit i = false :=
        Nat.testBit_lt_two_pow (hn.trans_le (Nat.pow_le_pow_right (by decide) (by omega)))
      simp [hhigh]
  · simp [hi]

lemma toNat_sub_one {a : UInt32} (ha : a.toNat = 2 ^ k) : (a - 1).toNat = 2 ^ k - 1 := by
  have hpos : 0 < 2 ^ k := Nat.two_pow_pos k
  rw [UInt32.toNat_sub_of_le _ _ (UInt32.le_iff_toNat_le.mpr (by rw [ha]; exact hpos)), ha]
  rfl

lemma toNat_and_not {a : UInt32} (ha : a.toNat = 2 ^ k) (hk : k ≤ 32) (x : UInt32) :
    (x &&& ~~~(a - 1)).toNat = x.toNat / 2 ^ k * 2 ^ k := by
  have hpos : 0 < 2 ^ k := Nat.two_pow_pos k
  have hmask : (~~~(a - 1)).toNat = 2 ^ 32 - 2 ^ k := by
    rw [UInt32.toNat_not, toNat_sub_one ha]
    have hsize : UInt32.size = 2 ^ 32 := rfl
    omega
  rw [UInt32.toNat_and, hmask, and_clear x.toNat_lt hk]

lemma toNat_one_shiftLeft (hk : k < 32) : (1 <<< UInt32.ofNat k).toNat = 2 ^ k := by
  have hlt : 2 ^ k < 2 ^ 32 := Nat.pow_lt_pow_right (by decide) hk
  have hshift : (UInt32.ofNat k).toNat % 32 = k := by
    rw [UInt32.toNat_ofNat']
    omega
  rw [UInt32.toNat_shiftLeft, hshift, UInt32.toNat_one, Nat.one_shiftLeft, Nat.mod_eq_of_lt hlt]

end R0Kernel.Masks
