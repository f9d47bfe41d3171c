import Mathlib
import R0Kernel.Lib.Bitmap.Region

/-!
# Shifts of a bitmap

`__bitmap_shift_right` and `__bitmap_shift_left` of `lib/bitmap.c` move whole words and the bits in
them at once, in place or from another bitmap. The order of the loops keeps the words that are still
to be read, and the bits beyond the size of the source do not count.
-/

namespace R0Kernel.Bitmap

open Function

def bitsToLongs (bits : Nat) : Nat := (bits + 31) / 32

/-- A word at index `k` of a bitmap, without the bits beyond its size. -/
def maskLast (bits k : Nat) (w : BitVec 32) : BitVec 32 :=
  if bits % 32 ≠ 0 ∧ k = bitsToLongs bits - 1 then w &&& (1#32 <<< (bits % 32) - 1) else w

/-- `memset` of `n` words to zero; a shift by more words than there are starts before the bitmap. -/
def clearLongs (dst : Words) (index : Int) (n : Nat) : Words :=
  fun k => if index ≤ k ∧ k < index + n then 0 else dst k

def rightWord (src : Words) (shift bits k : Nat) : BitVec 32 :=
  let off := shift / 32
  let rem := shift % 32
  let upper := if rem = 0 ∨ bitsToLongs bits ≤ off + k + 1 then 0
    else maskLast bits (off + k + 1) (src (off + k + 1))
  let lower := maskLast bits (off + k) (src (off + k))
  maskLast bits k (upper <<< (32 - rem) ||| lower >>> rem)

/-- The first `n` rounds; without another bitmap the words are read from `dst`. -/
def rightLoop (src : Option Words) (shift bits : Nat) : Nat → Words → Words
  | 0, dst => dst
  | k + 1, dst =>
    let dst := rightLoop src shift bits k dst
    update dst k (rightWord (src.getD dst) shift bits k)

def bitmapShiftRight (src : Option Words) (dst : Words) (shift bits : Nat) : Words :=
  let off := shift / 32
  let dst := rightLoop src shift bits (bitsToLongs bits - off) dst
  clearLongs dst ((bitsToLongs bits : Int) - off) off

def leftWord (src : Words) (shift bits k : Nat) : BitVec 32 :=
  let rem := shift % 32
  let lower := if rem ≠ 0 ∧ 0 < k then src (k - 1) else 0
  let upper := maskLast bits k (src k)
  maskLast bits (k + shift / 32) (lower >>> (32 - rem) ||| upper <<< rem)

def leftLoop (src : Option Words) (shift bits : Nat) : Nat → Words → Words
  | 0, dst => dst
  | k + 1, dst =>
    leftLoop src shift bits k
      (update dst (k + shift / 32) (leftWord (src.getD dst) shift bits k))

def bitmapShiftLeft (src : Option Words) (dst : Words) (shift bits : Nat) : Words :=
  let off := shift / 32
  let dst := leftLoop src shift bits (bitsToLongs bits - off) dst
  clearLongs dst 0 off

variable (m : Words)

/-- The number that the bits of a bitmap make up. -/
def value (bits : Nat) : Nat := Nat.ofBits fun i : Fin bits => bit m i

/-! ### The loops -/

variable {src : Option Words} {dst : Words} {shift bits k j : Nat}

/-- A round reads no word that an earlier one has written. -/
lemma rightLoop_apply (n i : Nat) :
    rightLoop src shift bits n dst i =
      if i < n then rightWord (src.getD dst) shift bits i else dst i := by
  induction n generalizing i with
  | zero => rfl
  | succ n ih =>
    have hread (i : Nat) (hi : n ≤ i) : src.getD (rightLoop src shift bits n dst) i =
        src.getD dst i := by
      cases src with
      | none => exact (ih i).trans (if_neg (not_lt.mpr hi))
      | some src => rfl
    rw [rightLoop, update_apply]
    rcases lt_trichotomy i n with hlt | rfl | hgt
    · rw [if_neg hlt.ne, ih, if_pos hlt, if_pos (by omega)]
    · rw [if_pos rfl, if_pos (by omega), rightWord, rightWord, hread _ (by omega),
        hread _ (by omega)]
    · rw [if_neg hgt.ne', ih, if_neg (by omega), if_neg (by omega)]

lemma leftLoop_apply (n i : Nat) :
    leftLoop src shift bits n dst i =
      if shift / 32 ≤ i ∧ i < n + shift / 32 then
        leftWord (src.getD dst) shift bits (i - shift / 32)
      else dst i := by
  induction n generalizing dst with
  | zero => rw [leftLoop, if_neg (by omega)]
  | succ n ih =>
    rw [leftLoop, ih]
    set w := leftWord (src.getD dst) shift bits n with hw
    have hread (i : Nat) (hi : i < n) : src.getD (update dst (n + shift / 32) w) i =
        src.getD dst i := by
      cases src with
      | none => exact update_of_ne (by omega) ..
      | some src => rfl
    split_ifs with hin hin' hin'
    · simp only [leftWord]
      rw [hread _ (by omega), hread _ (by omega)]
    · omega
    · obtain rfl : i = n + shift / 32 := by omega
      rw [update_self, hw, Nat.add_sub_cancel]
    · exact update_of_ne (by omega) ..

/-! ### The bits of a word -/

lemma getLsbD_maskLast (w : BitVec 32) (hk : k < bitsToLongs bits) (hj : j < 32) :
    (maskLast bits k w).getLsbD j = (decide (32 * k + j < bits) && w.getLsbD j) := by
  have hmask : ∀ left < 32, ∀ j < 32, (1#32 <<< left - 1).getLsbD j = decide (j < left) := by
    decide
  rw [bitsToLongs] at hk
  rw [maskLast, bitsToLongs]
  split_ifs with hlast
  · rw [BitVec.getLsbD_and, hmask _ (Nat.mod_lt _ (by decide)) _ hj, Bool.and_comm]
    congr 2
    simp only [eq_iff_iff]
    omega
  · rw [decide_eq_true (by omega), Bool.true_and]

/-- A bit of a bitmap, if it is inside. -/
def bitBelow (bits b : Nat) : Bool := decide (b < bits) && bit m b

lemma bit_eq {b : Nat} (hj : j < 32) (hb : b = 32 * k + j) : bit m b = (m k).getLsbD j := by
  rw [bit, show b / 32 = k by omega, show b % 32 = j by omega]

lemma getLsbD_masked {b : Nat} (hk : k < bitsToLongs bits) (hj : j < 32) (hb : b = 32 * k + j) :
    (maskLast bits k (m k)).getLsbD j = bitBelow m bits b := by
  rw [getLsbD_maskLast _ hk hj, bitBelow, bit_eq m hj hb, hb]

lemma getLsbD_rightWord (hk : shift / 32 + k < bitsToLongs bits) (hj : j < 32)
    (hb : 32 * k + j < bits) :
    (rightWord m shift bits k).getLsbD j = bitBelow m bits (32 * k + j + shift) := by
  simp only [rightWord, getLsbD_maskLast _ (by omega : k < bitsToLongs bits) hj, hb, decide_true,
    Bool.true_and, BitVec.getLsbD_or, BitVec.getLsbD_shiftLeft, BitVec.getLsbD_ushiftRight, hj]
  by_cases hcarry : j + shift % 32 < 32
  · rw [decide_eq_true (by omega : j < 32 - shift % 32), Bool.not_true, Bool.false_and,
      Bool.false_or]
    exact getLsbD_masked m hk (by omega) (by omega)
  · rw [decide_eq_false (by omega : ¬j < 32 - shift % 32), Bool.not_false, Bool.true_and,
      BitVec.getLsbD_of_ge _ (shift % 32 + j) (by omega), Bool.or_false]
    split_ifs with hend
    · rw [bitBelow, decide_eq_false (by rw [bitsToLongs] at hend; omega)]
      exact BitVec.getLsbD_zero
    · exact getLsbD_masked m (by omega) (by omega) (by omega)

lemma getLsbD_leftWord {b : Nat} (hk : k + shift / 32 < bitsToLongs bits) (hj : j < 32)
    (hj' : b = 32 * (k + shift / 32) + j) (hb : b < bits) :
    (leftWord m shift bits k).getLsbD j = (decide (shift ≤ b) && bit m (b - shift)) := by
  subst hj'
  simp only [leftWord, getLsbD_maskLast _ hk hj, hb, decide_true, Bool.true_and, BitVec.getLsbD_or,
    BitVec.getLsbD_shiftLeft, BitVec.getLsbD_ushiftRight, hj]
  by_cases hcarry : j < shift % 32
  · rw [decide_eq_true hcarry, Bool.not_true, Bool.false_and, Bool.or_false]
    split_ifs with hpos
    · rw [decide_eq_true (by omega), Bool.true_and]
      exact (bit_eq m (by omega) (by omega)).symm
    · rw [decide_eq_false (by omega)]
      exact BitVec.getLsbD_zero
  · rw [decide_eq_false hcarry, Bool.not_false, Bool.true_and, decide_eq_true (by omega),
      Bool.true_and, BitVec.getLsbD_of_ge _ (32 - shift % 32 + j) (by omega), Bool.false_or,
      getLsbD_maskLast _ (by omega) (by omega), decide_eq_true (by omega), Bool.true_and]
    exact (bit_eq m (by omega) (by omega)).symm

/-! ### The bitmaps -/

lemma testBit_value (bits b : Nat) : (value m bits).testBit b = bitBelow m bits b := by
  rw [value, Nat.testBit_ofBits, bitBelow]
  split_ifs with hb <;> simp [hb]

lemma bit_bitmapShiftRight {b : Nat} (hb : b < bits) :
    bit (bitmapShiftRight src dst shift bits) b = bitBelow (src.getD dst) bits (b + shift) := by
  rw [bit, bitmapShiftRight, clearLongs, rightLoop_apply]
  split_ifs with hclear hmoved
  · rw [bitBelow, decide_eq_false (by rw [bitsToLongs] at hclear; omega)]
    exact BitVec.getLsbD_zero
  · rw [getLsbD_rightWord _ (by omega) (Nat.mod_lt _ (by decide)) (by omega), Nat.div_add_mod]
  · rw [bitsToLongs] at hclear hmoved
    omega

lemma bit_bitmapShiftLeft {b : Nat} (hb : b < bits) :
    bit (bitmapShiftLeft src dst shift bits) b =
      (decide (shift ≤ b) && bit (src.getD dst) (b - shift)) := by
  have hlong : b / 32 < bitsToLongs bits := by
    rw [bitsToLongs]
    omega
  rw [bit, bitmapShiftLeft, clearLongs, leftLoop_apply]
  split_ifs with hclear hmoved
  · rw [decide_eq_false (by omega)]
    exact BitVec.getLsbD_zero
  · exact getLsbD_leftWord _ (by omega) (Nat.mod_lt _ (by decide)) (by omega) hb
  · omega

/-- The low bits of the destination are those of the source divided by `2 ^ shift`, or multiplied by
it and cut to the size. -/
theorem bitmap_shift_value (src : Option Words) (dst : Words) (shift bits : Nat) :
    value (bitmapShiftRight src dst shift bits) bits = value (src.getD dst) bits / 2 ^ shift ∧
      value (bitmapShiftLeft src dst shift bits) bits =
        value (src.getD dst) bits * 2 ^ shift % 2 ^ bits := by
  constructor
  · apply Nat.eq_of_testBit_eq
    intro b
    rw [Nat.testBit_div_two_pow, testBit_value, testBit_value, bitBelow]
    by_cases hb : b < bits
    · rw [bit_bitmapShiftRight hb, decide_eq_true hb, Bool.true_and]
    · rw [bitBelow, decide_eq_false hb, decide_eq_false (by omega), Bool.false_and, Bool.false_and]
  · apply Nat.eq_of_testBit_eq
    intro b
    rw [Nat.testBit_mod_two_pow, Nat.testBit_mul_two_pow, testBit_value, testBit_value, bitBelow,
      bitBelow]
    by_cases hb : b < bits
    · rw [bit_bitmapShiftLeft hb, decide_eq_true (by omega : b - shift < bits), Bool.true_and]
    · rw [decide_eq_false hb, Bool.false_and, Bool.false_and]

end R0Kernel.Bitmap
