import R0Kernel.Foundation.PrioritySearch
import R0Kernel.Lib.PrioTree.Model

/-!
# The keys of the tree

A node is above another one if its heap index is larger, or if it is the same and its radix index
is smaller. The side of a node below another one is decided by the bits of its radix index and,
below those, by the bits of its size.
-/

namespace R0Kernel.PrioTree

open PrioritySearch

/-- Heap index and radix index, the latter downwards. -/
abbrev Key := Nat ×ₗ Natᵒᵈ

def keyOf (index : Nat × Nat) : Key := toLex (index.2, OrderDual.toDual index.1)

def Key.heap (k : Key) : Nat := (ofLex k).1

def Key.radix (k : Key) : Nat := OrderDual.ofDual (ofLex k).2

def bitAt (bits d : Nat) (k : Key) : Bool :=
  if d < bits then k.radix.testBit (bits - 1 - d)
  else (k.heap - k.radix).testBit (bitsPerLong - 1 - (d - bits))

/-- A key that a tree with `bits` index bits can hold. -/
structure Key.Valid (bits : Nat) (k : Key) : Prop where
  le : k.radix ≤ k.heap
  lt : k.heap < 2 ^ bits

variable {bits d : Nat} {k u v : Key} {bits' : Nat} (index : Nat × Nat)

@[simp]
lemma heap_keyOf : (keyOf index).heap = index.2 := rfl

@[simp]
lemma radix_keyOf : (keyOf index).radix = index.1 := rfl

lemma Key.ext (hheap : u.heap = v.heap) (hradix : u.radix = v.radix) : u = v :=
  Prod.ext hheap hradix

lemma keyOf_inj {i j : Nat × Nat} : keyOf i = keyOf j ↔ i = j := by
  constructor
  · intro h
    exact Prod.ext (congrArg Key.radix h) (congrArg Key.heap h)
  · rintro rfl
    rfl

lemma key_lt_iff : u < v ↔ u.heap < v.heap ∨ (u.heap = v.heap ∧ v.radix < u.radix) :=
  Prod.Lex.lt_iff ..

lemma Key.Valid.mono (h : k.Valid bits) (hle : bits ≤ bits') : k.Valid bits' :=
  ⟨h.le, h.lt.trans_le (Nat.pow_le_pow_right Nat.two_pos hle)⟩

lemma Key.Valid.radix_lt (h : k.Valid bits) : k.radix < 2 ^ bits :=
  h.le.trans_lt h.lt

lemma Key.Valid.size_lt (h : k.Valid bits) (hbits : bits ≤ bitsPerLong) :
    k.heap - k.radix < 2 ^ bitsPerLong :=
  (Nat.sub_le _ _).trans_lt (h.mono hbits).lt

/-! ### The bits determine the key -/

lemma eq_of_testBit {x y n : Nat} (hx : x < 2 ^ n) (hy : y < 2 ^ n)
    (h : ∀ i < n, x.testBit i = y.testBit i) : x = y := by
  apply Nat.eq_of_testBit_eq
  intro i
  by_cases hi : i < n
  · exact h i hi
  · have hle := Nat.pow_le_pow_right Nat.two_pos (not_lt.mp hi)
    rw [Nat.testBit_lt_two_pow (hx.trans_le hle), Nat.testBit_lt_two_pow (hy.trans_le hle)]

lemma radix_eq_of_agree (hu : u.Valid bits) (hv : v.Valid bits) (hd : bits ≤ d)
    (h : Agree (bitAt bits) d u v) : u.radix = v.radix := by
  apply eq_of_testBit hu.radix_lt hv.radix_lt
  intro i hi
  have hbit := h (bits - 1 - i) (by omega)
  rw [bitAt, bitAt, if_pos (by omega), if_pos (by omega)] at hbit
  rwa [show bits - 1 - (bits - 1 - i) = i by omega] at hbit

section

variable (hbits : bits ≤ bitsPerLong) (hu : u.Valid bits) (hv : v.Valid bits)

include hbits hu hv

lemma eq_of_agree (hd : bits + bitsPerLong ≤ d) (h : Agree (bitAt bits) d u v) : u = v := by
  have hradix := radix_eq_of_agree hu hv (by omega) h
  have hsize : u.heap - u.radix = v.heap - v.radix := by
    apply eq_of_testBit (hu.size_lt hbits) (hv.size_lt hbits)
    intro i hi
    have hbit := h (bits + (bitsPerLong - 1 - i)) (by omega)
    rw [bitAt, bitAt, if_neg (by omega), if_neg (by omega)] at hbit
    rwa [show bitsPerLong - 1 - (bits + (bitsPerLong - 1 - i) - bits) = i by omega] at hbit
  apply Key.ext ?_ hradix
  have hule := hu.le
  have hvle := hv.le
  omega

/-- Different keys differ in one of their bits. -/
lemma lt_of_agree (hne : u ≠ v) (h : Agree (bitAt bits) d u v) : d < bits + bitsPerLong :=
  Nat.lt_of_not_le fun hd => hne (eq_of_agree hbits hu hv hd h)

end

/-- Of two keys that go to different sides by a bit of the radix index, the one on the right has the
larger radix index. -/
lemma radix_lt_of_agree (hu : u.Valid bits) (hv : v.Valid bits) (hd : d < bits)
    (h : Agree (bitAt bits) d u v) (hud : bitAt bits d u = false) (hvd : bitAt bits d v = true) :
    u.radix < v.radix := by
  rw [bitAt, if_pos hd] at hud hvd
  apply Nat.lt_of_testBit _ hud hvd
  intro j hj
  by_cases hjb : j < bits
  · have hbit := h (bits - 1 - j) (by omega)
    rw [bitAt, bitAt, if_pos (by omega), if_pos (by omega)] at hbit
    rwa [show bits - 1 - (bits - 1 - j) = j by omega] at hbit
  · have hle := Nat.pow_le_pow_right Nat.two_pos (not_lt.mp hjb)
    rw [Nat.testBit_lt_two_pow (hu.radix_lt.trans_le hle),
      Nat.testBit_lt_two_pow (hv.radix_lt.trans_le hle)]

/-- `prio_tree_remove` compares the heap indices only. That is enough: of two nodes that a common
parent has on its two sides, the left one is above the right one if their heap indices are the
same. -/
lemma heap_le_iff (hu : u.Valid bits) (hv : v.Valid bits)
    (h : Agree (bitAt bits) d u v) (hud : bitAt bits d u = false) (hvd : bitAt bits d v = true) :
    v.heap ≤ u.heap ↔ v < u := by
  rw [key_lt_iff]
  by_cases hd : d < bits
  · have hlt := radix_lt_of_agree hu hv hd h hud hvd
    omega
  · -- the radix indices are the same, and so the heap indices are not
    have hradix := radix_eq_of_agree hu hv (not_lt.mp hd) h
    have hne : u.heap ≠ v.heap := by
      intro heq
      rw [Key.ext heq hradix, hvd] at hud
      cases hud
    omega

/-! ### More index bits -/

lemma bitAt_widen_high (hk : k.Valid bits) {i : Nat} (hi : i < bits' - bits) :
    bitAt bits' i k = false := by
  rw [bitAt, if_pos (by omega)]
  apply Nat.testBit_lt_two_pow
  exact hk.radix_lt.trans_le (Nat.pow_le_pow_right Nat.two_pos (by omega))

lemma bitAt_widen (hle : bits ≤ bits') (i : Nat) (k : Key) :
    bitAt bits' (bits' - bits + i) k = bitAt bits i k := by
  rw [bitAt, bitAt]
  by_cases hi : i < bits
  · rw [if_pos hi, if_pos (by omega), show bits' - 1 - (bits' - bits + i) = bits - 1 - i by omega]
  · rw [if_neg hi, if_neg (by omega), show bits' - bits + i - bits' = i - bits by omega]

/-! ### The mask -/

/-- The mask of `prio_tree_insert` at depth `d`. -/
def maskAt (bits d : Nat) : Nat :=
  if d < bits then 2 ^ (bits - 1 - d) else 2 ^ (bitsPerLong - 1 - (d - bits))

lemma maskAt_of_lt (hd : d < bits) : maskAt bits d = 2 ^ (bits - 1 - d) :=
  if_pos hd

lemma maskAt_of_le (hd : bits ≤ d) : maskAt bits d = 2 ^ (bitsPerLong - 1 - (d - bits)) :=
  if_neg (not_lt.mpr hd)

lemma maskAt_ne_zero (bits d : Nat) : maskAt bits d ≠ 0 := by
  rw [maskAt]
  split
  · exact (Nat.two_pow_pos _).ne'
  · exact (Nat.two_pow_pos _).ne'

lemma and_two_pow_ne_zero (x i : Nat) : x &&& 2 ^ i ≠ 0 ↔ x.testBit i = true := by
  rw [Nat.and_two_pow]
  cases x.testBit i <;> simp

/-- The test of the mask reads the bit for the depth. -/
lemma and_maskAt (hk : k.Valid bits) (hbits : bits ≤ bitsPerLong) :
    (if decide (bits ≤ d) then indexSize k.radix k.heap else k.radix) &&& maskAt bits d ≠ 0 ↔
      bitAt bits d k = true := by
  rw [maskAt, bitAt]
  by_cases hd : d < bits
  · rw [if_neg (by simpa using hd), if_pos hd, if_pos hd, and_two_pow_ne_zero]
  · have hsize : indexSize k.radix k.heap = k.heap - k.radix := by
      have hle := hk.le
      have hlt := hk.size_lt hbits
      rw [indexSize, show k.heap + 2 ^ bitsPerLong - k.radix =
        k.heap - k.radix + 2 ^ bitsPerLong by omega, Nat.add_mod_right, Nat.mod_eq_of_lt hlt]
    rw [if_pos (by simpa using hd), if_neg hd, if_neg hd, hsize, and_two_pow_ne_zero]

section

variable (hne : d + 1 ≠ bits) (hd : d + 1 < bits + bitsPerLong)

include hne hd

/-- Away from the last bit of an index, the next mask is half of the mask. -/
lemma maskAt_eq_mul :
    maskAt bits d = maskAt bits (d + 1) * 2 := by
  by_cases hlt : d + 1 < bits
  · rw [maskAt_of_lt (by omega), maskAt_of_lt hlt, ← Nat.pow_add_one,
      show bits - 1 - (d + 1) + 1 = bits - 1 - d by omega]
  · rw [maskAt_of_le (by omega), maskAt_of_le (by omega), ← Nat.pow_add_one,
      show bitsPerLong - 1 - (d + 1 - bits) + 1 = bitsPerLong - 1 - (d - bits) by omega]

lemma maskAt_half :
    maskAt bits d / 2 = maskAt bits (d + 1) := by
  rw [maskAt_eq_mul hne hd, Nat.mul_div_cancel _ Nat.two_pos]

end

lemma maskAt_last (h : d + 1 = bits ∨ d + 1 = bits + bitsPerLong) : maskAt bits d = 1 := by
  rcases h with h | h
  · rw [maskAt_of_lt (by omega), show bits - 1 - d = 0 by omega, pow_zero]
  · have hpos : 0 < bitsPerLong := by decide
    rw [maskAt_of_le (by omega), show bitsPerLong - 1 - (d - bits) = 0 by omega, pow_zero]

lemma maskAt_size (bits : Nat) : maskAt bits bits = 2 ^ (bitsPerLong - 1) := by
  rw [maskAt_of_le le_rfl, Nat.sub_self, Nat.sub_zero]

lemma maskAt_lt (hbits : bits ≤ bitsPerLong) (d : Nat) : maskAt bits d < 2 ^ bitsPerLong := by
  have hpos : 0 < bitsPerLong := by decide
  rw [maskAt]
  split
  · exact Nat.pow_lt_pow_right Nat.one_lt_two (by omega)
  · exact Nat.pow_lt_pow_right Nat.one_lt_two (by omega)

lemma nextMask_maskAt (hd : d + 1 < bits + bitsPerLong) :
    nextMask (maskAt bits d) (decide (bits ≤ d)) =
      (maskAt bits (d + 1), decide (bits ≤ d + 1)) := by
  rw [nextMask]
  by_cases heq : d + 1 = bits
  · rw [maskAt_last (.inl heq), if_pos rfl, heq, maskAt_size, decide_eq_true le_rfl]
  · have hflag : bits ≤ d ↔ bits ≤ d + 1 := by omega
    rw [maskAt_half heq hd, if_neg (maskAt_ne_zero _ _), decide_eq_decide.mpr hflag]

lemma nextMask_ne_zero (mask : Nat) (sizeFlag : Bool) : (nextMask mask sizeFlag).1 ≠ 0 := by
  rw [nextMask]
  split
  next => exact (Nat.two_pow_pos _).ne'
  next h => exact h

lemma maxindex_eq (hpos : 0 < bits) (hbits : bits ≤ bitsPerLong) :
    prioTreeMaxindex bits = 2 ^ bits - 1 := by
  rw [prioTreeMaxindex]
  split
  · rw [Nat.sub_add_cancel hpos]
  · rw [ulongMax, show bits = bitsPerLong by omega]

end R0Kernel.PrioTree
