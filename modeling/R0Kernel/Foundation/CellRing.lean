import Mathlib.Data.List.Range
import Mathlib.Data.Nat.ModEq

/-!
# Rings of cells

A buffer of `size` cells in which the cell behind the last one is the first. A stretch is a number
of cells from a position on, where positions run freely and only their remainder counts. A transfer
of at most `size` elements is made of two copies, up to the end of the buffer and from its
beginning.
-/

namespace R0Kernel.CellRing

open List

variable {α : Type}

/-- `n` elements from place `s` of `src` to place `d` of `dst`. -/
def copy (dst : Nat → α) (d : Nat) (src : Nat → α) (s n : Nat) : Nat → α :=
  fun i => if d ≤ i ∧ i < d + n then src (s + (i - d)) else dst i

/-- The elements of a transfer that come before the end of the buffer. -/
def untilEnd (size pos n : Nat) : Nat := min n (size - pos % size)

/-- A transfer into the ring. -/
def store (buf : Nat → α) (size pos : Nat) (src : Nat → α) (n : Nat) : Nat → α :=
  let l := untilEnd size pos n
  copy (copy buf (pos % size) src 0 l) 0 src l (n - l)

/-- A transfer out of the ring. -/
def fetch (dst : Nat → α) (buf : Nat → α) (size pos n : Nat) : Nat → α :=
  let l := untilEnd size pos n
  copy (copy dst 0 buf (pos % size) l) l buf 0 (n - l)

def stretch (buf : Nat → α) (size pos n : Nat) : List α :=
  (List.range n).map fun k => buf ((pos + k) % size)

variable {buf src dst : Nat → α} {size pos k m n : Nat}

/-- A position comes round once in a transfer. -/
lemma place_eq (hk : k < size) :
    (pos + k) % size = if pos % size + k < size then pos % size + k else pos % size + k - size := by
  have hpos := Nat.mod_lt pos (Nat.lt_of_le_of_lt (Nat.zero_le k) hk)
  rw [Nat.add_mod, Nat.mod_eq_of_lt hk]
  split_ifs with hlt
  · exact Nat.mod_eq_of_lt hlt
  · rw [Nat.mod_eq_sub_mod (Nat.le_of_not_lt hlt), Nat.mod_eq_of_lt (by omega)]

/-- After a transfer a cell holds the element that was sent to it, or what it held before. -/
lemma store_apply (hn : n ≤ size) (hk : k < size) :
    store buf size pos src n ((pos + k) % size) = if k < n then src k
      else buf ((pos + k) % size) := by
  have hpos := Nat.mod_lt pos (Nat.lt_of_le_of_lt (Nat.zero_le k) hk)
  simp only [store, copy, untilEnd, place_eq hk]
  generalize pos % size = p at hpos
  by_cases hround : p + k < size
  · rw [if_pos hround, if_neg (by omega)]
    by_cases hkn : k < n
    · rw [if_pos (by omega), if_pos hkn, Nat.zero_add, Nat.add_sub_cancel_left]
    · rw [if_neg (by omega), if_neg hkn]
  · rw [if_neg hround]
    by_cases hkn : k < n
    · rw [if_pos (by omega), if_pos hkn]
      congr 1
      omega
    · rw [if_neg (by omega), if_neg (by omega), if_neg hkn]

/-- A transfer into the ring stays in the buffer. -/
lemma store_of_le (hn : n ≤ size) {i : Nat} (hi : size ≤ i) :
    store buf size pos src n i = buf i := by
  simp only [store, copy, untilEnd]
  rw [if_neg (by omega), if_neg (by omega)]

/-- What a transfer out of the ring leaves at the destination. -/
lemma fetch_apply (hn : n ≤ size) (k : Nat) :
    fetch dst buf size pos n k = if k < n then buf ((pos + k) % size) else dst k := by
  simp only [fetch, copy, untilEnd]
  by_cases hkn : k < n
  · have hpos := Nat.mod_lt pos (show 0 < size by omega)
    rw [if_pos hkn, place_eq (by omega)]
    generalize pos % size = p at hpos
    by_cases hround : p + k < size
    · rw [if_neg (by omega), if_pos (by omega), if_pos hround]
      rfl
    · rw [if_pos (by omega), if_neg hround]
      congr 1
      omega
  · rw [if_neg (by omega), if_neg (by omega), if_neg hkn]

/-! ### Stretches -/

@[simp]
lemma length_stretch (buf : Nat → α) (size pos n : Nat) : (stretch buf size pos n).length = n := by
  simp [stretch]

lemma stretch_congr {pos' : Nat} (h : pos % size = pos' % size) :
    stretch buf size pos n = stretch buf size pos' n := by
  apply map_congr_left
  intro k _
  rw [Nat.add_mod, h, ← Nat.add_mod]

lemma stretch_add (buf : Nat → α) (size pos m n : Nat) :
    stretch buf size pos (m + n) = stretch buf size pos m ++ stretch buf size (pos + m) n := by
  simp only [stretch, range_add, map_append, map_map]
  congr 1
  apply map_congr_left
  intro k _
  rw [Function.comp_apply, Nat.add_assoc]

lemma take_stretch (h : n ≤ m) : (stretch buf size pos m).take n = stretch buf size pos n := by
  rw [← Nat.add_sub_cancel' h, stretch_add]
  exact take_left' (length_stretch ..)

lemma drop_stretch (h : n ≤ m) :
    (stretch buf size pos m).drop n = stretch buf size (pos + n) (m - n) := by
  rw [← Nat.add_sub_cancel' h, stretch_add, Nat.add_sub_cancel_left]
  exact drop_left' (length_stretch ..)

/-- A transfer behind a stretch makes it longer. -/
lemma stretch_store (h : m + n ≤ size) :
    stretch (store buf size (pos + m) src n) size pos (m + n) =
      stretch buf size pos m ++ (List.range n).map src := by
  rw [stretch_add]
  congr 1
  · apply map_congr_left
    intro k hk
    have hk := mem_range.mp hk
    -- the cell is the last but `m - k` before the ones that are written
    have hround : (pos + k) % size = (pos + m + (size - m + k)) % size := by
      rw [show pos + m + (size - m + k) = pos + k + size by omega, Nat.add_mod_right]
    rw [hround, store_apply (by omega) (by omega), if_neg (by omega)]
  · apply map_congr_left
    intro k hk
    have hk := mem_range.mp hk
    rw [store_apply (by omega) (by omega), if_pos hk]

end R0Kernel.CellRing
