import Mathlib.Data.Finset.Card
import Mathlib.Order.Interval.Finset.Nat

/-!
# Runs of bits

Bitmaps as functions on the bit numbers: searching a clear bit, filling a run, and how the number of
clear bits changes with it.
-/

namespace R0Kernel.BitRun

open Function List

abbrev Bits := Nat → Bool

/-- The bits with those from `lo` on, `n` of them, set to `v`. -/
def fill (v : Bool) (b : Bits) (lo n : Nat) : Bits := fun i => if lo ≤ i ∧ i <
    lo + n then v else b i

section Fill

variable {v w : Bool} {b : Bits} {lo n i : Nat}

lemma fill_of_mem (h : lo ≤ i ∧ i < lo + n) : fill v b lo n i = v := if_pos h

lemma fill_of_not_mem (h : ¬ (lo ≤ i ∧ i < lo + n)) : fill v b lo n i = b i := if_neg h

@[simp]
lemma fill_zero : fill v b lo 0 = b := by
  funext i
  exact fill_of_not_mem (by omega)

lemma fill_succ : fill v (update b lo v) (lo + 1) n = fill v b lo (n + 1) := by
  funext i
  simp only [fill, update_apply]
  by_cases hi : i = lo
  · simp [hi]
  · simp only [hi, if_false]
    congr 1
    simp only [eq_iff_iff]
    omega

lemma fill_eq_self (h : ∀ i, lo ≤ i → i < lo + n → b i = v) : fill v b lo n = b := by
  funext i
  by_cases hi : lo ≤ i ∧ i < lo + n
  · rw [fill_of_mem hi, h i hi.1 hi.2]
  · exact fill_of_not_mem hi

lemma fill_fill : fill v (fill w b lo n) lo n = fill v b lo n := by
  funext i
  by_cases hi : lo ≤ i ∧ i < lo + n
  · rw [fill_of_mem hi, fill_of_mem hi]
  · rw [fill_of_not_mem hi, fill_of_not_mem hi, fill_of_not_mem hi]

lemma fill_back (h : ∀ i, lo ≤ i → i < lo + n → b i = v) : fill v (fill w b lo n) lo n = b := by
  rw [fill_fill, fill_eq_self h]

end Fill

/-- The number of clear bits below `size`. -/
def zeros (b : Bits) (size : Nat) : Nat := ((Finset.range size).filter fun i => b i = false).card

variable {b : Bits} {size lo : Nat}

lemma zeros_eq_zero_iff : zeros b size = 0 ↔ ∀ i < size, b i = true := by
  simp [zeros, Finset.filter_eq_empty_iff]

lemma zeros_pos_iff : 0 < zeros b size ↔ ∃ i < size, b i = false := by
  simp [zeros, Finset.card_pos, Finset.Nonempty]

lemma zeros_le (b : Bits) (size : Nat) : zeros b size ≤ size := by
  simpa [zeros] using Finset.card_filter_le (Finset.range size) fun i => b i = false

lemma zeros_fill {n : Nat} (hsize : lo + n ≤ size) (h : ∀ i, lo ≤ i → i < lo + n → b i = false) :
    zeros (fill true b lo n) size + n = zeros b size := by
  have hrun : Finset.Ico lo (lo + n) ⊆ (Finset.range size).filter fun i => b i = false := by
    intro i hi
    obtain ⟨hlo, hhi⟩ := Finset.mem_Ico.mp hi
    exact Finset.mem_filter.mpr ⟨Finset.mem_range.mpr (by omega), h i hlo hhi⟩
  have hrest : ((Finset.range size).filter fun i => fill true b lo n i = false) =
      ((Finset.range size).filter fun i => b i = false) \ Finset.Ico lo (lo + n) := by
    ext i
    by_cases hi : lo ≤ i ∧ i < lo + n
    · simp [fill_of_mem hi, hi]
    · simp [fill_of_not_mem hi, hi]
  have hcard := Finset.card_sdiff_add_card_eq_card hrun
  rw [Nat.card_Ico, Nat.add_sub_cancel_left] at hcard
  rw [zeros, zeros, hrest, hcard]

lemma zeros_fill_false {n : Nat} (hsize : lo + n ≤ size)
    (h : ∀ i, lo ≤ i → i < lo + n → b i = true) :
    zeros (fill false b lo n) size = zeros b size + n := by
  have hback := zeros_fill (b := fill false b lo n) hsize fun i hlo hhi => fill_of_mem ⟨hlo, hhi⟩
  rw [fill_back h] at hback
  exact hback.symm

lemma fill_one {v : Bool} : fill v b lo 1 = update b lo v := by
  rw [← fill_succ, fill_zero]

lemma zeros_update_true {i : Nat} (hi : i < size) (h : b i = false) :
    zeros (update b i true) size + 1 = zeros b size := by
  rw [← fill_one]
  apply zeros_fill hi
  intro j hlo hhi
  obtain rfl : j = i := by omega
  exact h

lemma zeros_update_false {i : Nat} (hi : i < size) (h : b i = true) :
    zeros (update b i false) size = zeros b size + 1 := by
  rw [← fill_one]
  apply zeros_fill_false hi
  intro j hlo hhi
  obtain rfl : j = i := by omega
  exact h

/-! ### Searching -/

/-- The first clear bit in `lo, …, hi - 1`. -/
def firstZero (b : Bits) (lo hi : Nat) : Option Nat :=
  (List.range' lo (hi - lo)).find? fun i => !b i

lemma firstZero_some {hi i : Nat} (h : firstZero b lo hi = some i) :
    lo ≤ i ∧ i < hi ∧ b i = false := by
  have hmem := mem_range'_1.mp (mem_of_find?_eq_some h)
  have hclear := find?_some h
  exact ⟨hmem.1, by omega, by simpa using hclear⟩

lemma firstZero_none {hi i : Nat} (h : firstZero b lo hi = none) (hlo : lo ≤ i) (hhi : i < hi) :
    b i = true := by
  have hset := find?_eq_none.mp h i (mem_range'_1.mpr (by omega))
  simpa using hset

lemma firstZero_le {hi i : Nat} (hlo : lo ≤ i) (hhi : i < hi) (h : b i = false) :
    ∃ j ≤ i, firstZero b lo hi = some j := by
  have hsplit : firstZero b lo hi = (firstZero b lo (i + 1)).or (firstZero b (i + 1) hi) := by
    have hlen : hi - lo = (i + 1 - lo) + (hi - (i + 1)) := by omega
    have hnext : i + 1 = lo + (i + 1 - lo) := by omega
    rw [firstZero, hlen, ← range'_append_1, find?_append, ← hnext]
    rfl
  cases hfirst : firstZero b lo (i + 1) with
  | none => simp [firstZero_none hfirst hlo (Nat.lt_succ_self i)] at h
  | some j =>
    obtain ⟨-, hlt, -⟩ := firstZero_some hfirst
    refine ⟨j, Nat.lt_succ_iff.mp hlt, ?_⟩
    rw [hsplit, hfirst]
    rfl

end R0Kernel.BitRun
