import R0Kernel.Mm.PageAlloc.Runs

/-! # The watermark check

`zone_watermark_ok` decides on the counters of a zone alone whether an order may
be served from it. It takes the pages of the lower orders off the free pages, one
order after the other, and what is left over in the end is a block of the order
or of a higher one.
-/

namespace R0Kernel.Mm.PageAlloc

open Finset

/-- The value of a `long`. -/
def long (x : Int) : Int := x.bmod (2 ^ 32)

/-- The mark as `ALLOC_HIGH` and `ALLOC_HARDER` lower it. -/
def loweredMark (mark allocFlags : Nat) : Int :=
  let min := long mark
  let min := if allocFlags &&& 0x20 ≠ 0 then min - min.tdiv 2 else min
  if allocFlags &&& 0x10 ≠ 0 then min - min.tdiv 4 else min

/-- The loop of `zone_watermark_ok` over the orders below the one asked for. -/
def leavesPages (z : Zone) : List Nat → Int → Int → Bool
  | [], _, _ => true
  | o :: rest, freePages, min =>
    let freePages := long (freePages - z.nrFree o * 2 ^ o)
    let min := min / 2
    if freePages ≤ min then false else leavesPages z rest freePages min

def zoneWatermarkOk (z : Zone) (order mark lowmemReserve allocFlags : Nat) : Bool :=
  let min := loweredMark mark allocFlags
  let freePages := long (z.nrFreePages - 2 ^ order + 1)
  -- `lowmem_reserve` is unsigned, and makes this comparison unsigned
  if freePages % 2 ^ 32 ≤ (min + lowmemReserve) % 2 ^ 32 then false
  else leavesPages z (List.range order) freePages min

lemma loweredMark_nonneg {mark : Nat} (hmark : mark < 2 ^ 31) (allocFlags : Nat) :
    0 ≤ loweredMark mark allocFlags := by
  have hlong : long mark = mark := Int.bmod_eq_of_le (by omega) (by omega)
  have hless (x : Int) (hx : 0 ≤ x) (k : Int) (hk : 0 < k) : 0 ≤ x - x.tdiv k := by
    rw [Int.tdiv_eq_ediv_of_nonneg hx]
    exact Int.sub_nonneg.mpr (Int.ediv_le_self k hx)
  simp only [loweredMark, hlong]
  split_ifs <;> grind

lemma leavesPages_pos {z : Zone} {orders : List Nat} {freePages min : Int} (hmin : 0 ≤ min)
    (hne : orders ≠ []) (h : leavesPages z orders freePages min = true) :
    0 < long (freePages - (orders.map fun o => z.nrFree o * 2 ^ o).sum) := by
  induction orders generalizing freePages min with
  | nil => exact absurd rfl hne
  | cons o rest ih =>
    simp only [leavesPages] at h
    split_ifs at h with hle
    have hstep (x y : Int) : long (long x - y) = long (x - y) := Int.bmod_sub_bmod
    rw [List.map_cons, List.sum_cons, ← Int.sub_sub, ← hstep]
    rcases eq_or_ne rest [] with rfl | hrest
    · rw [List.map_nil, List.sum_nil, hstep, Int.sub_zero]
      omega
    · exact ih (by omega) hrest h

/-- If the check lets an order pass, then a zone whose counters agree has a block of
the order or of a higher one. -/
theorem zone_watermark_ok_block {z : Zone} {order mark lowmemReserve allocFlags : Nat}
    (hsum : z.nrFreePages = ∑ o ∈ range defaultConfig.maxOrder, z.nrFree o * 2 ^ o)
    (hunsigned : ∀ o, 0 ≤ z.nrFree o) (horder : order < defaultConfig.maxOrder)
    (hmark : mark < 2 ^ 31)
    (hok : zoneWatermarkOk z order mark lowmemReserve allocFlags = true) :
    ∃ o, order ≤ o ∧ o < defaultConfig.maxOrder ∧ 0 < z.nrFree o := by
  by_contra hnone
  push Not at hnone
  -- without such a block the lower orders make up all free pages
  have hlower : z.nrFreePages = ∑ o ∈ range order, z.nrFree o * 2 ^ o := by
    rw [hsum]
    refine (sum_subset (range_subset_range.mpr horder.le) fun o ho hhigh => ?_).symm
    rw [mem_range] at ho hhigh
    rw [le_antisymm (hnone o (by omega) ho) (hunsigned o), zero_mul]
  simp only [zoneWatermarkOk] at hok
  split_ifs at hok with hle
  rcases eq_or_ne order 0 with rfl | hpos
  · rw [hlower, sum_range_zero] at hle
    exact hle (Int.emod_nonneg _ (by decide))
  · have hleft := leavesPages_pos (loweredMark_nonneg hmark _) (by simpa using hpos) hok
    change 0 < long (_ - ∑ o ∈ range order, z.nrFree o * 2 ^ o) at hleft
    have hone : (2 : Int) ^ 0 ≤ 2 ^ order := pow_le_pow_right₀ (by decide) order.zero_le
    have hpow : (2 : Int) ^ order ≤ 2 ^ 11 := pow_le_pow_right₀ (by decide) horder.le
    rw [← hlower, long, long, Int.bmod_sub_bmod, Int.bmod_eq_of_le] at hleft <;> omega

/-- A zone whose only block has order three. -/
def eightPages : Zone :=
  { fullZone with nrFree := fun o => if o = 3 then 1 else 0, nrFreePages := 8 }

theorem zone_watermark_ok_block_eight :
    zoneWatermarkOk eightPages 2 1 0 0 = true ∧
      ∃ o, 2 ≤ o ∧ o < defaultConfig.maxOrder ∧ 0 < eightPages.nrFree o :=
  have hok : zoneWatermarkOk eightPages 2 1 0 0 = true := by decide +kernel
  ⟨hok, zone_watermark_ok_block (by decide +kernel)
    (fun o => by simp only [eightPages]; split <;> decide) (by decide) (by decide) hok⟩

end R0Kernel.Mm.PageAlloc
