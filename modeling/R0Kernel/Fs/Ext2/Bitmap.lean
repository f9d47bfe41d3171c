import R0Kernel.Foundation.BitRun

/-!
# Allocating in one group

`ext2_try_to_allocate` on the block bitmap of a group: the search for a free block near the goal,
then for a free byte, then for any free bit, the step back over free bits before it, and the
claiming of as many blocks as wanted. Blocks are counted from the start of the group; no goal, `-1`
in the source, is `none`.
-/

namespace R0Kernel.Ext2

open BitRun Function Option

/-- A block number is an `unsigned long`. -/
def u32 (n : Nat) : Nat := n % 2 ^ 32

def subU32 (a b : Nat) : Nat := u32 (a + (2 ^ 32 - u32 b))

structure Window where
  rsvStart : Nat
  rsvEnd : Nat
  deriving DecidableEq

/-! ### The search -/

/-- `ext2_find_next_zero_bit`: the size where there is none. -/
def findNextZeroBit (bm : Bits) (size offset : Nat) : Nat := (firstZero bm offset size).getD size

def bitmapSearchNextUsableBlock (start : Nat) (bm : Bits) (maxblocks : Nat) : Option Nat :=
  let next := findNextZeroBit bm maxblocks start
  if maxblocks ≤ next then none else some next

def byteClear (bm : Bits) (k : Nat) : Bool := (List.range 8).all fun j => !bm (8 * k + j)

/-- `memscan` for a zero byte among the `n` bytes from `k` on: the end where there is none. -/
def memscan (bm : Bits) : (n k : Nat) → Nat
  | 0, k => k
  | n + 1, k => if byteClear bm k then k else memscan bm n (k + 1)

def findNextUsableBlock (start : Nat) (bm : Bits) (maxblocks : Nat) : Option Nat :=
  -- search forward for a free block within the next XX blocks
  let endGoal := min ((start + 63) / 64 * 64) maxblocks
  let here := findNextZeroBit bm endGoal start
  if 0 < start ∧ here < endGoal then some here
  else
    -- Behind the last byte of the range the size of the scan would be negative; what it returns
    -- then is not below `maxblocks` either way.
    let next := 8 * memscan bm ((maxblocks + 7) / 8 - start / 8) (start / 8)
    if next < maxblocks ∧ start ≤ next then some next
    else bitmapSearchNextUsableBlock start bm maxblocks

/-! ### The claim -/

/-- At most `n` free bits directly before `goal` are taken in, none before `start`. -/
def stepBack (bm : Bits) (start : Nat) : (n goal : Nat) → Nat
  | 0, goal => goal
  | n + 1, goal => if start < goal ∧ bm (goal - 1) = false then stepBack bm start n (goal - 1)
    else goal

/-- `ext2_set_bit_atomic`: the old value and the bitmap after. -/
def setBit (bm : Bits) (i : Nat) : Bool × Bits := (bm i, update bm i true)

/-- The label `repeat` once there is a goal: the first of the `n` bits from `goal` on that was not
set yet. -/
def claimFirst : (n : Nat) → (bm : Bits) → (goal : Nat) → Option (Nat × Bits)
  | 0, _, _ => none
  | n + 1, bm, goal =>
    match setBit bm goal with
    | (true, _) => claimFirst n bm (goal + 1)
    | (false, bm) => some (goal, bm)

/-- The `while` loop: how many of the next `n` bits were free, up to the first that was not. -/
def claimMore : (n : Nat) → (bm : Bits) → (goal : Nat) → Nat × Bits
  | 0, bm, _ => (0, bm)
  | n + 1, bm, goal =>
    match setBit bm goal with
    | (true, _) => (0, bm)
    | (false, bm) =>
      let (num, bm) := claimMore n bm (goal + 1)
      (num + 1, bm)

/-- What an attempt gives: the block, and the bitmap and `*count` it leaves. -/
structure Attempt where
  blk : Option Nat
  bm : Bits
  count : Nat

/-- From the label `repeat` to the end, in the range `start, …, stop - 1`. -/
def claim (bm : Bits) (start stop : Nat) (grpGoal : Option Nat) (windowed : Bool) (count : Nat) :
    Attempt :=
  let goal :=
    match grpGoal with
    | some goal => some goal
    | none => (findNextUsableBlock start bm stop).map fun goal =>
      if windowed then goal else stepBack bm start 7 goal
  match goal with
  | none => ⟨none, bm, 0⟩
  | some goal =>
    match claimFirst (stop - goal) bm goal with
    | none => ⟨none, bm, 0⟩
    | some (goal, bm) =>
      let (num, bm) := claimMore (min (count - 1) (stop - (goal + 1))) bm (goal + 1)
      ⟨some goal, bm, num + 1⟩

/-- The range of a window in a group: a start before the group is its first block, an end behind it
its last one. -/
def windowRange (groupFirst blocksPerGroup : Nat) (w : Window) : Nat × Nat :=
  (if groupFirst ≤ w.rsvStart then w.rsvStart - groupFirst else 0,
    min (u32 (subU32 w.rsvEnd groupFirst + 1)) blocksPerGroup)

def tryToAllocate (groupFirst blocksPerGroup : Nat) (bm : Bits) (grpGoal : Option Nat)
    (count : Nat) (myRsv : Option Window) : Attempt :=
  match myRsv with
  | some w =>
    let (start, stop) := windowRange groupFirst blocksPerGroup w
    match grpGoal with
    | some goal =>
      if start ≤ goal ∧ goal < stop then claim bm goal stop (some goal) true count
      else claim bm start stop none true count
    | none => claim bm start stop none true count
  | none =>
    -- a goal of zero is still a goal
    claim bm (grpGoal.getD 0) blocksPerGroup grpGoal false count

/-! ### What the search finds -/

section Search

variable {bm : Bits} {start size i : Nat}

lemma findNextZeroBit_of_lt (h : findNextZeroBit bm size start < size) :
    start ≤ findNextZeroBit bm size start ∧ bm (findNextZeroBit bm size start) = false := by
  rw [findNextZeroBit] at h ⊢
  cases hfirst : firstZero bm start size with
  | none => simp [hfirst] at h
  | some i =>
    obtain ⟨hle, -, hclear⟩ := firstZero_some hfirst
    exact ⟨hle, hclear⟩

lemma set_of_findNextZeroBit (h : size ≤ findNextZeroBit bm size start) (hlo : start ≤ i)
    (hhi : i < size) : bm i = true := by
  rw [findNextZeroBit] at h
  cases hfirst : firstZero bm start size with
  | none => exact firstZero_none hfirst hlo hhi
  | some j =>
    obtain ⟨-, hlt, -⟩ := firstZero_some hfirst
    rw [hfirst, getD_some] at h
    omega

lemma byteClear_first {k : Nat} (h : byteClear bm k = true) : bm (8 * k) = false := by
  have := List.all_eq_true.mp h 0 (by decide)
  simpa using this

lemma memscan_spec (bm : Bits) (n k : Nat) :
    k ≤ memscan bm n k ∧ (memscan bm n k < k + n → byteClear bm (memscan bm n k) = true) := by
  induction n generalizing k with
  | zero => exact ⟨le_rfl, fun h => by simp [memscan] at h⟩
  | succ n ih =>
    by_cases hclear : byteClear bm k
    · simp [memscan, hclear]
    · obtain ⟨hle, hfound⟩ := ih (k + 1)
      simp only [memscan, hclear]
      exact ⟨by simp only [Bool.false_eq_true, if_false]; omega,
        fun h => hfound (by simp only [Bool.false_eq_true, if_false] at h ⊢; omega)⟩

lemma bitmapSearchNextUsableBlock_some (h : bitmapSearchNextUsableBlock start bm size = some i) :
    start ≤ i ∧ i < size ∧ bm i = false := by
  rw [bitmapSearchNextUsableBlock] at h
  split_ifs at h with hend
  obtain rfl := some.inj h
  obtain ⟨hle, hclear⟩ := findNextZeroBit_of_lt (Nat.lt_of_not_le hend)
  exact ⟨hle, Nat.lt_of_not_le hend, hclear⟩

lemma findNextUsableBlock_some (h : findNextUsableBlock start bm size = some i) :
    start ≤ i ∧ i < size ∧ bm i = false := by
  simp only [findNextUsableBlock] at h
  by_cases hnear : 0 < start ∧ findNextZeroBit bm (min ((start + 63) / 64 * 64) size) start <
      min ((start + 63) / 64 * 64) size
  · rw [if_pos hnear] at h
    obtain rfl := some.inj h
    obtain ⟨hle, hclear⟩ := findNextZeroBit_of_lt hnear.2
    exact ⟨hle, by omega, hclear⟩
  · rw [if_neg hnear] at h
    obtain ⟨hle, hbyte⟩ := memscan_spec bm ((size + 7) / 8 - start / 8) (start / 8)
    generalize memscan bm ((size + 7) / 8 - start / 8) (start / 8) = next at h hle hbyte
    by_cases hscan : 8 * next < size ∧ start ≤ 8 * next
    · rw [if_pos hscan] at h
      obtain rfl := some.inj h
      exact ⟨hscan.2, hscan.1, byteClear_first (hbyte (by omega))⟩
    · rw [if_neg hscan] at h
      exact bitmapSearchNextUsableBlock_some h

lemma findNextUsableBlock_none (h : findNextUsableBlock start bm size = none) (hlo : start ≤ i)
    (hhi : i < size) : bm i = true := by
  simp only [findNextUsableBlock] at h
  split_ifs at h
  simp only [bitmapSearchNextUsableBlock, ite_eq_left_iff, reduceCtorEq, imp_false,
    not_not] at h
  exact set_of_findNextZeroBit h hlo hhi

lemma stepBack_spec (n : Nat) {goal : Nat} (hlo : start ≤ goal) (hclear : bm goal = false) :
    start ≤ stepBack bm start n goal ∧ stepBack bm start n goal ≤ goal ∧
      bm (stepBack bm start n goal) = false := by
  induction n generalizing goal with
  | zero => exact ⟨hlo, le_rfl, hclear⟩
  | succ n ih =>
    rw [stepBack]
    split
    · next hback =>
      obtain ⟨hge, hle, hfree⟩ := ih (Nat.le_sub_one_of_lt hback.1) hback.2
      exact ⟨hge, hle.trans (Nat.sub_le ..), hfree⟩
    · exact ⟨hlo, le_rfl, hclear⟩

end Search

/-! ### What is claimed -/

/-- The `n` blocks from `b` on were free and are now in use; nothing else has changed. -/
structure Claimed (bm : Bits) (size b n : Nat) (bm' : Bits) : Prop where
  pos : 1 ≤ n
  inside : b + n ≤ size
  free : ∀ i, b ≤ i → i < b + n → bm i = false
  eq : bm' = fill true bm b n

/-- An attempt fails and leaves the bitmap, or claims at least one and at most `count` blocks. -/
structure Attempt.Ok (bm : Bits) (size count : Nat) (a : Attempt) : Prop where
  failed : a.blk = none → a.bm = bm ∧ a.count ≤ count
  claimed : ∀ b, a.blk = some b → Claimed bm size b a.count a.bm ∧ a.count ≤ max count 1

lemma Attempt.ok_failed {bm : Bits} {size count n : Nat} (hn : n ≤ count) :
    Attempt.Ok bm size count ⟨none, bm, n⟩ :=
  ⟨fun _ => ⟨rfl, hn⟩, fun _ h => by cases h⟩

section Claim

variable {bm bm' : Bits} {goal b : Nat} {n i : Nat}

lemma claimFirst_some (h : claimFirst n bm goal = some (b, bm')) :
    goal ≤ b ∧ b < goal + n ∧ bm b = false ∧ bm' = update bm b true := by
  induction n generalizing goal with
  | zero => cases h
  | succ n ih =>
    simp only [claimFirst, setBit] at h
    cases hbit : bm goal with
    | true =>
      rw [hbit] at h
      obtain ⟨hle, hlt, hrest⟩ := ih h
      exact ⟨by omega, by omega, hrest⟩
    | false =>
      rw [hbit] at h
      obtain ⟨rfl, rfl⟩ := Prod.mk.inj (some.inj h)
      exact ⟨le_rfl, by omega, hbit, rfl⟩

lemma claimFirst_none (h : claimFirst n bm goal = none) (hlo : goal ≤ i) (hhi : i < goal + n) :
    bm i = true := by
  induction n generalizing goal with
  | zero => omega
  | succ n ih =>
    simp only [claimFirst, setBit] at h
    cases hbit : bm goal with
    | true =>
      rw [hbit] at h
      obtain rfl | hne := eq_or_ne i goal
      · exact hbit
      · exact ih h (by omega) (by omega)
    | false =>
      rw [hbit] at h
      cases h

lemma claimMore_spec (n : Nat) (bm : Bits) (goal : Nat) :
    (claimMore n bm goal).1 ≤ n ∧
      (∀ i, goal ≤ i → i < goal + (claimMore n bm goal).1 → bm i = false) ∧
      (claimMore n bm goal).2 = fill true bm goal (claimMore n bm goal).1 := by
  induction n generalizing bm goal with
  | zero => exact ⟨le_rfl, fun i hlo hhi => absurd hhi (by simp [claimMore]; omega), fill_zero.symm⟩
  | succ n ih =>
    simp only [claimMore, setBit]
    cases hbit : bm goal with
    | true => exact ⟨Nat.zero_le _, fun i hlo hhi => absurd hhi (by simp; omega), fill_zero.symm⟩
    | false =>
      obtain ⟨hle, hfree, hfill⟩ := ih (update bm goal true) (goal + 1)
      refine ⟨Nat.succ_le_succ hle, fun i hlo hhi => ?_, hfill.trans fill_succ⟩
      obtain rfl | hne := eq_or_ne i goal
      · exact hbit
      · have hafter := hfree i (by omega) (by simp only at hhi; omega)
        rwa [update_of_ne hne] at hafter

lemma claimFirst_claimMore {stop size count : Nat} (hstop : stop ≤ size)
    (h : claimFirst (stop - goal) bm goal = some (b, bm')) :
    let more := claimMore (min (count - 1) (stop - (b + 1))) bm' (b + 1)
    Claimed bm size b (more.1 + 1) more.2 ∧ more.1 + 1 ≤ max count 1 := by
  obtain ⟨hlo, hhi, hfree, rfl⟩ := claimFirst_some h
  obtain ⟨hle, hmore, hfill⟩ := claimMore_spec (min (count - 1) (stop - (b + 1)))
    (update bm b true) (b + 1)
  refine ⟨⟨by omega, by omega, fun i hlo' hhi' => ?_, hfill.trans fill_succ⟩, by omega⟩
  obtain rfl | hne := eq_or_ne i b
  · exact hfree
  · have hafter := hmore i (by omega) (by omega)
    rwa [update_of_ne hne] at hafter

variable {start stop size : Nat} {grpGoal : Option Nat} {windowed : Bool} {count : Nat}

lemma claim_ok (hstop : stop ≤ size) :
    Attempt.Ok bm size count (claim bm start stop grpGoal windowed count) := by
  simp only [claim]
  split
  · exact Attempt.ok_failed (Nat.zero_le _)
  · next goal _ =>
    cases hfirst : claimFirst (stop - goal) bm goal with
    | none => exact Attempt.ok_failed (Nat.zero_le _)
    | some found =>
      refine ⟨fun h => ?_, fun b h => ?_⟩
      · cases h
      · obtain rfl := some.inj h
        exact claimFirst_claimMore hstop hfirst

/-- An attempt that fails has seen no free block from its goal, or else its start, on. -/
lemma claim_none (h : (claim bm start stop grpGoal windowed count).blk = none)
    (hlo : grpGoal.getD start ≤ i) (hhi : i < stop) : bm i = true := by
  simp only [claim] at h
  cases grpGoal with
  | some goal =>
    cases hfirst : claimFirst (stop - goal) bm goal with
    | none => exact claimFirst_none hfirst hlo (by omega)
    | some found => simp [hfirst] at h
  | none =>
    cases hfind : findNextUsableBlock start bm stop with
    | none => exact findNextUsableBlock_none hfind hlo hhi
    | some goal =>
      -- a free block was found, so the claim cannot fail
      obtain ⟨hge, hlt, hfree⟩ := findNextUsableBlock_some hfind
      obtain ⟨-, hle, hback⟩ := stepBack_spec 7 hge hfree
      rw [hfind] at h
      simp only [map_some] at h
      have hgoal : (if windowed = true then goal else stepBack bm start 7 goal) ≤ goal ∧
          bm (if windowed = true then goal else stepBack bm start 7 goal) = false := by
        cases windowed
        · exact ⟨hle, hback⟩
        · exact ⟨le_rfl, hfree⟩
      generalize (if windowed = true then goal else stepBack bm start 7 goal) = g at h hgoal
      cases hfirst : claimFirst (stop - g) bm g with
      | none =>
        have := claimFirst_none hfirst le_rfl (by omega)
        rw [hgoal.2] at this
        cases this
      | some found => simp [hfirst] at h

end Claim

/-! ### One attempt -/

variable {groupFirst blocksPerGroup : Nat} {bm : Bits} {grpGoal : Option Nat} {count : Nat}

lemma tryToAllocate_ok (myRsv : Option Window) :
    Attempt.Ok bm blocksPerGroup count
      (tryToAllocate groupFirst blocksPerGroup bm grpGoal count myRsv) := by
  cases myRsv with
  | none => exact claim_ok le_rfl
  | some w =>
    have hstop : (windowRange groupFirst blocksPerGroup w).2 ≤ blocksPerGroup := Nat.min_le_right ..
    cases grpGoal with
    | none =>
      simp only [tryToAllocate]
      exact claim_ok hstop
    | some goal =>
      simp only [tryToAllocate]
      split
      · exact claim_ok hstop
      · exact claim_ok hstop

/-- Without a window an attempt fails only where nothing is free from the goal on. -/
lemma tryToAllocate_none {i : Nat}
    (h : (tryToAllocate groupFirst blocksPerGroup bm grpGoal count none).blk = none)
    (hlo : grpGoal.getD 0 ≤ i) (hhi : i < blocksPerGroup) : bm i = true := by
  refine claim_none h ?_ hhi
  cases grpGoal <;> exact hlo

lemma tryToAllocate_goal_set {goal : Nat}
    (h : ∀ i, goal ≤ i → i < blocksPerGroup → bm i = true) :
    tryToAllocate groupFirst blocksPerGroup bm (some goal) count none = ⟨none, bm, 0⟩ := by
  simp only [tryToAllocate, claim]
  cases hfirst : claimFirst (blocksPerGroup - goal) bm goal with
  | none => rfl
  | some found =>
    obtain ⟨hlo, hhi, hfree, -⟩ := claimFirst_some hfirst
    rw [h found.1 hlo (by omega)] at hfree
    cases hfree

end R0Kernel.Ext2
