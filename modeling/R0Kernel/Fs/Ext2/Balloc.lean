import Mathlib.Algebra.BigOperators.Group.Finset.Basic
import Mathlib.Algebra.BigOperators.Intervals
import R0Kernel.Fs.Ext2.Reserve

/-!
# Allocating and freeing blocks

`ext2_new_blocks` and `ext2_free_blocks`: the order in which the groups are visited, the reservation
that is given up on the way, the free counts of the groups and of the filesystem, and a run of
blocks that is freed group by group.
-/

namespace R0Kernel.Ext2

open BitRun Outcome Function List Except

/-- The fields of the super block, as the mount has checked them. -/
structure Sb where
  firstDataBlock : Nat
  blocksCount : Nat
  blocksPerGroup : Nat
  first_lt : firstDataBlock < blocksCount
  blocksCount_lt : blocksCount < 2 ^ 32
  blocksPerGroup_pos : 0 < blocksPerGroup
  /-- The bitmap of a group is one block, of at most a page. -/
  blocksPerGroup_le : blocksPerGroup ≤ 4096 * 8

def Sb.groupsCount (sb : Sb) : Nat :=
  (sb.blocksCount - sb.firstDataBlock - 1) / sb.blocksPerGroup + 1

def Sb.groupFirst (sb : Sb) (g : Nat) : Nat := u32 (g * sb.blocksPerGroup + sb.firstDataBlock)

def Sb.group (sb : Sb) (g : Nat) : Group := ⟨sb.groupFirst g, sb.blocksPerGroup⟩

def Sb.groupNo (sb : Sb) (block : Nat) : Nat := (block - sb.firstDataBlock) / sb.blocksPerGroup

def Sb.bitNo (sb : Sb) (block : Nat) : Nat := (block - sb.firstDataBlock) % sb.blocksPerGroup

/-- The bitmaps, the free counts of the groups, `s_freeblocks_counter` and the windows. -/
structure Fs where
  bitmap : Nat → Bits
  freeBlocksCount : Nat → Nat
  freeBlocksCounter : Int
  rsvs : Rsvs

/-- What a call depends on besides: whether the quota allows it, which bitmaps can be read, and how
many blocks are kept for whom. -/
structure Env where
  quota : Bool
  bread : Nat → Bool
  rBlocksCount : Nat
  privileged : Bool

inductive Errno where
  | ok
  | enospc
  | edquot
  | eio
  deriving DecidableEq

def hasFreeBlocks (env : Env) (fs : Fs) : Bool :=
  !(fs.freeBlocksCounter.toNat < u32 (env.rBlocksCount + 1) && !env.privileged)

/-- `group_adjust_blocks` on a field of sixteen bits. -/
def Fs.groupAdjust (fs : Fs) (g : Nat) (count : Int) : Fs :=
  { fs with
    freeBlocksCount := update fs.freeBlocksCount g
      ((fs.freeBlocksCount g + count) % 2 ^ 16).toNat }

/-! ### Allocating -/

section NewBlocks

variable (bal : Balance) (sb : Sb) (env : Env) (fuel : Nat)

/-- How the search over the groups ends, with `num` and the filesystem as they are then. -/
inductive Pass where
  | allocated (g blk num : Nat) (fs : Fs)
  | ioError (fs : Fs)
  | exhausted (num : Nat) (fs : Fs)

def tryGroup (g : Nat) (grpGoal : Option Nat) (myRsv : Option NodeId) (num : Nat) (fs : Fs) :
    Except Stop (Option Nat × Nat × Fs) := do
  let (a, rsvs) ←
    tryToAllocateWithRsv bal (sb.group g) (fs.bitmap g) grpGoal myRsv num fuel fs.rsvs
  return (a.blk, a.count, { fs with bitmap := update fs.bitmap g a.bm, rsvs })

def searchGroups (windowsz : Nat) (myRsv : Option NodeId) :
    (groups : List Nat) → (num : Nat) → Fs → Except Stop Pass
  | [], num, fs => .ok (.exhausted num fs)
  | g :: groups, num, fs =>
    -- skip this group if it has no more free blocks than half of the reservation window size
    if fs.freeBlocksCount g ≤ windowsz / 2 then searchGroups windowsz myRsv groups num fs
    else if env.bread g = false then .ok (.ioError fs)
    else do
      match ← tryGroup bal sb fuel g none myRsv num fs with
      | (some blk, num, fs) => return .allocated g blk num fs
      | (none, num, fs) => searchGroups windowsz myRsv groups num fs

/-- The groups in the order of the loop: from the one after the goal's around to the goal's own. -/
def Sb.otherGroups (sb : Sb) (goalGroup : Nat) : List Nat :=
  (List.range sb.groupsCount).map fun i => (goalGroup + 1 + i) % sb.groupsCount

/-- From the label `retry_alloc` to the end of the loop: the goal first. -/
def searchFrom (windowsz : Nat) (myRsv : Option NodeId) (goal num : Nat) (fs : Fs) :
    Except Stop Pass :=
  let goalGroup := sb.groupNo goal
  if 0 < fs.freeBlocksCount goalGroup then
    if env.bread goalGroup = false then .ok (.ioError fs)
    else do
      match ← tryGroup bal sb fuel goalGroup (some (sb.bitNo goal)) myRsv num fs with
      | (some blk, num, fs) => return .allocated goalGroup blk num fs
      | (none, num, fs) =>
        searchGroups bal sb env fuel windowsz myRsv (sb.otherGroups goalGroup) num fs
  else searchGroups bal sb env fuel windowsz myRsv (sb.otherGroups goalGroup) num fs

/-- The returned block, `*count`, `*errp` and the filesystem after. -/
structure NewBlocks where
  block : Nat
  count : Nat
  err : Errno
  fs : Fs

/-- The label `allocated`. -/
def finish (count g blk num : Nat) (fs : Fs) : NewBlocks :=
  let retBlock := u32 (blk + sb.groupFirst g)
  if sb.blocksCount ≤ subU32 (retBlock + num) 1 then ⟨0, count, .enospc, fs⟩
  else
    let fs := fs.groupAdjust g (-num)
    ⟨retBlock, num, .ok, { fs with freeBlocksCounter := fs.freeBlocksCounter - num }⟩

/-- A goal outside the filesystem is its first block. -/
def Sb.clampGoal (sb : Sb) (goal : Nat) : Nat :=
  if goal < sb.firstDataBlock ∨ sb.blocksCount ≤ goal then sb.firstDataBlock else goal

def windowSize (fs : Fs) (blockI : Option NodeId) : Nat :=
  match blockI with
  | none => 0
  | some id => (fs.rsvs.node id).goalSize % 2 ^ 16

/-- The reservation that the search starts with: none without a window size, and none where there is
no window yet and the group of the goal has no room for one. -/
def chosenRsv (fs : Fs) (blockI : Option NodeId) (goalGroup : Nat) : Option NodeId :=
  match blockI with
  | none => none
  | some id =>
    if windowSize fs blockI = 0 then none
    else if fs.freeBlocksCount goalGroup < windowSize fs blockI ∧
      (fs.rsvs.node id).isEmpty then none
    else some id

/-- `ext2_new_blocks`, with the reservation of the inode. -/
def newBlocks (blockI : Option NodeId) (goal count : Nat) (fs : Fs) : Except Stop NewBlocks :=
  if env.quota = false then .ok ⟨0, count, .edquot, fs⟩
  else if hasFreeBlocks env fs = false then .ok ⟨0, count, .enospc, fs⟩
  else do
    let goal := sb.clampGoal goal
    let myRsv := chosenRsv fs blockI (sb.groupNo goal)
    match ← searchFrom bal sb env fuel (windowSize fs blockI) myRsv goal count fs with
    | .allocated g blk num fs => return finish sb count g blk num fs
    | .ioError fs => return ⟨0, count, .eio, fs⟩
    | .exhausted num fs =>
      if myRsv.isSome then
        -- forget about the reservations, and once more from the goal on
        match ← searchFrom bal sb env fuel 0 none goal num fs with
        | .allocated g blk num fs => return finish sb count g blk num fs
        | .ioError fs => return ⟨0, count, .eio, fs⟩
        | .exhausted _ fs => return ⟨0, count, .enospc, fs⟩
      else return ⟨0, count, .enospc, fs⟩

end NewBlocks

/-! ### Freeing -/

/-- `ext2_clear_bit_atomic` on `n` bits: the bitmap, and how many had been set. -/
def clearBits : (n : Nat) → (bm : Bits) → (i : Nat) → Bits × Nat
  | 0, bm, _ => (bm, 0)
  | n + 1, bm, i =>
    let (bm', freed) := clearBits n (update bm i false) (i + 1)
    (bm', if bm i then freed + 1 else freed)

/-- From the label `do_more` on: the filesystem and how many blocks were freed. -/
def freeRun (sb : Sb) (env : Env) (block count : Nat) (fs : Fs) : Fs × Nat :=
  let g := sb.groupNo block
  let bit := sb.bitNo block
  let overflow := bit + count - sb.blocksPerGroup
  if sb.groupsCount ≤ g ∨ env.bread g = false then (fs, 0)
  else
    let (bm, freed) := clearBits (count - overflow) (fs.bitmap g) bit
    let fs := { fs with bitmap := update fs.bitmap g bm }.groupAdjust g freed
    if overflow = 0 then (fs, freed)
    else
      let (fs, rest) := freeRun sb env (block + (count - overflow)) overflow fs
      (fs, freed + rest)
termination_by count
decreasing_by
  have : sb.bitNo block < sb.blocksPerGroup := Nat.mod_lt _ sb.blocksPerGroup_pos
  omega

def freeBlocks (sb : Sb) (env : Env) (block count : Nat) (fs : Fs) : Fs :=
  if block < sb.firstDataBlock ∨ u32 (block + count) < block ∨
      sb.blocksCount < u32 (block + count) then fs
  else
    let (fs, freed) := freeRun sb env block count fs
    { fs with freeBlocksCounter := fs.freeBlocksCounter + freed }

/-! ### The free counts -/

/-- The free count of each group is the number of its free bits, and the bits behind the last block
are set. -/
structure Fs.Counted (sb : Sb) (fs : Fs) : Prop where
  counts : ∀ g < sb.groupsCount, fs.freeBlocksCount g = zeros (fs.bitmap g) sb.blocksPerGroup
  padding : ∀ g < sb.groupsCount, ∀ i < sb.blocksPerGroup,
    sb.blocksCount ≤ sb.firstDataBlock + g * sb.blocksPerGroup + i → fs.bitmap g i = true

/-- The same bits and counts; the windows may be different. -/
structure Fs.Same (fs fs' : Fs) : Prop where
  bitmap : fs'.bitmap = fs.bitmap
  freeBlocksCount : fs'.freeBlocksCount = fs.freeBlocksCount
  freeBlocksCounter : fs'.freeBlocksCounter = fs.freeBlocksCounter

lemma Fs.Same.refl (fs : Fs) : fs.Same fs := ⟨rfl, rfl, rfl⟩

lemma Fs.Same.trans {fs fs' fs'' : Fs} (h : fs.Same fs') (h' : fs'.Same fs'') : fs.Same fs'' :=
  ⟨h'.bitmap.trans h.bitmap, h'.freeBlocksCount.trans h.freeBlocksCount,
    h'.freeBlocksCounter.trans h.freeBlocksCounter⟩

variable {sb : Sb}

lemma Fs.Same.counted {fs fs' : Fs} (h : fs.Same fs') (hc : fs.Counted sb) :
    fs'.Counted sb :=
  ⟨h.bitmap ▸ h.freeBlocksCount ▸ hc.counts, h.bitmap ▸ hc.padding⟩

/-- The `num` blocks from `blk` on of the group `g` are claimed, and nothing else has changed. -/
structure Fs.Claims (sb : Sb) (fs : Fs) (g blk num : Nat) (fs' : Fs) : Prop where
  claimed : Claimed (fs.bitmap g) sb.blocksPerGroup blk num (fs'.bitmap g)
  other : ∀ g', g' ≠ g → fs'.bitmap g' = fs.bitmap g'
  freeBlocksCount : fs'.freeBlocksCount = fs.freeBlocksCount
  freeBlocksCounter : fs'.freeBlocksCounter = fs.freeBlocksCounter

lemma Fs.Same.claims {fs fs' fs'' : Fs} {g blk num : Nat} (h : fs.Same fs')
    (hc : fs'.Claims sb g blk num fs'') : fs.Claims sb g blk num fs'' :=
  ⟨h.bitmap ▸ hc.claimed, h.bitmap ▸ hc.other, hc.freeBlocksCount.trans h.freeBlocksCount,
    hc.freeBlocksCounter.trans h.freeBlocksCounter⟩

/-! ### The groups -/

namespace Sb

variable {sb : Sb} {g goal : Nat} {goalGroup : Nat}

lemma groupsCount_pos : 0 < sb.groupsCount := Nat.succ_pos _

lemma clampGoal_mem (sb : Sb) (goal : Nat) :
    sb.firstDataBlock ≤ sb.clampGoal goal ∧ sb.clampGoal goal < sb.blocksCount := by
  have := sb.first_lt
  rw [clampGoal]
  split <;> omega

lemma groupNo_lt (h : sb.firstDataBlock ≤ goal ∧ goal < sb.blocksCount) :
    sb.groupNo goal < sb.groupsCount :=
  Nat.lt_succ_of_le (Nat.div_le_div_right (by omega))

lemma lt_of_mem_otherGroups (h : g ∈ sb.otherGroups goalGroup) :
    g < sb.groupsCount := by
  obtain ⟨i, -, rfl⟩ := mem_map.mp h
  exact Nat.mod_lt _ groupsCount_pos

lemma mem_otherGroups (hgoal : goalGroup < sb.groupsCount) (hg : g < sb.groupsCount) :
    g ∈ sb.otherGroups goalGroup := by
  refine mem_map.mpr ?_
  by_cases hafter : goalGroup < g
  · refine ⟨g - goalGroup - 1, mem_range.mpr (by omega), ?_⟩
    rw [show goalGroup + 1 + (g - goalGroup - 1) = g by omega, Nat.mod_eq_of_lt hg]
  · refine ⟨g + sb.groupsCount - goalGroup - 1, mem_range.mpr (by omega), ?_⟩
    rw [show goalGroup + 1 + (g + sb.groupsCount - goalGroup - 1) = g + sb.groupsCount by omega,
      Nat.add_mod_right, Nat.mod_eq_of_lt hg]

end Sb

/-! ### The search over the groups -/

section Search

variable {bal : Balance} {sb : Sb} {env : Env} {fuel : Nat} {fs : Fs} {g num : Nat}
  {grpGoal : Option Nat} {myRsv : Option NodeId} {windowsz : Nat} {goal : Nat} (groups : List Nat)

/-- An attempt in a group fails and leaves everything, or claims blocks of that group. -/
lemma tryGroup_ok : Ensures (tryGroup bal sb fuel g grpGoal myRsv num fs) fun p =>
    (p.1 = none → fs.Same p.2.2 ∧ p.2.1 ≤ num) ∧
      ∀ blk, p.1 = some blk → fs.Claims sb g blk p.2.1 p.2.2 ∧ p.2.1 ≤ max num 1 := by
  refine .bind tryToAllocateWithRsv_ok fun p hp => .pure ⟨fun h => ?_, fun blk h => ?_⟩
  · obtain ⟨hbm, hcount⟩ := hp.failed h
    exact ⟨⟨by simp [hbm], rfl, rfl⟩, hcount⟩
  · obtain ⟨hclaimed, hcount⟩ := hp.claimed blk h
    refine ⟨⟨?_, fun g' hne => update_of_ne hne .., rfl, rfl⟩, hcount⟩
    dsimp only
    rwa [update_self]

/-- Without a reservation an attempt does not stop, and it fails only where nothing is free from the
goal on. -/
lemma tryGroup_none (bal : Balance) (sb : Sb) (fuel g : Nat) (grpGoal : Option Nat) (num : Nat)
    (fs : Fs) : ∃ p, tryGroup bal sb fuel g grpGoal none num fs = .ok p ∧
    (p.1 = none → ∀ i, grpGoal.getD 0 ≤ i → i < sb.blocksPerGroup → fs.bitmap g i = true) :=
  ⟨_, rfl, fun h _ hlo hhi => tryToAllocate_none h hlo hhi⟩

/-- What a search may do to the filesystem. -/
def Pass.Ok (sb : Sb) (fs : Fs) (count : Nat) : Pass → Prop
  | .allocated g blk num fs' => g < sb.groupsCount ∧ fs.Claims sb g blk num fs' ∧ num ≤ max count 1
  | .ioError fs' => fs.Same fs'
  | .exhausted num fs' => fs.Same fs' ∧ num ≤ count

lemma Pass.Ok.of_same {fs' : Fs} {num' : Nat} {p : Pass} (h : fs.Same fs') (hnum : num' ≤ num)
    (hp : Pass.Ok sb fs' num' p) : Pass.Ok sb fs num p := by
  cases p with
  | allocated => exact ⟨hp.1, h.claims hp.2.1, by have := hp.2.2; omega⟩
  | ioError => exact h.trans hp
  | exhausted => exact ⟨h.trans hp.1, hp.2.trans hnum⟩

lemma searchGroups_ok (hgroups : ∀ g ∈ groups, g < sb.groupsCount) (num : Nat) (fs : Fs) :
    Ensures (searchGroups bal sb env fuel windowsz myRsv groups num fs) (Pass.Ok sb fs num) := by
  induction groups generalizing num fs with
  | nil => exact .ok ⟨.refl fs, le_rfl⟩
  | cons g groups ih =>
    have hrest := fun num fs => ih (fun g hg => hgroups g (mem_cons_of_mem _ hg)) num fs
    rw [searchGroups]
    split
    · exact hrest num fs
    · split
      · exact .ok (.refl fs)
      · refine .bind tryGroup_ok fun p hp => ?_
        obtain ⟨_ | blk, num', fs'⟩ := p
        · obtain ⟨hsame, hnum⟩ := hp.1 rfl
          exact fun q hq => (hrest num' fs' q hq).of_same hsame hnum
        · obtain ⟨hclaims, hnum⟩ := hp.2 blk rfl
          exact .pure ⟨hgroups g mem_cons_self, hclaims, hnum⟩

lemma searchFrom_ok (hgoal : sb.firstDataBlock ≤ goal ∧ goal < sb.blocksCount) :
    Ensures (searchFrom bal sb env fuel windowsz myRsv goal num fs) (Pass.Ok sb fs num) := by
  have hrest (num : Nat) (fs : Fs) : Ensures (searchGroups bal sb env fuel windowsz myRsv
      (sb.otherGroups (sb.groupNo goal)) num fs)
      (Pass.Ok sb fs num) :=
    searchGroups_ok _ (fun _ => Sb.lt_of_mem_otherGroups) num fs
  rw [searchFrom]
  split
  · split
    · exact .ok (.refl fs)
    · refine .bind tryGroup_ok fun p hp => ?_
      obtain ⟨_ | blk, num', fs'⟩ := p
      · obtain ⟨hsame, hnum⟩ := hp.1 rfl
        exact fun q hq => (hrest num' fs' q hq).of_same hsame hnum
      · obtain ⟨hclaims, hnum⟩ := hp.2 blk rfl
        exact .pure ⟨Sb.groupNo_lt hgoal, hclaims, hnum⟩
  · exact hrest num fs

/-- A search of the groups without a reservation that finds nothing: all of them were skipped. -/
lemma searchGroups_exhausted (hgroups : ∀ g ∈ groups, g < sb.groupsCount) (num : Nat) (fs : Fs)
    (hc : fs.Counted sb) :
    Ensures (searchGroups bal sb env fuel windowsz none groups num fs) fun p =>
      ∀ num' fs', p = .exhausted num' fs' → ∀ g ∈ groups, fs.freeBlocksCount g ≤ windowsz / 2 := by
  induction groups generalizing num fs with
  | nil => exact .ok fun _ _ _ g hg => absurd hg not_mem_nil
  | cons g groups ih =>
    have hg := hgroups g mem_cons_self
    have hrest := fun num fs hc => ih (fun g hg => hgroups g (mem_cons_of_mem _ hg)) num fs hc
    rw [searchGroups]
    split
    · next hskip =>
      intro p hp num' fs' he g' hg'
      obtain rfl | hg' := mem_cons.mp hg'
      · exact hskip
      · exact hrest num fs hc p hp num' fs' he g' hg'
    · next hmany =>
      split
      · exact .ok fun _ _ h => by cases h
      · obtain ⟨⟨_ | blk, num', fs'⟩, heq, hnone⟩ :=
          tryGroup_none bal sb fuel g none num fs
        · -- a group that is not skipped has a free block
          have hzero := zeros_eq_zero_iff.mpr fun i hi => hnone rfl i (Nat.zero_le i) hi
          rw [← hc.counts g hg] at hzero
          omega
        · rw [heq]
          exact .pure fun _ _ h => by cases h

/-- A search without a reservation that finds nothing: nothing is free from the goal on, and every
group was skipped. -/
lemma searchFrom_exhausted (hgoal : sb.firstDataBlock ≤ goal ∧ goal < sb.blocksCount)
    (hc : fs.Counted sb) :
    Ensures (searchFrom bal sb env fuel windowsz none goal num fs) fun p =>
      ∀ num' fs', p = .exhausted num' fs' →
        (∀ i, sb.bitNo goal ≤ i → i < sb.blocksPerGroup →
          fs.bitmap (sb.groupNo goal) i = true) ∧
        ∀ g < sb.groupsCount, fs.freeBlocksCount g ≤ windowsz / 2 := by
  have hgroup := Sb.groupNo_lt hgoal
  have hrest (num : Nat) (fs : Fs) (hc : fs.Counted sb) :
      Ensures (searchGroups bal sb env fuel windowsz none
        (sb.otherGroups (sb.groupNo goal)) num fs) fun p =>
        ∀ num' fs', p = .exhausted num' fs' →
          ∀ g < sb.groupsCount, fs.freeBlocksCount g ≤ windowsz / 2 := by
    intro p hp num' fs' he g hg
    exact searchGroups_exhausted _ (fun _ => Sb.lt_of_mem_otherGroups) num fs hc p hp num' fs' he g
      (Sb.mem_otherGroups hgroup hg)
  rw [searchFrom]
  split
  · split
    · exact .ok fun _ _ h => by cases h
    · obtain ⟨⟨_ | blk, num', fs'⟩, heq, hnone⟩ :=
        tryGroup_none bal sb fuel (sb.groupNo goal) (some (sb.bitNo goal)) num fs
      · have hsame := ((tryGroup_ok _ heq).1 rfl).1
        rw [heq]
        intro p hp num'' fs'' he
        refine ⟨fun i hlo hhi => hnone rfl i hlo hhi, fun g hg => ?_⟩
        have hle := hrest num' fs' (hsame.counted hc) p hp num'' fs'' he g hg
        rwa [hsame.freeBlocksCount] at hle
      · rw [heq]
        exact .pure fun _ _ h => by cases h
  · next hfull =>
    intro p hp num' fs' he
    refine ⟨fun i _ hhi => ?_, hrest num fs hc p hp num' fs' he⟩
    have hzero := hc.counts _ hgroup
    exact zeros_eq_zero_iff.mp (by omega) i hhi

end Search

/-! ### No space left -/

/-- The state in which the search gives up too early: the inode has a window size but no window yet,
every group has so few free blocks that it is skipped for the sake of the window, and the goal's
group has none at or behind the goal. -/
structure Starved (sb : Sb) (fs : Fs) (blockI : Option NodeId) (goal : Nat) : Prop where
  sized : 0 < windowSize fs blockI
  empty : ∀ id, blockI = some id → (fs.rsvs.node id).isEmpty = true
  scarce : ∀ g < sb.groupsCount, fs.freeBlocksCount g ≤ windowSize fs blockI / 2
  behind : ∀ i, sb.bitNo (sb.clampGoal goal) ≤ i →
    i < sb.blocksPerGroup →
    fs.bitmap (sb.groupNo (sb.clampGoal goal)) i = true
  free : ∃ g < sb.groupsCount, 0 < fs.freeBlocksCount g

/-- How a call can return: with blocks that it has claimed, or without any, and then with `-ENOSPC`
only where nothing is free, the state is starved or the free blocks are kept for others. -/
inductive Returned (sb : Sb) (env : Env) (fs : Fs) (blockI : Option NodeId) (goal count : Nat) :
    NewBlocks → Prop
  | claimed {g blk num : Nat} {fs' : Fs} (group : g < sb.groupsCount)
      (claims : fs.Claims sb g blk num fs') (le : num ≤ max count 1) :
      Returned sb env fs blockI goal count (finish sb count g blk num fs')
  | refused {err : Errno} {fs' : Fs} (same : fs.Same fs') (failed : err ≠ .ok)
      (full : err = .enospc → hasFreeBlocks env fs = true →
        (∀ g < sb.groupsCount, fs.freeBlocksCount g = 0) ∨ Starved sb fs blockI goal) :
      Returned sb env fs blockI goal count ⟨0, count, err, fs'⟩

section Returns

variable {bal : Balance} {sb : Sb} {env : Env} {fuel : Nat} {fs : Fs} {blockI : Option NodeId}
  {goal count : Nat} {g num : Nat} {fs' : Fs}

lemma chosenRsv_none (h : chosenRsv fs blockI g = none) :
    windowSize fs blockI = 0 ∨ ∀ id, blockI = some id → (fs.rsvs.node id).isEmpty = true := by
  cases blockI with
  | none => exact .inl rfl
  | some id =>
    simp only [chosenRsv] at h
    split_ifs at h with hsize hempty
    · exact .inl hsize
    · refine .inr fun id' hid => ?_
      obtain rfl := Option.some.inj hid
      exact hempty.2

lemma full_or_starved (hmy : chosenRsv fs blockI (sb.groupNo (sb.clampGoal goal)) = none)
    (hbehind : ∀ i, sb.bitNo (sb.clampGoal goal) ≤ i → i < sb.blocksPerGroup →
      fs.bitmap (sb.groupNo (sb.clampGoal goal)) i = true)
    (hscarce : ∀ g < sb.groupsCount, fs.freeBlocksCount g ≤ windowSize fs blockI / 2) :
    (∀ g < sb.groupsCount, fs.freeBlocksCount g = 0) ∨ Starved sb fs blockI goal := by
  by_cases hfree : ∃ g < sb.groupsCount, 0 < fs.freeBlocksCount g
  · have hsized : 0 < windowSize fs blockI := by
      obtain ⟨g, hg, hpos⟩ := hfree
      have := hscarce g hg
      omega
    exact .inr ⟨hsized, (chosenRsv_none hmy).resolve_left (by omega), hscarce, hbehind, hfree⟩
  · push Not at hfree
    exact .inl fun g hg => Nat.le_zero.mp (hfree g hg)

/-- The second search is without a reservation and skips no group that has a free block. -/
lemma full_of_exhausted {num' : Nat} {fs'' : Fs} (hc : fs.Counted sb) (hsame : fs.Same fs')
    (h : searchFrom bal sb env fuel 0 none (sb.clampGoal goal) num fs' =
      .ok (.exhausted num' fs'')) : ∀ g < sb.groupsCount, fs.freeBlocksCount g = 0 := by
  intro g hg
  have hle := (searchFrom_exhausted (sb.clampGoal_mem goal) (hsame.counted hc) _ h _ _ rfl).2 g hg
  rw [hsame.freeBlocksCount] at hle
  exact Nat.le_zero.mp hle

lemma newBlocks_returned (hc : fs.Counted sb) :
    Ensures (newBlocks bal sb env fuel blockI goal count fs)
      (Returned sb env fs blockI goal count) := by
  have hgoal := sb.clampGoal_mem goal
  rw [newBlocks]
  split
  · exact .ok (.refused (.refl fs) (by decide) fun h => by cases h)
  · split
    · next hnone =>
      exact .ok (.refused (.refl fs) (by decide) fun _ h => by rw [hnone] at h; cases h)
    · intro r hr
      obtain ⟨p, hp, hr⟩ := bind_eq_ok hr
      have hpass := searchFrom_ok hgoal p hp
      cases p with
      | allocated g blk num fs' =>
        obtain rfl := ok.inj hr
        exact .claimed hpass.1 hpass.2.1 hpass.2.2
      | ioError fs' =>
        obtain rfl := ok.inj hr
        exact .refused hpass (by decide) fun h => by cases h
      | exhausted num fs' =>
        obtain ⟨hsame, hnum⟩ := hpass
        cases hmy : chosenRsv fs blockI (sb.groupNo (sb.clampGoal goal)) with
        | none =>
          simp only [hmy] at hp hr
          obtain rfl := ok.inj hr
          obtain ⟨hbehind, hscarce⟩ := searchFrom_exhausted hgoal hc _ hp num fs' rfl
          exact .refused hsame (by decide) fun _ _ => full_or_starved hmy hbehind hscarce
        | some id =>
          simp only [hmy] at hr
          obtain ⟨q, hq, hr⟩ := bind_eq_ok hr
          have hpass := (searchFrom_ok hgoal q hq).of_same hsame hnum
          cases q with
          | allocated g blk num fs' =>
            obtain rfl := ok.inj hr
            exact .claimed hpass.1 hpass.2.1 hpass.2.2
          | ioError fs' =>
            obtain rfl := ok.inj hr
            exact .refused hpass (by decide) fun h => by cases h
          | exhausted num fs' =>
            obtain rfl := ok.inj hr
            exact .refused hpass.1 (by decide) fun _ _ => .inl (full_of_exhausted hc hsame hq)

/-- The last block that is claimed was free, so that it is not padding. -/
lemma Fs.Claims.end_le {blk : Nat} (hc : fs.Counted sb) (hg : g < sb.groupsCount)
    (h : fs.Claims sb g blk num fs') :
    sb.firstDataBlock + g * sb.blocksPerGroup + blk + num ≤ sb.blocksCount := by
  obtain ⟨hpos, hinside, hfree, -⟩ := h.claimed
  by_contra hgt
  have hset := hc.padding g hg (blk + num - 1) (by omega) (by omega)
  rw [hfree (blk + num - 1) (by omega) (by omega)] at hset
  cases hset

lemma finish_eq (count : Nat) {blk : Nat} (hc : fs.Counted sb) (hg : g < sb.groupsCount)
    (h : fs.Claims sb g blk num fs') :
    finish sb count g blk num fs' =
      ⟨sb.firstDataBlock + g * sb.blocksPerGroup + blk, num, .ok,
        { fs'.groupAdjust g (-num) with freeBlocksCounter := fs'.freeBlocksCounter - num }⟩ := by
  have hpos := h.claimed.pos
  have hend := h.end_le hc hg
  have hlt := sb.blocksCount_lt
  have hret : u32 (blk + sb.groupFirst g) = sb.firstDataBlock + g * sb.blocksPerGroup + blk := by
    simp only [Sb.groupFirst, u32]
    omega
  have hlast : subU32 (sb.firstDataBlock + g * sb.blocksPerGroup + blk + num) 1 =
      sb.firstDataBlock + g * sb.blocksPerGroup + blk + num - 1 := by
    simp only [subU32, u32]
    omega
  simp only [finish, hret, hlast]
  exact if_neg (by omega)

lemma Starved.chosenRsv_eq (hs : Starved sb fs blockI goal) :
    chosenRsv fs blockI (sb.groupNo (sb.clampGoal goal)) = none := by
  have hsized := hs.sized
  cases blockI with
  | none => rfl
  | some id =>
    have hscarce := hs.scarce _ (Sb.groupNo_lt (sb.clampGoal_mem goal))
    have hfew : fs.freeBlocksCount (sb.groupNo (sb.clampGoal goal)) < windowSize fs (some id) := by
      omega
    simp only [chosenRsv]
    rw [if_neg (by omega), if_pos ⟨hfew, hs.empty id rfl⟩]

lemma searchGroups_skip {windowsz : Nat} {myRsv : Option NodeId} {groups : List Nat}
    (h : ∀ g ∈ groups, fs.freeBlocksCount g ≤ windowsz / 2) :
    searchGroups bal sb env fuel windowsz myRsv groups num fs = .ok (.exhausted num fs) := by
  induction groups with
  | nil => rfl
  | cons g groups ih =>
    rw [searchGroups, if_pos (h g mem_cons_self)]
    exact ih fun g hg => h g (mem_cons_of_mem _ hg)

/-- In a starved state the search gives up, with whatever fuel. -/
lemma newBlocks_of_starved (fuel : Nat) (hquota : env.quota = true)
    (hread : ∀ g, env.bread g = true)
    (hfree : hasFreeBlocks env fs = true) (hs : Starved sb fs blockI goal) :
    ∃ r, newBlocks bal sb env fuel blockI goal count fs = .ok r ∧ r.err = .enospc := by
  have hskip : ∀ g ∈ sb.otherGroups (sb.groupNo (sb.clampGoal goal)),
      fs.freeBlocksCount g ≤ windowSize fs blockI / 2 :=
    fun g hg => hs.scarce g (Sb.lt_of_mem_otherGroups hg)
  have hsearch : ∃ num' fs', searchFrom bal sb env fuel (windowSize fs blockI) none
      (sb.clampGoal goal) count fs = .ok (.exhausted num' fs') := by
    rw [searchFrom]
    split
    · rw [hread, tryGroup, tryToAllocateWithRsv, Sb.group,
        tryToAllocate_goal_set hs.behind]
      exact ⟨_, _, searchGroups_skip hskip⟩
    · exact ⟨_, _, searchGroups_skip hskip⟩
  obtain ⟨num', fs', hsearch⟩ := hsearch
  rw [newBlocks, hquota, hfree]
  simp only [hs.chosenRsv_eq, hsearch]
  exact ⟨_, rfl, rfl⟩

end Returns

/-- `ext2_new_blocks` reports `-ENOSPC` only if no group has a free block, for whatever reservation
windows, exactly in the states that are not starved. -/
theorem ext2_new_blocks_enospc (bal : Balance) (sb : Sb) (env : Env) (fs : Fs)
    (hc : fs.Counted sb) (hquota : env.quota = true) (hread : ∀ g, env.bread g = true)
    (hfree : hasFreeBlocks env fs = true) (blockI : Option NodeId) (goal count : Nat) :
    (∀ fuel r, newBlocks bal sb env fuel blockI goal count fs = .ok r → r.err = .enospc →
      ∀ g < sb.groupsCount, ∀ i < sb.blocksPerGroup, fs.bitmap g i = true) ↔
      ¬ Starved sb fs blockI goal := by
  constructor
  · intro h hs
    obtain ⟨r, hr, herr⟩ := newBlocks_of_starved 0 hquota hread hfree hs
    obtain ⟨g, hg, hpos⟩ := hs.free
    rw [hc.counts g hg] at hpos
    obtain ⟨i, hi, hclear⟩ := zeros_pos_iff.mp hpos
    rw [h 0 r hr herr g hg i hi] at hclear
    cases hclear
  · intro hs fuel r hr herr g hg
    have hreturned := newBlocks_returned hc r hr
    cases hreturned with
    | claimed hgroup hclaims _ =>
      rw [finish_eq count hc hgroup hclaims] at herr
      cases herr
    | refused _ _ hfull =>
      have hzero := (hfull herr hfree).resolve_right hs g hg
      rw [hc.counts g hg] at hzero
      exact zeros_eq_zero_iff.mp hzero

/-- Two groups of eight blocks, with the free blocks given for each, and no window. -/
def twoGroups : Sb where
  firstDataBlock := 1
  blocksCount := 17
  blocksPerGroup := 8
  first_lt := by decide
  blocksCount_lt := by decide
  blocksPerGroup_pos := by decide
  blocksPerGroup_le := by decide

def oneFree (group bit : Nat) : Fs where
  bitmap := fun g i => !(g == group && i == bit)
  freeBlocksCount := fun g => if g = group then 1 else 0
  freeBlocksCounter := 1
  rsvs := ⟨fun _ => ⟨8, 0, ⟨0, 0⟩⟩, .nil⟩

def unlimited : Env := ⟨true, fun _ => true, 0, false⟩

/-- One block is free, in the second group, and the inode has no window yet: the first group has not
enough free blocks for a window, so that the reservation is given up, and the second one has no more
than half of a window, so that it is skipped all the same. -/
theorem ext2_new_blocks_gives_up :
    (oneFree 1 3).Counted twoGroups ∧ hasFreeBlocks unlimited (oneFree 1 3) = true ∧
      (oneFree 1 3).bitmap 1 3 = false ∧
      ∃ r, newBlocks listBalance twoGroups unlimited 0 (some 0) 1 1 (oneFree 1 3) = .ok r ∧
        r.block = 0 ∧ r.err = .enospc :=
  ⟨⟨by decide, by decide⟩, by decide, rfl, _, rfl, rfl, rfl⟩

/-- The same disk for an inode without reservations: no `-ENOSPC` while a block is free. -/
theorem ext2_new_blocks_enospc_unreserved :
    hasFreeBlocks unlimited (oneFree 1 3) = true ∧
      ∀ fuel r, newBlocks listBalance twoGroups unlimited fuel none 1 1 (oneFree 1 3) = .ok r →
        r.err = .enospc → ∀ g < twoGroups.groupsCount, ∀ i < 8, (oneFree 1 3).bitmap g i = true :=
  ⟨by decide, (ext2_new_blocks_enospc listBalance twoGroups unlimited (oneFree 1 3)
    ⟨by decide, by decide⟩ rfl (fun _ => rfl) (by decide) none 1 1).mpr
    fun hs => absurd hs.sized (by decide)⟩

end R0Kernel.Ext2
