import R0Kernel.Foundation.BlockTree

/-!
# Truncating an inode

The block tree of an inode and `ext2_truncate`: the path to the first block that goes, the part of
the path that is shared with what stays, and the freeing of the top of the rest, of the ends of the
shared blocks and of the trees to the right.
-/

namespace R0Kernel.Ext2.Truncate

open BlockTree Function List

def NDIR_BLOCKS : Nat := 12

def IND_BLOCK : Nat := 12

def DIND_BLOCK : Nat := 13

def TIND_BLOCK : Nat := 14

def N_BLOCKS : Nat := 15

def addrPerBlock (bits : Nat) : Nat := 2 ^ bits

/-- `ext2_block_to_path` for a block number that is not negative: the empty path is for a block that
is out of range. -/
def blockToPath (bits iBlock : Nat) : List Nat :=
  let ptrs := addrPerBlock bits
  let doubleBlocks := 1 <<< (bits * 2)
  if iBlock < NDIR_BLOCKS then [iBlock]
  else
    let iBlock := iBlock - NDIR_BLOCKS
    if iBlock < ptrs then [IND_BLOCK, iBlock]
    else
      let iBlock := iBlock - ptrs
      if iBlock < doubleBlocks then [DIND_BLOCK, iBlock >>> bits, iBlock &&& (ptrs - 1)]
      else
        let iBlock := iBlock - doubleBlocks
        if iBlock >>> (bits * 2) < ptrs then
          [TIND_BLOCK, iBlock >>> (bits * 2), iBlock >>> bits &&& (ptrs - 1), iBlock &&& (ptrs - 1)]
        else []

/-- Where a pointer is: in the inode, in an indirect block, or in the variable `nr` of the
caller. -/
inductive Loc where
  | inode
  | block (b : Nat)
  | nr
  deriving DecidableEq

/-- The pointers, and the blocks that have been passed to `ext2_free_blocks`. -/
structure Mem where
  iData : Nat → Nat
  blk : Nat → Nat → Nat
  nr : Nat
  freed : List Nat

namespace Mem

def read (m : Mem) : Loc → Nat → Nat
  | .inode, i => m.iData i
  | .block b, i => m.blk b i
  | .nr, _ => m.nr

def write (m : Mem) (loc : Loc) (i v : Nat) : Mem :=
  match loc with
  | .inode => { m with iData := update m.iData i v }
  | .block b => { m with blk := update m.blk b (update (m.blk b) i v) }
  | .nr => { m with nr := v }

def freeBlocks (m : Mem) (block count : Nat) : Mem :=
  { m with freed := m.freed ++ range' block count }

end Mem

/-! ### Freeing -/

/-- The loop of `ext2_free_data`, with the run of blocks that is still to be freed. A run ends below
`2 ^ 32` and `nr` is not zero, so that the comparison with `nr - count` is one with the end. -/
def freeDataLoop (loc : Loc) : (slots : List Nat) → (blockToFree count : Nat) → Mem → Mem
  | [], blockToFree, count, m => if 0 < count then m.freeBlocks blockToFree count else m
  | i :: slots, blockToFree, count, m =>
    let nr := m.read loc i
    if nr = 0 then freeDataLoop loc slots blockToFree count m
    else
      let m := m.write loc i 0
      -- accumulate blocks to free if they're contiguous
      if count = 0 then freeDataLoop loc slots nr 1 m
      else if blockToFree + count = nr then freeDataLoop loc slots blockToFree (count + 1) m
      else freeDataLoop loc slots nr 1 (m.freeBlocks blockToFree count)

def freeData (loc : Loc) (slots : List Nat) (m : Mem) : Mem := freeDataLoop loc slots 0 0 m

/-- `ext2_free_branches` on the given slots of an array. -/
def freeBranches (ptrs : Nat) : (depth : Nat) → Loc → (slots : List Nat) → Mem → Mem
  | 0, loc, slots, m => freeData loc slots m
  | depth + 1, loc, slots, m =>
    slots.foldl (fun m i =>
      let nr := m.read loc i
      if nr = 0 then m
      else
        (freeBranches ptrs depth (.block nr) (range ptrs) (m.write loc i 0)).freeBlocks nr 1) m

/-! ### The shared branch -/

/-- `Indirect`: a pointer on a path, and what it was read as. -/
structure Link where
  loc : Loc
  p : Nat
  key : Nat

/-- `ext2_get_branch`: the chain up to the first pointer that is zero. -/
def getBranch (m : Mem) : Loc → (offsets : List Nat) → List Link
  | _, [] => []
  | loc, p :: offsets =>
    let key := m.read loc p
    if key = 0 then [⟨loc, p, key⟩] else ⟨loc, p, key⟩ :: getBranch m (.block key) offsets

def allZeroes (m : Mem) (l : Link) : Bool := (range l.p).all fun i => m.read l.loc i == 0

/-- `ext2_find_shared`, for the path `first :: rest`: the chain of the blocks that stay, with the
last of its pointers one back where the rest of the branch is freed with what is behind it. Without
concurrency the branch has not changed since it was read. -/
def findShared (m : Mem) (first : Nat) (rest : List Nat) : Mem × List Link :=
  let m := { m with nr := 0 }
  -- offsets of zero at the end of the path
  let rest := rest.rdropWhile (· == 0)
  let k := rest.length + 1
  let chain := getBranch m .inode (first :: rest)
  let shared := chain.take 1 ++ (chain.drop 1).rdropWhile (allZeroes m)
  match shared.getLast? with
  | none => (m, [])
  | some last =>
    if shared.length = k ∧ 1 < k then (m, shared.dropLast ++ [{ last with p := last.p - 1 }])
    else
      ({ m with nr := m.read last.loc last.p }.write last.loc last.p 0, shared)

/-- Clear the ends of indirect blocks on the shared branch, from the last of them to the first. -/
def clearEnds (ptrs : Nat) : (depth : Nat) → List Link → Mem → Mem
  | _, [], m => m
  | depth, l :: ls, m =>
    clearEnds ptrs (depth + 1) ls
      (freeBranches ptrs depth l.loc (range' (l.p + 1) (ptrs - (l.p + 1))) m)

def killTree (ptrs slot depth : Nat) (m : Mem) : Mem :=
  let m := { m with nr := m.iData slot }
  if m.nr = 0 then m else freeBranches ptrs depth .nr [0] (m.write .inode slot 0)

/-- The label `do_indirects`, a `switch` that falls through. -/
def doIndirects (ptrs first : Nat) (m : Mem) : Mem :=
  if first = TIND_BLOCK then m
  else if first = DIND_BLOCK then killTree ptrs TIND_BLOCK 3 m
  else if first = IND_BLOCK then killTree ptrs TIND_BLOCK 3 (killTree ptrs DIND_BLOCK 2 m)
  else
    killTree ptrs TIND_BLOCK 3 (killTree ptrs DIND_BLOCK 2 (killTree ptrs IND_BLOCK 1 m))

/-- The paths of two and more pointers. -/
def truncateBranch (ptrs first : Nat) (rest : List Nat) (m : Mem) : Mem :=
  let n := rest.length + 1
  let (m, shared) := findShared m first rest
  -- kill the top of shared branch (already detached)
  let m := if m.nr = 0 then m else freeBranches ptrs (n - shared.length) .nr [0] m
  clearEnds ptrs (n - shared.length) shared.tail.reverse m

/-- What `ext2_truncate` asks the inode about first. -/
structure Inode where
  regular : Bool
  directory : Bool
  symlink : Bool
  fastSymlink : Bool
  append : Bool
  immutable : Bool

def Inode.truncatable (inode : Inode) : Bool :=
  (inode.regular || inode.directory || inode.symlink) && !inode.fastSymlink &&
    !(inode.append || inode.immutable)

/-- The first block that goes, for blocks of `2 ^ bits` pointers of four bytes. For the sizes that a
file can have it fits a `long`. -/
def truncationBlock (bits iSize : Nat) : Nat :=
  (iSize + addrPerBlock bits * 4 - 1) >>> (bits + 2)

def truncate (bits : Nat) (inode : Inode) (iSize : Nat) (m : Mem) : Mem :=
  if inode.truncatable = false then m
  else
    let ptrs := addrPerBlock bits
    let m := { m with nr := 0 }
    match blockToPath bits (truncationBlock bits iSize) with
    | [] => m
    | [first] =>
      doIndirects ptrs first
        (freeData .inode (range' first (NDIR_BLOCKS - first)) m)
    | first :: rest => doIndirects ptrs first (truncateBranch ptrs first rest m)

/-- The physical block of a logical one, zero for a hole: the end of its branch, if that is
complete. -/
def lookup (bits : Nat) (m : Mem) (iBlock : Nat) : Nat :=
  match blockToPath bits iBlock with
  | [] => 0
  | offsets =>
    let chain := getBranch m .inode offsets
    if chain.length = offsets.length then (chain.getLast?.map (·.key)).getD 0 else 0

end R0Kernel.Ext2.Truncate
