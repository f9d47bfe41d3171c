import R0Kernel.Fs.Ext2.Truncate

/-!
# Freeing trees

`ext2_free_branches` as one slot after the other, which the runs that `ext2_free_data` collects make
no difference to, and the blocks of the trees at the slots of an array.
-/

namespace R0Kernel.Ext2.Truncate

open BlockTree List Mem

namespace Mem

variable {m : Mem} {loc loc' : Loc} {i j v : Nat} (block : Nat)

@[simp]
lemma read_write_self : (m.write loc i v).read loc i = v := by
  cases loc <;> simp [read, write]

lemma read_write_of_ne (hloc : loc ≠ .nr) (hne : j ≠ i) :
    (m.write loc i v).read loc j = m.read loc j := by
  cases loc with
  | nr => exact absurd rfl hloc
  | inode => simp [read, write, hne]
  | block b => simp [read, write, hne]

lemma read_write_of_loc_ne (hne : loc' ≠ loc) : (m.write loc i v).read loc' j = m.read loc' j := by
  cases loc <;> cases loc' <;> simp_all [read, write]

@[simp]
lemma read_freeBlocks (count : Nat) : (m.freeBlocks block count).read loc i = m.read loc i := by
  cases loc <;> rfl

@[simp]
lemma freed_write : (m.write loc i v).freed = m.freed := by
  cases loc <;> rfl

lemma write_freeBlocks (count : Nat) :
    (m.freeBlocks block count).write loc i v = (m.write loc i v).freeBlocks block count := by
  cases loc <;> rfl

@[simp]
lemma freeBlocks_zero : m.freeBlocks block 0 = m := by
  simp [freeBlocks]

lemma freeBlocks_freeBlocks (count : Nat) :
    (m.freeBlocks block count).freeBlocks (block + count) 1 = m.freeBlocks block (count + 1) := by
  simp [freeBlocks, range'_concat]

end Mem

/-! ### One slot after the other -/

/-- One slot of `ext2_free_branches`, without collecting runs. -/
def releaseSlot (ptrs : Nat) : (depth : Nat) → Loc → (slot : Nat) → Mem → Mem
  | 0, loc, i, m => if m.read loc i = 0 then m else (m.write loc i 0).freeBlocks (m.read loc i) 1
  | depth + 1, loc, i, m =>
    if m.read loc i = 0 then m
    else
      ((range ptrs).foldl (fun n j => releaseSlot ptrs depth (.block (m.read loc i)) j n)
        (m.write loc i 0)).freeBlocks (m.read loc i) 1

/-- Slots of an array whose pointers have the heights `hs`. -/
def release (ptrs : Nat) (hs : Nat → Nat) (loc : Loc) (slots : List Nat) (m : Mem) : Mem :=
  slots.foldl (fun m i => releaseSlot ptrs (hs i) loc i m) m

variable (ptrs : Nat)

lemma freeDataLoop_eq {loc : Loc} (slots : List Nat) (blockToFree count : Nat) (m : Mem) :
    freeDataLoop loc slots blockToFree count m =
      release ptrs (fun _ => 0) loc slots (m.freeBlocks blockToFree count) := by
  induction slots generalizing blockToFree count m with
  | nil =>
    rw [freeDataLoop]
    split
    · rfl
    · next hcount =>
      rw [Nat.eq_zero_of_not_pos hcount, freeBlocks_zero]
      rfl
  | cons i slots ih =>
    rw [freeDataLoop, release, foldl_cons, releaseSlot, read_freeBlocks,
      write_freeBlocks]
    by_cases hnr : m.read loc i = 0
    · rw [if_pos hnr, if_pos hnr, ih]
      rfl
    · rw [if_neg hnr, if_neg hnr]
      by_cases hcount : count = 0
      · rw [if_pos hcount, ih, hcount, freeBlocks_zero]
        rfl
      · rw [if_neg hcount]
        by_cases hrun : blockToFree + count = m.read loc i
        · rw [if_pos hrun, ih, ← hrun, freeBlocks_freeBlocks]
          rfl
        · rw [if_neg hrun, ih]
          rfl

lemma freeBranches_eq (depth : Nat) (loc : Loc) (slots : List Nat) (m : Mem) :
    freeBranches ptrs depth loc slots m = release ptrs (fun _ => depth) loc slots m := by
  induction depth generalizing loc slots m with
  | zero => rw [freeBranches, freeData, freeDataLoop_eq ptrs, freeBlocks_zero]
  | succ depth ih =>
    simp only [freeBranches, release, releaseSlot, ih]

lemma release_cons (hs : Nat → Nat) (loc : Loc) (i : Nat) (slots : List Nat) (m : Mem) :
    release ptrs hs loc (i :: slots) m =
      release ptrs hs loc slots (releaseSlot ptrs (hs i) loc i m) := rfl

/-! ### The trees of an array -/

section Trees

variable (ptrs : Nat) (hs : Nat → Nat) (loc : Loc) (slots : List Nat) (m : Mem)

def allBlocks : List Nat := slots.flatMap fun i => blocks ptrs m.blk (hs i) (m.read loc i)

/-- The indirect blocks of the trees at the slots of an array. -/
def allInds : List Nat := slots.flatMap fun i => inds ptrs m.blk (hs i) (m.read loc i)

end Trees

/-- The array is not one of the given blocks. -/
def Loc.Fresh (loc : Loc) (bs : List Nat) : Prop := ∀ b, loc = .block b → b ∉ bs

lemma Loc.Fresh.mono {loc : Loc} {bs bs' : List Nat} (h : loc.Fresh bs) (hsub : bs' ⊆ bs) :
    loc.Fresh bs' := fun b hb hin => h b hb (hsub hin)

lemma Loc.Fresh.ne {loc : Loc} {bs : List Nat} (h : loc.Fresh bs) {b : Nat} (hb : b ∈ bs) :
    loc ≠ .block b := fun heq => h b heq hb

lemma Loc.fresh_block {b : Nat} {bs : List Nat} (hb : b ∉ bs) : (Loc.block b).Fresh bs := by
  intro b' heq
  obtain rfl := Loc.block.inj heq
  exact hb

section Trees

variable {ptrs : Nat} {hs : Nat → Nat} {loc : Loc} {slots slots' : List Nat} {m m' : Mem}
  {i b : Nat}

lemma allInds_subset : allInds ptrs hs loc slots m ⊆ allBlocks ptrs hs loc slots m := by
  intro b hb
  obtain ⟨i, hi, hb⟩ := mem_flatMap.mp hb
  exact mem_flatMap.mpr ⟨i, hi, inds_subset_blocks _ _ hb⟩

lemma blocks_subset (hs : Nat → Nat) (hi : i ∈ slots) :
    blocks ptrs m.blk (hs i) (m.read loc i) ⊆ allBlocks ptrs hs loc slots m :=
  fun _ hb => mem_flatMap.mpr ⟨i, hi, hb⟩

lemma inds_subset (hi : i ∈ slots) :
    inds ptrs m.blk (hs i) (m.read loc i) ⊆ allInds ptrs hs loc slots m :=
  fun _ hb => mem_flatMap.mpr ⟨i, hi, hb⟩

@[simp]
lemma allBlocks_append : allBlocks ptrs hs loc (slots ++ slots') m =
    allBlocks ptrs hs loc slots m ++ allBlocks ptrs hs loc slots' m := flatMap_append

@[simp]
lemma allInds_append : allInds ptrs hs loc (slots ++ slots') m =
    allInds ptrs hs loc slots m ++ allInds ptrs hs loc slots' m := flatMap_append

@[simp]
lemma allBlocks_singleton :
    allBlocks ptrs hs loc [i] m = blocks ptrs m.blk (hs i) (m.read loc i) := by
  simp [allBlocks]

@[simp]
lemma allInds_singleton : allInds ptrs hs loc [i] m = inds ptrs m.blk (hs i) (m.read loc i) := by
  simp [allInds]

/-- The tree of a pointer, by the slots of its block. -/
lemma blocks_eq_allBlocks {h nr : Nat} (hnr : nr ≠ 0) : blocks ptrs m.blk (h + 1) nr =
    allBlocks ptrs (fun _ => h) (.block nr) (range ptrs) m ++ [nr] := blocks_succ hnr

lemma inds_eq_allInds {h nr : Nat} (hnr : nr ≠ 0) : inds ptrs m.blk (h + 1) nr =
    allInds ptrs (fun _ => h) (.block nr) (range ptrs) m ++ [nr] := inds_succ hnr

/-- The trees at some slots, which a change of the memory has left alone. -/
structure Same (ptrs : Nat) (hs : Nat → Nat) (loc : Loc) (slots : List Nat) (m m' : Mem) :
    Prop where
  read : ∀ i ∈ slots, m'.read loc i = m.read loc i
  blk : ∀ b ∈ allInds ptrs hs loc slots m, m'.blk b = m.blk b

namespace Same

variable (h : Same ptrs hs loc slots m m')

include h

lemma blk_of_mem (hi : i ∈ slots) :
    ∀ b ∈ inds ptrs m.blk (hs i) (m.read loc i), m'.blk b = m.blk b :=
  fun b hb => h.blk b (inds_subset hi hb)

lemma allBlocks_eq : allBlocks ptrs hs loc slots m' = allBlocks ptrs hs loc slots m :=
  flatMap_congr fun i hi => by rw [h.read i hi, blocks_congr (h.blk_of_mem hi)]

lemma allInds_eq : allInds ptrs hs loc slots m' = allInds ptrs hs loc slots m :=
  flatMap_congr fun i hi => by rw [h.read i hi, inds_congr (h.blk_of_mem hi)]

lemma follow_eq (hi : i ∈ slots) {x : Nat} (hx : x < ptrs ^ hs i) :
    follow ptrs m'.blk (hs i) (m'.read loc i) x = follow ptrs m.blk (hs i) (m.read loc i) x := by
  rw [h.read i hi, follow_congr (h.blk_of_mem hi) hx]

end Same

lemma disjoint_allInds
    (hdisjoint : (allBlocks ptrs hs loc slots m).Disjoint (allBlocks ptrs hs loc slots' m)) :
    (allInds ptrs hs loc slots m).Disjoint (allInds ptrs hs loc slots' m) :=
  fun _ hb hb' => hdisjoint (allInds_subset hb) (allInds_subset hb')

lemma same_write {h : Nat} (hnr : m.read loc i ≠ 0)
    (hfresh : loc.Fresh (blocks ptrs m.blk (h + 1) (m.read loc i))) :
    Same ptrs (fun _ => h) (.block (m.read loc i)) (range ptrs) m (m.write loc i 0) := by
  rw [blocks_eq_allBlocks hnr] at hfresh
  refine ⟨fun j _ => read_write_of_loc_ne (hfresh.ne (by simp)).symm, fun b hb => ?_⟩
  funext j
  exact read_write_of_loc_ne (hfresh.ne (mem_append_left _ (allInds_subset hb))).symm

end Trees

end R0Kernel.Ext2.Truncate
