import R0Kernel.Fs.Ext2.Trim

/-!
# Truncation is exact

The slots of an inode with the heights of their trees, logical blocks as leaves of these trees, and
`ext2_truncate` as the trimming of the inode at the first block that goes. From this the blocks
below it stay, those from it on are gone, and what has been freed are these and the indirect blocks
that the inode does not lead to any more.
-/

namespace R0Kernel.Ext2.Truncate

open BlockTree List

/-! ### Logical blocks -/

/-- The height of the tree at a slot of the inode: zero for the direct blocks, then one, two and
three. -/
def height (slot : Nat) : Nat := slot - (NDIR_BLOCKS - 1)

/-- The first logical block of a slot. -/
def base (ptrs : Nat) : (slot : Nat) → Nat
  | 0 => 0
  | slot + 1 => base ptrs slot + ptrs ^ height slot

section Base

variable {ptrs i j x y : Nat}

lemma base_mono (h : i ≤ j) : base ptrs i ≤ base ptrs j := by
  induction j with
  | zero => rw [Nat.le_zero.mp h]
  | succ j ih =>
    obtain rfl | hlt := Nat.eq_or_lt_of_le h
    · exact le_refl _
    · exact (ih (Nat.lt_succ_iff.mp hlt)).trans (Nat.le_add_right ..)

lemma base_lt_of_lt (hij : i < j) (hx : x < ptrs ^ height i) : base ptrs i + x < base ptrs j :=
  calc base ptrs i + x < base ptrs (i + 1) := Nat.add_lt_add_left hx _
    _ ≤ base ptrs j := base_mono hij

lemma base_add_lt_iff (hx : x < ptrs ^ height i) (hy : y < ptrs ^ height j) :
    base ptrs i + x < base ptrs j + y ↔ i < j ∨ i = j ∧ x < y := by
  obtain hlt | rfl | hgt := lt_trichotomy i j
  · have := base_lt_of_lt hlt hx
    omega
  · omega
  · have := base_lt_of_lt hgt hy
    omega

lemma base_add_inj (hx : x < ptrs ^ height i) (hy : y < ptrs ^ height j)
    (heq : base ptrs i + x = base ptrs j + y) : i = j ∧ x = y := by
  have hlt := base_add_lt_iff hx hy
  have hgt := base_add_lt_iff hy hx
  omega

lemma base_direct (h : i ≤ NDIR_BLOCKS) : base ptrs i = i := by
  induction i with
  | zero => rfl
  | succ i ih =>
    have hheight : height i = 0 := Nat.sub_eq_zero_of_le (by omega)
    rw [base, ih (by omega), hheight, pow_zero]

end Base

section Zones

variable (ptrs : Nat)

lemma base_ind : base ptrs IND_BLOCK = NDIR_BLOCKS := base_direct (le_refl _)

lemma base_dind : base ptrs DIND_BLOCK = NDIR_BLOCKS + ptrs := by
  rw [DIND_BLOCK, base, ← IND_BLOCK.eq_def, base_ind]
  simp [height, NDIR_BLOCKS, IND_BLOCK]

lemma base_tind : base ptrs TIND_BLOCK = NDIR_BLOCKS + ptrs + ptrs ^ 2 := by
  rw [TIND_BLOCK, base, ← DIND_BLOCK.eq_def, base_dind]
  simp [height, NDIR_BLOCKS, DIND_BLOCK]

lemma base_end : base ptrs N_BLOCKS = NDIR_BLOCKS + ptrs + ptrs ^ 2 + ptrs ^ 3 := by
  rw [N_BLOCKS, base, ← TIND_BLOCK.eq_def, base_tind]
  simp [height, NDIR_BLOCKS, TIND_BLOCK]

end Zones

lemma shiftRight_bits (bits x : Nat) : x >>> bits = x / addrPerBlock bits :=
  Nat.shiftRight_eq_div_pow x bits

lemma and_bits (bits x : Nat) : x &&& (addrPerBlock bits - 1) = x % addrPerBlock bits :=
  Nat.and_two_pow_sub_one_eq_mod x bits

lemma shiftLeft_two (bits : Nat) : 1 <<< (bits * 2) = addrPerBlock bits ^ 2 := by
  rw [Nat.one_shiftLeft, addrPerBlock, Nat.pow_mul]

lemma shiftRight_two (bits x : Nat) : x >>> (bits * 2) = x / addrPerBlock bits ^ 2 := by
  rw [Nat.shiftRight_eq_div_pow, addrPerBlock, Nat.pow_mul]

lemma triple_split (ptrs x : Nat) :
    x / ptrs ^ 2 * ptrs ^ 2 + (x / ptrs % ptrs * ptrs + x % ptrs) = x :=
  calc x / ptrs ^ 2 * ptrs ^ 2 + (x / ptrs % ptrs * ptrs + x % ptrs)
      = (x / ptrs / ptrs * ptrs + x / ptrs % ptrs) * ptrs + x % ptrs := by
        rw [Nat.pow_two, Nat.div_div_eq_div_mul, add_mul, mul_assoc, add_assoc]
    _ = x := by rw [Nat.div_add_mod', Nat.div_add_mod']

/-- The path of a logical block: the slot of the inode and its number under it. -/
lemma blockToPath_spec (bits iBlock : Nat) :
    (blockToPath bits iBlock = [] ∧ base (addrPerBlock bits) N_BLOCKS ≤ iBlock) ∨
    ∃ first rest, blockToPath bits iBlock = first :: rest ∧ first < N_BLOCKS ∧
      rest.length = height first ∧ (∀ o ∈ rest, o < addrPerBlock bits) ∧
      iBlock = base (addrPerBlock bits) first + pathNumber (addrPerBlock bits) rest := by
  have hpos : 0 < addrPerBlock bits := Nat.two_pow_pos bits
  simp only [blockToPath, shiftRight_two, shiftLeft_two, and_bits]
  simp only [shiftRight_bits]
  generalize addrPerBlock bits = ptrs at hpos
  split_ifs with hdir hind hdind htind
  · refine .inr ⟨iBlock, [], rfl, ?_, ?_, by simp, ?_⟩
    · exact hdir.trans (by decide)
    · exact (Nat.sub_eq_zero_of_le (Nat.le_pred_of_lt hdir)).symm
    · rw [base_direct hdir.le, pathNumber, add_zero]
  · refine .inr ⟨IND_BLOCK, _, rfl, by decide, rfl, by simpa using hind, ?_⟩
    rw [base_ind]
    simp only [pathNumber, length_nil, pow_zero, mul_one, add_zero]
    omega
  · have hlt : (iBlock - NDIR_BLOCKS - ptrs) / ptrs < ptrs :=
      Nat.div_lt_of_lt_mul (by rwa [← Nat.pow_two])
    refine .inr ⟨DIND_BLOCK, _, rfl, by decide, rfl, by simp [hlt, Nat.mod_lt _ hpos], ?_⟩
    have hsplit := Nat.div_add_mod' (iBlock - NDIR_BLOCKS - ptrs) ptrs
    rw [base_dind]
    simp only [pathNumber, length_cons, length_nil, zero_add, pow_zero,
      Nat.pow_one, mul_one, add_zero]
    omega
  · refine .inr ⟨TIND_BLOCK, _, rfl, by decide, rfl, by simp [htind, Nat.mod_lt _ hpos], ?_⟩
    have hsplit := triple_split ptrs (iBlock - NDIR_BLOCKS - ptrs - ptrs ^ 2)
    rw [base_tind]
    simp only [pathNumber, length_cons, length_nil, zero_add, pow_zero,
      Nat.pow_one, mul_one, add_zero, Nat.reduceAdd]
    omega
  · refine .inl ⟨rfl, ?_⟩
    rw [not_lt, Nat.le_div_iff_mul_le (Nat.pow_pos hpos)] at htind
    rw [base_end, Nat.pow_succ' (n := 2)]
    omega

/-! ### Looking up a block -/

section Lookup

variable {ptrs : Nat} {m : Mem}

lemma getBranch_follow {loc : Loc} {o : Nat} {os : List Nat} (hos : ∀ o ∈ os, o < ptrs) :
    (if (getBranch m loc (o :: os)).length = (o :: os).length then
      ((getBranch m loc (o :: os)).getLast?.map (·.key)).getD 0 else 0) =
      follow ptrs m.blk os.length (m.read loc o) (pathNumber ptrs os) := by
  induction os generalizing loc o with
  | nil =>
    split <;> simp_all [getBranch, follow]
  | cons o' os ih =>
    obtain ⟨-, hos⟩ := forall_mem_cons.mp hos
    rw [getBranch]
    by_cases hnr : m.read loc o = 0
    · simp [hnr]
    · have hne : getBranch m (.block (m.read loc o)) (o' :: os) ≠ [] := by
        rw [getBranch]
        split <;> simp
      have hlength : (o' :: os).length = os.length + 1 := rfl
      rw [if_neg hnr, pathNumber, hlength, follow_succ hnr (pathNumber_lt hos), ← Mem.read,
        ← ih hos]
      simp only [length_cons, Nat.add_right_cancel_iff, getLast?_cons_of_ne_nil hne]

variable {bits : Nat}

lemma lookup_of_path {iBlock first : Nat} {rest : List Nat}
    (hpath : blockToPath bits iBlock = first :: rest) (hrest : ∀ o ∈ rest, o < addrPerBlock bits) :
    lookup bits m iBlock = follow (addrPerBlock bits) m.blk rest.length (m.iData first)
      (pathNumber (addrPerBlock bits) rest) := by
  rw [lookup, hpath]
  exact getBranch_follow hrest

lemma lookup_eq {i y : Nat} (hi : i < N_BLOCKS) (hy : y < addrPerBlock bits ^ height i) :
    lookup bits m (base (addrPerBlock bits) i + y) =
      follow (addrPerBlock bits) m.blk (height i) (m.iData i) y := by
  obtain ⟨-, hend⟩ | ⟨first, rest, hpath, -, hlength, hrest, heq⟩ :=
    blockToPath_spec bits (base (addrPerBlock bits) i + y)
  · have := base_lt_of_lt hi hy
    omega
  · obtain ⟨rfl, rfl⟩ := base_add_inj hy (hlength ▸ pathNumber_lt hrest) heq
    rw [lookup_of_path hpath hrest, hlength]

lemma lookup_cases (bits iBlock : Nat) :
    (∀ m, lookup bits m iBlock = 0) ∨
    ∃ i < N_BLOCKS, ∃ y < addrPerBlock bits ^ height i,
      iBlock = base (addrPerBlock bits) i + y := by
  obtain ⟨hpath, -⟩ | ⟨first, rest, -, hfirst, hlength, hrest, heq⟩ := blockToPath_spec bits iBlock
  · exact .inl fun m => by rw [lookup, hpath]
  · exact .inr ⟨first, hfirst, _, hlength ▸ pathNumber_lt hrest, heq⟩

end Lookup

/-! ### The slots of the inode -/

section Truncate

variable {ptrs : Nat} {loc : Loc} {m : Mem} {hs : Nat → Nat} {first : Nat}

lemma foldl_nr {α : Type} {f : Mem → α → Mem} (hf : ∀ m a, (f m a).nr = m.nr) (as : List α) :
    (as.foldl f m).nr = m.nr := by
  induction as generalizing m with
  | nil => rfl
  | cons a as ih => rw [foldl_cons, ih, hf]

lemma releaseSlot_nr (hloc : loc ≠ .nr) (h i : Nat) : (releaseSlot ptrs h loc i m).nr = m.nr := by
  have hwrite : (m.write loc i 0).nr = m.nr := Mem.read_write_of_loc_ne (i := i) (j := 0) hloc.symm
  induction h generalizing loc i m with
  | zero =>
    rw [releaseSlot]
    split
    · rfl
    · exact hwrite
  | succ h ih =>
    rw [releaseSlot]
    split
    · rfl
    · exact (foldl_nr (fun n j => ih (by simp) j rfl) _).trans hwrite

lemma release_nr (hloc : loc ≠ .nr) (slots : List Nat) :
    (release ptrs hs loc slots m).nr = m.nr :=
  foldl_nr (fun _ i => releaseSlot_nr hloc (hs i) i) slots

lemma cut_nr (hloc : loc ≠ .nr) (os : List Nat) (o : Nat) : (cut ptrs os loc o m).nr = m.nr := by
  induction os generalizing loc o with
  | nil => exact releaseSlot_nr hloc 0 o
  | cons o' os ih =>
    rw [cut]
    split
    · exact releaseSlot_nr hloc _ o
    · rw [release_nr (by simp), ih (by simp)]

lemma killTree_eq (slot depth : Nat) (hnr : m.nr = 0) :
    killTree ptrs slot depth m = releaseSlot ptrs depth .inode slot m := by
  have hinode : Loc.inode ≠ .nr := by simp
  rw [← kill_detached hinode ptrs depth hnr, detach_nr hinode, killTree, Mem.read]
  by_cases hzero : m.iData slot = 0
  · rw [if_pos hzero, if_pos hzero, detach_of_zero hinode hnr hzero, hzero, ← hnr]
  · rw [if_neg hzero, if_neg hzero]
    rfl

/-- The whole trees are those at the slots behind the direct ones. -/
lemma doIndirects_eq (hfirst : first < N_BLOCKS) (hnr : m.nr = 0) :
    doIndirects ptrs first m = release ptrs height .inode
      (range' (max (first + 1) NDIR_BLOCKS) (N_BLOCKS - max (first + 1) NDIR_BLOCKS)) m := by
  have hkill : ∀ (slot depth : Nat) {n : Mem}, n.nr = 0 →
      killTree ptrs slot depth n = releaseSlot ptrs depth .inode slot n ∧
        (releaseSlot ptrs depth .inode slot n).nr = 0 := fun slot depth n hn =>
    ⟨killTree_eq slot depth hn, (releaseSlot_nr (by simp) depth slot).trans hn⟩
  rw [doIndirects]
  split_ifs with htind hdind hind
  · rw [htind]
    rfl
  · rw [hdind, (hkill _ _ hnr).1]
    rfl
  · obtain ⟨h₂, hnr₂⟩ := hkill DIND_BLOCK 2 hnr
    rw [hind, h₂, (hkill _ _ hnr₂).1]
    rfl
  · obtain ⟨h₁, hnr₁⟩ := hkill IND_BLOCK 1 hnr
    obtain ⟨h₂, hnr₂⟩ := hkill DIND_BLOCK 2 hnr₁
    have hmax : max (first + 1) NDIR_BLOCKS = IND_BLOCK := by
      simp only [N_BLOCKS, TIND_BLOCK, DIND_BLOCK, IND_BLOCK, NDIR_BLOCKS] at *
      omega
    rw [h₁, h₂, (hkill _ _ hnr₂).1, hmax]
    rfl

lemma release_congr {hs' : Nat → Nat} {slots : List Nat} (heq : ∀ i ∈ slots, hs i = hs' i) :
    release ptrs hs loc slots m = release ptrs hs' loc slots m :=
  foldl_ext _ _ m fun n i hi => by rw [heq i hi]

lemma release_append (slots slots' : List Nat) :
    release ptrs hs loc (slots ++ slots') m =
      release ptrs hs loc slots' (release ptrs hs loc slots m) := foldl_append ..

/-- The direct blocks from `first` on, and the whole trees. -/
lemma truncateDirect_eq (hfirst : first < NDIR_BLOCKS) (hnr : m.nr = 0) :
    doIndirects ptrs first (freeData .inode (range' first (NDIR_BLOCKS - first)) m) =
      release ptrs height .inode (range' (first + 1) (N_BLOCKS - (first + 1)))
        (cut ptrs [] .inode first m) := by
  have hdirect : freeData .inode (range' first (NDIR_BLOCKS - first)) m =
      release ptrs height .inode (range' first (NDIR_BLOCKS - first)) m := by
    rw [freeData, freeDataLoop_eq ptrs, Mem.freeBlocks_zero]
    refine release_congr fun i hi => ?_
    have hlt := (mem_range'_1.mp hi).2
    exact (Nat.sub_eq_zero_of_le (by omega)).symm
  have hheight : height first = 0 := Nat.sub_eq_zero_of_le (by omega)
  have hrange : range' (first + 1) (N_BLOCKS - (first + 1)) =
      range' (first + 1) (NDIR_BLOCKS - (first + 1)) ++
        range' NDIR_BLOCKS (N_BLOCKS - NDIR_BLOCKS) := by
    have happend := range'_append_1 (s := first + 1) (m := NDIR_BLOCKS - (first + 1))
      (n := N_BLOCKS - NDIR_BLOCKS)
    rw [Nat.add_sub_cancel' hfirst] at happend
    rw [happend]
    congr 1
    simp only [NDIR_BLOCKS, N_BLOCKS] at *
    omega
  have hnr' : (release ptrs height .inode (range' first (NDIR_BLOCKS - first)) m).nr = 0 :=
    (release_nr (by simp) _).trans hnr
  rw [hdirect, doIndirects_eq (hfirst.trans (by decide)) hnr', Nat.max_eq_right hfirst, hrange,
    release_append, release_range' ptrs height .inode m hfirst, hheight, cut]

lemma truncate_eq {bits iSize : Nat} {inode : Inode} {rest : List Nat}
    (hinode : inode.truncatable = true)
    (hpath : blockToPath bits (truncationBlock bits iSize) = first :: rest)
    (hfirst : first < N_BLOCKS) (hlength : rest.length = height first)
    (hrest : ∀ o ∈ rest, o < addrPerBlock bits) :
    truncate bits inode iSize m = release (addrPerBlock bits) height .inode
      (range' (first + 1) (N_BLOCKS - (first + 1)))
      (cut (addrPerBlock bits) rest .inode first { m with nr := 0 }) := by
  rw [truncate, hinode]
  simp only [Bool.true_eq_false, if_false, hpath]
  cases rest with
  | nil =>
    have hdirect : first < NDIR_BLOCKS := by
      simp only [height, NDIR_BLOCKS, length_nil] at hlength ⊢
      omega
    exact truncateDirect_eq hdirect rfl
  | cons o os =>
    have hind : NDIR_BLOCKS ≤ first := by
      simp only [height, NDIR_BLOCKS, length_cons] at hlength ⊢
      omega
    dsimp only
    rw [truncateBranch_eq hrest, doIndirects_eq hfirst (cut_nr (by simp) _ _),
      Nat.max_eq_left (hind.trans (Nat.le_succ _))]

end Truncate

/-! ### Exactness -/

def inodeBlocks (bits : Nat) (m : Mem) : List Nat :=
  allBlocks (addrPerBlock bits) height .inode (range N_BLOCKS) m

def inodeInds (bits : Nat) (m : Mem) : List Nat :=
  allInds (addrPerBlock bits) height .inode (range N_BLOCKS) m

section Exact

variable {bits b iBlock : Nat} {m m' : Mem} {c : Nat}

lemma mem_inodeBlocks_iff :
    b ∈ inodeBlocks bits m ↔ b ∈ inodeInds bits m ∨ ∃ x, lookup bits m x = b ∧ b ≠ 0 := by
  constructor
  · intro hb
    obtain ⟨i, hi, hb⟩ := mem_flatMap.mp hb
    obtain hin | ⟨y, hy, hleaf, hne⟩ := mem_blocks hb
    · exact .inl (inds_subset hi hin)
    · exact .inr ⟨_, (lookup_eq (mem_range.mp hi) hy).trans hleaf, hne⟩
  · rintro (hb | ⟨x, hx, hne⟩)
    · exact allInds_subset hb
    · obtain hnone | ⟨i, hi, y, hy, rfl⟩ := lookup_cases bits x
      · exact absurd ((hnone m).symm.trans hx).symm hne
      · rw [lookup_eq hi hy] at hx
        refine blocks_subset height (mem_range.mpr hi) (hx ▸ follow_mem_blocks hy ?_)
        rwa [← hx] at hne

section

variable (hnodup : (inodeBlocks bits m).Nodup) (hne : lookup bits m iBlock ≠ 0)

include hnodup hne

lemma lookup_not_mem_inodeInds : lookup bits m iBlock ∉ inodeInds bits m := by
  obtain hnone | ⟨i, hi, y, hy, rfl⟩ := lookup_cases bits iBlock
  · exact absurd (hnone m) hne
  · rw [lookup_eq hi hy] at hne ⊢
    intro hin
    obtain ⟨j, hj, hin⟩ := mem_flatMap.mp hin
    have hslot := slot_eq_of_mem hnodup (mem_range.mpr hi) hj (follow_mem_blocks hy hne)
      (inds_subset_blocks _ _ hin)
    rw [← hslot] at hin
    exact leaf_not_mem_inds ((nodup_flatMap.mp hnodup).1 i (mem_range.mpr hi)) hy hne hin

lemma lookup_inj {iBlock' : Nat} (heq : lookup bits m iBlock = lookup bits m iBlock') :
    iBlock = iBlock' := by
  obtain hnone | ⟨i, hi, y, hy, rfl⟩ := lookup_cases bits iBlock
  · exact absurd (hnone m) hne
  · obtain hnone | ⟨j, hj, z, hz, rfl⟩ := lookup_cases bits iBlock'
    · exact absurd (heq.trans (hnone m)) hne
    · rw [lookup_eq hi hy] at hne heq
      rw [lookup_eq hj hz] at heq
      have hslot := slot_eq_of_mem hnodup (mem_range.mpr hi) (mem_range.mpr hj)
        (follow_mem_blocks hy hne) (heq ▸ follow_mem_blocks hz (heq ▸ hne))
      subst hslot
      rw [leaf_inj ((nodup_flatMap.mp hnodup).1 i (mem_range.mpr hi)) hy hz hne heq]

end

/-- What truncation does to the logical blocks and to the blocks of the inode. -/
structure Truncated (bits c : Nat) (m m' : Mem) : Prop where
  lookup : ∀ x, lookup bits m' x = if x < c then lookup bits m x else 0
  ledger : (m'.freed ++ inodeBlocks bits m').Perm (m.freed ++ inodeBlocks bits m)
  inds : inodeInds bits m' ⊆ inodeInds bits m

lemma lookup_nr (v x : Nat) : lookup bits { m with nr := v } x = lookup bits m x := by
  obtain hnone | ⟨i, hi, y, hy, rfl⟩ := lookup_cases bits x
  · rw [hnone, hnone]
  · rw [lookup_eq hi hy, lookup_eq hi hy]

lemma lookup_beyond {x : Nat} (hx : base (addrPerBlock bits) N_BLOCKS ≤ x) :
    lookup bits m x = 0 := by
  obtain hnone | ⟨i, hi, y, hy, rfl⟩ := lookup_cases bits x
  · exact hnone m
  · have := base_lt_of_lt hi hy
    omega

/-- What is kept of a slot, by the numbers of the logical blocks. -/
lemma lt_keepTo_height_iff {ptrs first i y : Nat} (hc : c < ptrs ^ height first)
    (hy : y < ptrs ^ height i) : y < Trimmed.keepTo ptrs height first c i ↔
      base ptrs i + y < base ptrs first + c := by
  rw [base_add_lt_iff hy hc, Trimmed.keepTo]
  split_ifs <;> omega

lemma truncate_truncated {inode : Inode} (iSize : Nat) (hinode : inode.truncatable = true)
    (hnodup : (inodeBlocks bits m).Nodup) :
    Truncated bits (truncationBlock bits iSize) m (truncate bits inode iSize m) := by
  obtain ⟨hpath, hend⟩ | ⟨first, rest, hpath, hfirst, hlength, hrest, hcut⟩ :=
    blockToPath_spec bits (truncationBlock bits iSize)
  · -- the size is the largest there is
    have hsame : truncate bits inode iSize m = { m with nr := 0 } := by
      rw [truncate, hinode]
      simp only [Bool.true_eq_false, if_false, hpath]
    rw [hsame]
    refine ⟨fun x => ?_, .refl _, Subset.refl _⟩
    rw [lookup_nr]
    split_ifs with hx
    · rfl
    · exact lookup_beyond (hend.trans (not_lt.mp hx))
  · rw [truncate_eq hinode hpath hfirst hlength hrest]
    have hslot : Trimmed (addrPerBlock bits) height .inode [first]
        (fun _ => pathNumber (addrPerBlock bits) rest) { m with nr := 0 } _ :=
      cut_trimmed hlength.symm hrest (by simp)
        (hlength ▸ (nodup_flatMap.mp hnodup).1 first (mem_range.mpr hfirst))
        (fun _ h => nomatch h)
    have htrim := hslot.array hfirst (by simp) hnodup (fun _ h => nomatch h)
    refine ⟨fun x => ?_, htrim.ledger, htrim.inds⟩
    obtain hnone | ⟨i, hi, y, hy, rfl⟩ := lookup_cases bits x
    · simp [hnone]
    · have hleaf := htrim.follow i (mem_range.mpr hi) y hy
      simp only [lt_keepTo_height_iff (hlength ▸ pathNumber_lt hrest) hy, ← hcut] at hleaf
      rw [lookup_eq hi hy, lookup_eq hi hy]
      exact hleaf

lemma Truncated.mem_freed_iff (h : Truncated bits c m m') (hfreed : m.freed = [])
    (hnodup : (inodeBlocks bits m).Nodup) :
    b ∈ m'.freed ↔ (∃ x ≥ c, Truncate.lookup bits m x = b ∧ b ≠ 0) ∨
      b ∈ inodeInds bits m ∧ b ∉ inodeInds bits m' := by
  have hledger := h.ledger
  rw [hfreed, nil_append] at hledger
  have hmem : b ∈ m'.freed ∨ b ∈ inodeBlocks bits m' ↔ b ∈ inodeBlocks bits m := by
    rw [← mem_append, hledger.mem_iff]
  have hdisjoint := (nodup_append'.mp (hledger.nodup_iff.mpr hnodup)).2.2
  -- a block of data that is left is one below the truncation block
  have hbelow : ∀ x, Truncate.lookup bits m' x = b → b ≠ 0 → x < c ∧
      Truncate.lookup bits m x = b := by
    intro x hx hne
    rw [h.lookup x] at hx
    split_ifs at hx with hlt
    · exact ⟨hlt, hx⟩
    · exact absurd hx.symm hne
  constructor
  · intro hb
    obtain hin | ⟨x, hx, hne⟩ := mem_inodeBlocks_iff.mp (hmem.mp (.inl hb))
    · exact .inr ⟨hin, fun hin' => hdisjoint hb (allInds_subset hin')⟩
    · refine .inl ⟨x, Nat.le_of_not_lt fun hlt => ?_, hx, hne⟩
      have hkept : Truncate.lookup bits m' x = b := by rw [h.lookup x, if_pos hlt, hx]
      exact hdisjoint hb (mem_inodeBlocks_iff.mpr (.inr ⟨x, hkept, hne⟩))
  · rintro (⟨x, hge, hx, hne⟩ | ⟨hin, hout⟩)
    · refine (hmem.mpr (mem_inodeBlocks_iff.mpr (.inr ⟨x, hx, hne⟩))).resolve_right fun hb => ?_
      rw [← hx] at hne
      obtain hin' | ⟨y, hy, hne'⟩ := mem_inodeBlocks_iff.mp hb
      · exact lookup_not_mem_inodeInds hnodup hne (hx ▸ h.inds hin')
      · obtain ⟨hlt, hy⟩ := hbelow y hy hne'
        have := lookup_inj hnodup hne (hx.trans hy.symm)
        omega
    · refine (hmem.mpr (allInds_subset hin)).resolve_right fun hb => ?_
      obtain hin' | ⟨y, hy, hne⟩ := mem_inodeBlocks_iff.mp hb
      · exact hout hin'
      · obtain ⟨-, hy⟩ := hbelow y hy hne
        rw [← hy] at hne
        exact lookup_not_mem_inodeInds hnodup hne (hy ▸ hin)

/-- Truncation of an inode that can be truncated: the blocks below the truncation block stay and the
others are gone, and freed are, each once, the blocks of data from it on and the indirect blocks
that the inode does not lead to any more. -/
theorem ext2_truncate_exact (bits : Nat) (inode : Inode) (iSize : Nat) (m : Mem)
    (hinode : inode.truncatable = true) (hnodup : (inodeBlocks bits m).Nodup)
    (hfreed : m.freed = []) :
    (∀ x < truncationBlock bits iSize,
      lookup bits (truncate bits inode iSize m) x = lookup bits m x) ∧
    (∀ x ≥ truncationBlock bits iSize, lookup bits (truncate bits inode iSize m) x = 0) ∧
    (truncate bits inode iSize m).freed.Nodup ∧
    ∀ b, b ∈ (truncate bits inode iSize m).freed ↔
      (∃ x ≥ truncationBlock bits iSize, lookup bits m x = b ∧ b ≠ 0) ∨
        b ∈ inodeInds bits m ∧ b ∉ inodeInds bits (truncate bits inode iSize m) := by
  have h := truncate_truncated iSize hinode hnodup
  refine ⟨fun x hx => ?_, fun x hx => ?_, ?_, fun b => h.mem_freed_iff hfreed hnodup⟩
  · rw [h.lookup x, if_pos hx]
  · rw [h.lookup x, if_neg (not_lt.mpr hx)]
  · have hledger := h.ledger
    rw [hfreed] at hledger
    exact (nodup_append'.mp (hledger.nodup_iff.mpr hnodup)).1

end Exact

def regularFile (immutable : Bool) : Inode :=
  { regular := true, directory := false, symlink := false, fastSymlink := false, append := false,
    immutable := immutable }

/-- A file with a hole in the direct blocks and two blocks in the first indirect one. -/
def holeFile : Mem :=
  { iData := fun i => if i = 0 then 100 else if i = IND_BLOCK then 200 else 0,
    blk := fun b i => if b = 200 ∧ i < 2 then 201 + i else 0, nr := 0, freed := [] }

/-- Only the second block behind the indirect one goes. -/
theorem ext2_truncate_exact_hole :
    lookup 8 (truncate 8 (regularFile false) 13312 holeFile) 12 = 201 ∧
      lookup 8 (truncate 8 (regularFile false) 13312 holeFile) 13 = 0 ∧
      (truncate 8 (regularFile false) 13312 holeFile).freed = [202] := by
  have hnodup : (inodeBlocks 8 holeFile).Nodup := by decide +kernel
  have h := ext2_truncate_exact 8 (regularFile false) 13312 holeFile rfl hnodup rfl
  refine ⟨(h.1 12 (by decide)).trans (by decide), h.2.1 13 (by decide), by decide +kernel⟩

/-- An immutable file keeps its blocks. -/
theorem ext2_truncate_immutable : (inodeBlocks 8 holeFile).Nodup ∧ holeFile.freed = [] ∧
    truncationBlock 8 0 ≤ 0 ∧ lookup 8 (truncate 8 (regularFile true) 0 holeFile) 0 = 100 := by
  refine ⟨by decide +kernel, rfl, by decide, by decide⟩

end R0Kernel.Ext2.Truncate
