import R0Kernel.Fs.Ext2.Shared

/-!
# Trimming trees

What the freeing at and behind a path does to the trees of an array: of the leaves at each slot the
first so many are as before and the others are gone, and what has been passed on and what is left
are together the blocks that were there. Such changes at different slots of an array add up, and a
change of the slots of an indirect block is one of the slot that points to it.
-/

namespace R0Kernel.Ext2.Truncate

open BlockTree List Mem

/-- Of the leaves at slot `i` the first `keep i` are left. -/
structure Trimmed (ptrs : Nat) (hs : Nat → Nat) (loc : Loc) (slots : List Nat) (keep : Nat → Nat)
    (m m' : Mem) : Prop where
  ledger : (m'.freed ++ allBlocks ptrs hs loc slots m').Perm
    (m.freed ++ allBlocks ptrs hs loc slots m)
  inds : allInds ptrs hs loc slots m' ⊆ allInds ptrs hs loc slots m
  follow : ∀ i ∈ slots, ∀ x < ptrs ^ hs i, follow ptrs m'.blk (hs i) (m'.read loc i) x =
    if x < keep i then follow ptrs m.blk (hs i) (m.read loc i) x else 0
  rest : ∀ i, i ∉ slots → m'.read loc i = m.read loc i
  frame : ∀ loc', loc' ≠ loc → loc'.Fresh (allInds ptrs hs loc slots m) →
    ∀ i, m'.read loc' i = m.read loc' i

namespace Trimmed

variable {ptrs : Nat} {hs : Nat → Nat} {loc : Loc} {slots slots' : List Nat}
  {keep keep' : Nat → Nat}
  {m m' m'' : Mem}

lemma refl (hkeep : ∀ i ∈ slots, ptrs ^ hs i ≤ keep i) : Trimmed ptrs hs loc slots keep m m where
  ledger := .refl _
  inds := Subset.refl _
  follow i hi x hx := by rw [if_pos (hx.trans_le (hkeep i hi))]
  rest _ _ := rfl
  frame _ _ _ _ := rfl

lemma congr_keep (h : Trimmed ptrs hs loc slots keep m m') (hkeep : ∀ i ∈ slots, keep' i = keep i) :
    Trimmed ptrs hs loc slots keep' m m' :=
  { h with follow := fun i hi x hx => by rw [h.follow i hi x hx, hkeep i hi] }

lemma extend (h : Trimmed ptrs hs loc slots (fun _ => 0) m m')
    (hempty : ∀ i ∈ slots, ∀ x < keep i, BlockTree.follow ptrs m.blk (hs i) (m.read loc i) x = 0) :
    Trimmed ptrs hs loc slots keep m m' := by
  refine { h with follow := fun i hi x hx => ?_ }
  rw [h.follow i hi x hx, if_neg (Nat.not_lt_zero x)]
  split_ifs with hlt
  · exact (hempty i hi x hlt).symm
  · rfl

variable (h : Trimmed ptrs hs loc slots keep m m')

include h

lemma same (hslots : slots.Disjoint slots')
    (hdisjoint : (allInds ptrs hs loc slots m).Disjoint (allInds ptrs hs loc slots' m))
    (hfresh : loc.Fresh (allInds ptrs hs loc slots' m)) : Same ptrs hs loc slots' m m' := by
  refine ⟨fun i hi => h.rest i fun hin => hslots hin hi, fun b hb => ?_⟩
  funext i
  exact h.frame (.block b) (hfresh.ne hb).symm (Loc.fresh_block fun hin => hdisjoint hin hb) i

lemma same_of_nodup (hslots : slots.Disjoint slots')
    (hnodup : (allBlocks ptrs hs loc (slots ++ slots') m).Nodup)
    (hfresh : loc.Fresh (allBlocks ptrs hs loc (slots ++ slots') m)) :
    Same ptrs hs loc slots' m m' := by
  rw [allBlocks_append] at hnodup hfresh
  exact h.same hslots (disjoint_allInds (nodup_append'.mp hnodup).2.2)
    (hfresh.mono (subset_append_of_subset_right _ allInds_subset))

lemma append (h' : Trimmed ptrs hs loc slots' keep m' m'') (hslots : slots.Disjoint slots')
    (hnodup : (allBlocks ptrs hs loc (slots ++ slots') m).Nodup)
    (hfresh : loc.Fresh (allBlocks ptrs hs loc (slots ++ slots') m)) :
    Trimmed ptrs hs loc (slots ++ slots') keep m m'' := by
  have hbehind := h.same_of_nodup hslots hnodup hfresh
  rw [allBlocks_append] at hnodup hfresh
  have hdisjoint := disjoint_allInds (nodup_append'.mp hnodup).2.2
  have hfront : Same ptrs hs loc slots m' m'' := by
    refine h'.same (fun i hi hi' => hslots hi' hi) (fun b hb hb' => ?_)
      ((hfresh.mono (subset_append_of_subset_left _ allInds_subset)).mono h.inds)
    exact hdisjoint (h.inds hb') (hbehind.allInds_eq ▸ hb)
  refine ⟨?_, ?_, fun i hi x hx => ?_, fun i hi => ?_, fun loc' hne hfr i => ?_⟩
  · rw [allBlocks_append, allBlocks_append, hfront.allBlocks_eq]
    refine perm_iff_count.mpr fun b => ?_
    have hfirst := h.ledger.count_eq b
    have hsecond := h'.ledger.count_eq b
    rw [hbehind.allBlocks_eq] at hsecond
    simp only [count_append] at hfirst hsecond ⊢
    omega
  · rw [allInds_append, allInds_append, hfront.allInds_eq, ← hbehind.allInds_eq]
    exact append_subset.mpr ⟨subset_append_of_subset_left _ h.inds,
      subset_append_of_subset_right _ h'.inds⟩
  · obtain hi | hi := mem_append.mp hi
    · rw [hfront.follow_eq hi hx, h.follow i hi x hx]
    · rw [h'.follow i hi x hx, hbehind.follow_eq hi hx]
  · simp only [mem_append, not_or] at hi
    rw [h'.rest i hi.2, h.rest i hi.1]
  · rw [allInds_append] at hfr
    have hfr' := hfr.mono (subset_append_right ..)
    rw [h'.frame loc' hne (hbehind.allInds_eq ▸ hfr'),
      h.frame loc' hne (hfr.mono (subset_append_left ..))]

end Trimmed

/-! ### Releasing -/

/-- The slots are zero, and all that was there has been passed on. -/
structure Released (ptrs : Nat) (hs : Nat → Nat) (loc : Loc) (slots : List Nat) (m m' : Mem) :
    Prop extends Trimmed ptrs hs loc slots (fun _ => 0) m m' where
  zero : ∀ i ∈ slots, m'.read loc i = 0

/-- Slots of this height are released as they should be. -/
def SlotReleases (ptrs h : Nat) : Prop :=
  ∀ (hs : Nat → Nat) (loc : Loc) (i : Nat) (m : Mem), hs i = h → loc ≠ .nr →
    (allBlocks ptrs hs loc [i] m).Nodup → loc.Fresh (allBlocks ptrs hs loc [i] m) →
    Released ptrs hs loc [i] m (releaseSlot ptrs h loc i m)

section Release

variable {ptrs : Nat} {hs : Nat → Nat} {loc : Loc} {slots : List Nat} {m m' : Mem} {i : Nat}

lemma Released.freed (h : Released ptrs hs loc slots m m') :
    m'.freed.Perm (m.freed ++ allBlocks ptrs hs loc slots m) := by
  have hnil : allBlocks ptrs hs loc slots m' = [] :=
    flatMap_eq_nil_iff.mpr fun i hi => by rw [h.zero i hi, blocks_null]
  have hledger := h.ledger
  rwa [hnil, append_nil] at hledger

lemma Released.of_slot (hzero : m'.read loc i = 0)
    (hfreed : m'.freed.Perm (m.freed ++ blocks ptrs m.blk (hs i) (m.read loc i)))
    (hrest : ∀ j, j ≠ i → m'.read loc j = m.read loc j)
    (hframe : ∀ loc', loc' ≠ loc → loc'.Fresh (inds ptrs m.blk (hs i) (m.read loc i)) →
      ∀ j, m'.read loc' j = m.read loc' j) : Released ptrs hs loc [i] m m' := by
  refine ⟨⟨?_, ?_, fun j hj x _ => ?_, fun j hj => ?_, ?_⟩, by simpa using hzero⟩
  · rwa [allBlocks_singleton, allBlocks_singleton, hzero, blocks_null, append_nil]
  · simp [hzero]
  · rw [mem_singleton.mp hj]
    simp [hzero]
  · exact hrest j fun heq => hj (mem_singleton.mpr heq)
  · rwa [allInds_singleton]

lemma release_of_slots (hspec : ∀ i ∈ slots, SlotReleases ptrs (hs i))
    (hloc : loc ≠ .nr) (hslots : slots.Nodup) (hnodup : (allBlocks ptrs hs loc slots m).Nodup)
    (hfresh : loc.Fresh (allBlocks ptrs hs loc slots m)) :
    Released ptrs hs loc slots m (release ptrs hs loc slots m) := by
  induction slots generalizing m with
  | nil => exact ⟨.refl (by simp), by simp⟩
  | cons i slots ih =>
    obtain ⟨hi, hslots⟩ := nodup_cons.mp hslots
    rw [← singleton_append] at hnodup hfresh ⊢
    have hdisjoint : [i].Disjoint slots := by simpa using hi
    have hparts := nodup_append'.mp (allBlocks_append ▸ hnodup)
    have hone := hspec i mem_cons_self hs loc i m rfl hloc hparts.1
      ((allBlocks_append ▸ hfresh).mono (subset_append_left ..))
    have hsame := hone.same_of_nodup hdisjoint hnodup hfresh
    have hrest := ih (m := releaseSlot ptrs (hs i) loc i m)
      (fun j hj => hspec j (mem_cons_of_mem _ hj)) hslots (hsame.allBlocks_eq ▸ hparts.2.1)
      (hsame.allBlocks_eq ▸ (allBlocks_append ▸ hfresh).mono (subset_append_right ..))
    refine ⟨hone.append hrest.toTrimmed hdisjoint hnodup hfresh, fun j hj => ?_⟩
    obtain hj | hj := mem_append.mp hj
    · obtain rfl := mem_singleton.mp hj
      exact (hrest.rest j hi).trans (hone.zero j hj)
    · exact hrest.zero j hj

lemma released_null (hzero : m.read loc i = 0) : Released ptrs hs loc [i] m m :=
  .of_slot hzero (by simp [hzero]) (fun _ _ => rfl) fun _ _ _ _ => rfl

lemma slotReleases (ptrs h : Nat) : SlotReleases ptrs h := by
  induction h with
  | zero =>
    intro hs loc i m hi hloc _ _
    rw [releaseSlot]
    split_ifs with hnr
    · exact released_null hnr
    · refine .of_slot (by simp) ?_ (fun j hj => ?_) fun loc' hne _ j => ?_
      · simp [hi, blocks, hnr, Mem.freeBlocks]
      · rw [read_freeBlocks, read_write_of_ne hloc hj]
      · rw [read_freeBlocks, read_write_of_loc_ne hne]
  | succ h ih =>
    intro hs loc i m hi hloc hnodup hfresh
    rw [releaseSlot]
    split_ifs with hnr
    · exact released_null hnr
    rw [allBlocks_singleton, hi] at hnodup hfresh
    have hsame := same_write hnr hfresh
    rw [blocks_eq_allBlocks hnr] at hnodup hfresh
    obtain ⟨hchildren, -, hself⟩ := nodup_append'.mp hnodup
    have hrel := release_of_slots (m := m.write loc i 0) (fun _ _ => ih) (by simp)
      nodup_range (hsame.allBlocks_eq ▸ hchildren)
      (Loc.fresh_block fun hin => hself (hsame.allBlocks_eq ▸ hin) (by simp))
    have hframe := hrel.frame loc (hfresh.ne (by simp))
      (hsame.allInds_eq ▸ hfresh.mono (subset_append_of_subset_left _ allInds_subset))
    refine .of_slot ?_ ?_ (fun j hj => ?_) fun loc' hne hfr j => ?_
    · exact (hframe i).trans read_write_self
    · have hfreed := hrel.freed
      rw [hsame.allBlocks_eq, freed_write] at hfreed
      rw [hi, blocks_eq_allBlocks hnr, ← append_assoc]
      exact hfreed.append_right [m.read loc i]
    · exact (hframe j).trans (read_write_of_ne hloc hj)
    · rw [hi, inds_eq_allInds hnr] at hfr
      refine (hrel.frame loc' (hfr.ne (by simp))
        (hsame.allInds_eq ▸ hfr.mono (subset_append_left ..)) j).trans ?_
      exact read_write_of_loc_ne hne

lemma Trimmed.of_release (hloc : loc ≠ .nr) (hslots : slots.Nodup)
    (hnodup : (allBlocks ptrs hs loc slots m).Nodup)
    (hfresh : loc.Fresh (allBlocks ptrs hs loc slots m)) :
    Trimmed ptrs hs loc slots (fun _ => 0) m (release ptrs hs loc slots m) :=
  (release_of_slots (fun i _ => slotReleases ptrs (hs i)) hloc hslots hnodup hfresh).toTrimmed

end Release

namespace Trimmed

variable {ptrs : Nat} {hs : Nat → Nat} {loc : Loc} {keep : Nat → Nat} {m m' : Mem}

lemma range_eq {o n : Nat} (ho : o < n) :
    range n = range o ++ ([o] ++ range' (o + 1) (n - (o + 1))) := by
  have happend := range'_append_1 (s := 0) (m := o) (n := n - (o + 1) + 1)
  rw [zero_add, show o + (n - (o + 1) + 1) = n by omega, range'_succ] at happend
  rw [range_eq_range', range_eq_range', ← happend, singleton_append]

/-- What is kept of an array: all before the slot `o`, the first `c` leaves there, and nothing
behind it. -/
def keepTo (ptrs : Nat) (hs : Nat → Nat) (o c i : Nat) : Nat :=
  if i < o then ptrs ^ hs i else if i = o then c else 0

/-- An array of `n` slots that is trimmed at the slot `o`, with the slots behind it released. -/
lemma array {n o c : Nat} (h : Trimmed ptrs hs loc [o] (fun _ => c) m m') (ho : o < n)
    (hloc : loc ≠ .nr) (hnodup : (allBlocks ptrs hs loc (range n) m).Nodup)
    (hfresh : loc.Fresh (allBlocks ptrs hs loc (range n) m)) :
    Trimmed ptrs hs loc (range n) (keepTo ptrs hs o c) m
      (release ptrs hs loc (range' (o + 1) (n - (o + 1))) m') := by
  rw [range_eq ho] at hnodup hfresh ⊢
  obtain ⟨-, hnodup', -⟩ := nodup_append'.mp (allBlocks_append ▸ hnodup)
  have hfresh' := (allBlocks_append ▸ hfresh).mono (subset_append_right ..)
  have hslots : [o].Disjoint (range' (o + 1) (n - (o + 1))) := by
    simp only [singleton_disjoint, mem_range'_1]
    omega
  -- the slots behind `o` are still as they were when they are released
  have hbehind := h.same_of_nodup hslots hnodup' hfresh'
  have hreleased : Trimmed ptrs hs loc (range' (o + 1) (n - (o + 1))) (fun _ => 0) m'
      (release ptrs hs loc (range' (o + 1) (n - (o + 1))) m') := by
    rw [allBlocks_append, ← hbehind.allBlocks_eq] at hnodup' hfresh'
    exact of_release hloc nodup_range' (nodup_append'.mp hnodup').2.1
      (hfresh'.mono (subset_append_right ..))
  have hslot : Trimmed ptrs hs loc [o] (keepTo ptrs hs o c) m m' :=
    h.congr_keep (by simp [keepTo])
  have hrest : ∀ i ∈ range' (o + 1) (n - (o + 1)), keepTo ptrs hs o c i = 0 := by
    intro i hi
    have hlt := (mem_range'_1.mp hi).1
    rw [keepTo, if_neg (by omega), if_neg (by omega)]
  refine (refl fun i hi => ?_).append (hslot.append (hreleased.congr_keep hrest)
    hslots hnodup' hfresh') (fun i hi hi' => ?_) hnodup hfresh
  · rw [keepTo, if_pos (mem_range.mp hi)]
  · simp only [mem_range, mem_append, mem_singleton, mem_range'_1] at hi hi'
    omega

/-- A change of the slots of an indirect block is one of the slot that points to it. -/
lemma lift {h o c : Nat}
    (ht : Trimmed ptrs (fun _ => h) (.block (m.read loc o)) (range ptrs) keep m m')
    (hnr : m.read loc o ≠ 0) (ho : hs o = h + 1)
    (hfresh : loc.Fresh (blocks ptrs m.blk (h + 1) (m.read loc o)))
    (hkeep : ∀ i < ptrs, ∀ y < ptrs ^ h, y < keep i ↔ i * ptrs ^ h + y < c) :
    Trimmed ptrs hs loc [o] (fun _ => c) m m' := by
  rw [blocks_eq_allBlocks hnr] at hfresh
  have hread := ht.frame loc (hfresh.ne (by simp))
    (hfresh.mono (subset_append_of_subset_left _ allInds_subset))
  refine ⟨?_, ?_, fun i hi x hx => ?_, fun i _ => hread i, fun loc' hne hfr i => ?_⟩
  · rw [allBlocks_singleton, allBlocks_singleton, ho, hread, blocks_eq_allBlocks hnr,
      blocks_eq_allBlocks hnr, ← append_assoc, ← append_assoc]
    exact ht.ledger.append_right _
  · rw [allInds_singleton, allInds_singleton, ho, hread, inds_eq_allInds hnr, inds_eq_allInds hnr]
    exact append_subset.mpr ⟨subset_append_of_subset_left _ ht.inds,
      subset_append_right ..⟩
  · obtain rfl := mem_singleton.mp hi
    rw [ho] at hx ⊢
    obtain ⟨hdiv, hmod⟩ := lt_pow_succ hx
    have hchild := ht.follow (x / ptrs ^ h) (mem_range.mpr hdiv) (x % ptrs ^ h) hmod
    simp only [hkeep _ hdiv _ hmod, Nat.div_add_mod'] at hchild
    rw [hread, BlockTree.follow, BlockTree.follow, if_neg hnr, if_neg hnr]
    exact hchild
  · rw [allInds_singleton, ho, inds_eq_allInds hnr] at hfr
    exact ht.frame loc' (hfr.ne (by simp)) (hfr.mono (subset_append_left ..)) i

end Trimmed

/-! ### Along a path -/

/-- The number of a leaf under a pointer, by its path. -/
def pathNumber (ptrs : Nat) : (path : List Nat) → Nat
  | [] => 0
  | o :: os => o * ptrs ^ os.length + pathNumber ptrs os

section Path

variable {ptrs : Nat} {os : List Nat} {loc : Loc} {o : Nat} {m : Mem}

lemma pathNumber_lt (hos : ∀ o ∈ os, o < ptrs) : pathNumber ptrs os < ptrs ^ os.length := by
  induction os with
  | nil => simp [pathNumber]
  | cons o os ih =>
    obtain ⟨ho, hos⟩ := forall_mem_cons.mp hos
    calc o * ptrs ^ os.length + pathNumber ptrs os < (o + 1) * ptrs ^ os.length := by
          rw [Nat.add_one_mul]
          exact Nat.add_lt_add_left (ih hos) _
      _ ≤ ptrs * ptrs ^ os.length := Nat.mul_le_mul_right _ ho
      _ = ptrs ^ (o :: os).length := by rw [length_cons, Nat.pow_succ, mul_comm]

/-- A leaf before a path is under a slot before the path's, or before its end under the same. -/
lemma split_of_lt {q o c x : Nat} (hc : c < q) (hx : x < o * q + c) :
    x / q < o ∨ x / q = o ∧ x % q < c := by
  have hle : x / q < o + 1 := Nat.div_lt_of_lt_mul (by rw [mul_comm, Nat.add_one_mul]; omega)
  obtain hlt | heq := Nat.lt_or_eq_of_le (Nat.lt_succ_iff.mp hle)
  · exact .inl hlt
  · have hsplit := Nat.div_add_mod' x q
    rw [heq] at hsplit
    omega

lemma pathNumber_of_rdropWhile (hnil : os.rdropWhile (· == 0) = []) : pathNumber ptrs os = 0 := by
  rw [rdropWhile_eq_nil_iff] at hnil
  induction os with
  | nil => rfl
  | cons o os ih =>
    obtain ⟨ho, hos⟩ := forall_mem_cons.mp hnil
    rw [pathNumber, ih hos, beq_iff_eq.mp ho, zero_mul]

/-- Where nothing of the branch is kept, there is no leaf before its end. -/
lemma follow_of_kept_nil (hos : ∀ o ∈ os, o < ptrs) (hkept : kept m loc o os = []) {x : Nat}
    (hx : x < pathNumber ptrs os) : follow ptrs m.blk os.length (m.read loc o) x = 0 := by
  induction os generalizing loc o x with
  | nil => simp [pathNumber] at hx
  | cons o' os ih =>
    obtain ⟨-, hos⟩ := forall_mem_cons.mp hos
    by_cases hnr : m.read loc o = 0
    · rw [hnr, follow_null]
    · by_cases hpath : (o' :: os).rdropWhile (· == 0) = []
      · simp [pathNumber_of_rdropWhile hpath] at hx
      · rw [kept, tail_getBranch, if_neg hnr, rdropWhile_cons_of_ne_nil hpath,
          rdropWhile_eq_nil_iff] at hkept
        have hzeroes : ∀ i < o', m.blk (m.read loc o) i = 0 := by
          have hhead := hkept ⟨.block (m.read loc o), o', m.read (.block (m.read loc o)) o'⟩
            (mem_of_mem_take (i := 1) (by rw [take_getBranch]; exact mem_singleton_self _))
          simpa [allZeroes, Mem.read] using hhead
        have hbehind : kept m (.block (m.read loc o)) o' os = [] :=
          (rdropWhile_eq_nil_iff ..).mpr fun l hl => hkept l (mem_of_mem_tail hl)
        rw [length_cons, follow, if_neg hnr]
        obtain hlt | heq := split_of_lt (pathNumber_lt hos) hx
        · rw [hzeroes _ hlt, follow_null]
        · rw [heq.1]
          exact ih hos hbehind heq.2

/-- What is kept of an indirect block, by the numbers of the leaves under it. -/
lemma lt_keepTo_iff {h c i y : Nat} (hc : c < ptrs ^ h) (hy : y < ptrs ^ h) :
    y < Trimmed.keepTo ptrs (fun _ => h) o c i ↔ i * ptrs ^ h + y < o * ptrs ^ h + c := by
  rw [Trimmed.keepTo]
  obtain hlt | rfl | hgt := lt_trichotomy i o
  · have hmul : (i + 1) * ptrs ^ h ≤ o * ptrs ^ h := Nat.mul_le_mul_right _ hlt
    rw [Nat.add_one_mul] at hmul
    rw [if_pos hlt]
    omega
  · simp
  · have hmul : (o + 1) * ptrs ^ h ≤ i * ptrs ^ h := Nat.mul_le_mul_right _ hgt
    rw [Nat.add_one_mul] at hmul
    rw [if_neg (by omega), if_neg (by omega)]
    omega

lemma releaseSlot_trimmed {hs : Nat → Nat} (ho : hs o = os.length) (hos : ∀ o ∈ os, o < ptrs)
    (hloc : loc ≠ .nr) (hnodup : (blocks ptrs m.blk os.length (m.read loc o)).Nodup)
    (hfresh : loc.Fresh (blocks ptrs m.blk os.length (m.read loc o)))
    (hkept : kept m loc o os = []) :
    Trimmed ptrs hs loc [o] (fun _ => pathNumber ptrs os) m
      (releaseSlot ptrs os.length loc o m) := by
  rw [← ho] at hnodup hfresh ⊢
  have hrelease : Trimmed ptrs hs loc [o] (fun _ => 0) m (release ptrs hs loc [o] m) :=
    .of_release hloc (nodup_singleton o) (by rwa [allBlocks_singleton])
      (by rwa [allBlocks_singleton])
  refine hrelease.extend fun i hi x hx => ?_
  rw [mem_singleton.mp hi, ho]
  exact follow_of_kept_nil hos hkept hx

/-- Trimming a slot at a path keeps the leaves before the path. -/
lemma cut_trimmed {hs : Nat → Nat} (ho : hs o = os.length) (hos : ∀ o ∈ os, o < ptrs)
    (hloc : loc ≠ .nr) (hnodup : (blocks ptrs m.blk os.length (m.read loc o)).Nodup)
    (hfresh : loc.Fresh (blocks ptrs m.blk os.length (m.read loc o))) :
    Trimmed ptrs hs loc [o] (fun _ => pathNumber ptrs os) m (cut ptrs os loc o m) := by
  induction os generalizing loc o hs with
  | nil => exact releaseSlot_trimmed ho hos hloc hnodup hfresh kept_nil
  | cons o' os ih =>
    rw [cut]
    split_ifs with hkept
    · exact releaseSlot_trimmed ho hos hloc hnodup hfresh hkept
    · have hnr := read_ne_zero_of_kept hkept
      obtain ⟨ho', hos⟩ := forall_mem_cons.mp hos
      rw [length_cons, blocks_eq_allBlocks hnr] at hnodup
      obtain ⟨hchildren, -, hself⟩ := nodup_append'.mp hnodup
      have hfreshBlock : (Loc.block (m.read loc o)).Fresh (allBlocks ptrs (fun _ => os.length)
          (.block (m.read loc o)) (range ptrs) m) :=
        Loc.fresh_block fun hin => hself hin (by simp)
      have hslot : Trimmed ptrs (fun _ => os.length) (.block (m.read loc o)) [o']
          (fun _ => pathNumber ptrs os) m (cut ptrs os (.block (m.read loc o)) o' m) :=
        ih rfl hos (by simp) ((nodup_flatMap.mp hchildren).1 o' (mem_range.mpr ho'))
          (hfreshBlock.mono (blocks_subset (fun _ => os.length) (mem_range.mpr ho')))
      exact (hslot.array ho' (by simp) hchildren hfreshBlock).lift hnr ho hfresh
        fun i _ y hy => lt_keepTo_iff (pathNumber_lt hos) hy

end Path

end R0Kernel.Ext2.Truncate
