import Mathlib

/-!
# Trees of blocks

Trees of block numbers in a store that gives each block its `p` pointers. A pointer of height `0` is
a leaf, one of height `h + 1` names a block of pointers of height `h`, and the pointer `0` names
nothing. `follow` reads a leaf by its number among the `p ^ h` of a pointer; `blocks` are all blocks
of a tree, those inside it (`inds`) and the leaves.
-/

namespace R0Kernel.BlockTree

open List

section Defs

variable (p : Nat) (blk : Nat → Nat → Nat)

def follow : (h nr x : Nat) → Nat
  | 0, nr, _ => nr
  | h + 1, nr, x => if nr = 0 then 0 else follow h (blk nr (x / p ^ h)) (x % p ^ h)

def blocks : (h nr : Nat) → List Nat
  | 0, nr => if nr = 0 then [] else [nr]
  | h + 1, nr =>
    if nr = 0 then [] else (range p).flatMap (fun i => blocks h (blk nr i)) ++ [nr]

def inds : (h nr : Nat) → List Nat
  | 0, _ => []
  | h + 1, nr => if nr = 0 then [] else (range p).flatMap (fun i => inds h (blk nr i)) ++ [nr]

end Defs

variable {p : Nat} {blk blk' : Nat → Nat → Nat} {h nr b x : Nat}

@[simp]
lemma follow_null (h x : Nat) : follow p blk h 0 x = 0 := by
  cases h <;> rfl

@[simp]
lemma blocks_null (h : Nat) : blocks p blk h 0 = [] := by
  cases h <;> rfl

@[simp]
lemma inds_null (h : Nat) : inds p blk h 0 = [] := by
  cases h <;> rfl

lemma follow_succ (hnr : nr ≠ 0) {i y : Nat} (hy : y < p ^ h) :
    follow p blk (h + 1) nr (i * p ^ h + y) = follow p blk h (blk nr i) y := by
  have hdiv : (i * p ^ h + y) / p ^ h = i := by
    rw [add_comm, Nat.add_mul_div_right _ _ (by omega), Nat.div_eq_of_lt hy, zero_add]
  have hmod : (i * p ^ h + y) % p ^ h = y := by
    rw [add_comm, Nat.add_mul_mod_self_right, Nat.mod_eq_of_lt hy]
  rw [follow, if_neg hnr, hdiv, hmod]

lemma blocks_succ (hnr : nr ≠ 0) : blocks p blk (h + 1) nr =
    (range p).flatMap (fun i => blocks p blk h (blk nr i)) ++ [nr] := if_neg hnr

lemma inds_succ (hnr : nr ≠ 0) : inds p blk (h + 1) nr =
    (range p).flatMap (fun i => inds p blk h (blk nr i)) ++ [nr] := if_neg hnr

lemma lt_pow_succ (hx : x < p ^ (h + 1)) : x / p ^ h < p ∧ x % p ^ h < p ^ h := by
  have hpos : 0 < p ^ h := by
    rcases Nat.eq_zero_or_pos (p ^ h) with heq | hpos
    · rw [Nat.pow_succ, heq] at hx
      omega
    · exact hpos
  refine ⟨?_, Nat.mod_lt _ hpos⟩
  rw [Nat.div_lt_iff_lt_mul hpos, mul_comm]
  exact hx

lemma inds_subset_blocks (h nr : Nat) : inds p blk h nr ⊆ blocks p blk h nr := by
  induction h generalizing nr with
  | zero => simp [inds]
  | succ h ih =>
    by_cases hnr : nr = 0
    · simp [hnr]
    · rw [inds_succ hnr, blocks_succ hnr]
      intro b hb
      simp only [mem_append, mem_flatMap] at hb ⊢
      obtain ⟨i, hi, hb⟩ | hb := hb
      · exact .inl ⟨i, hi, ih _ hb⟩
      · exact .inr hb

lemma follow_mem_blocks (hx : x < p ^ h) (hne : follow p blk h nr x ≠ 0) :
    follow p blk h nr x ∈ blocks p blk h nr := by
  induction h generalizing nr x with
  | zero => simpa [follow, blocks] using hne
  | succ h ih =>
    by_cases hnr : nr = 0
    · simp [hnr] at hne
    · obtain ⟨hdiv, hmod⟩ := lt_pow_succ hx
      rw [follow, if_neg hnr] at hne ⊢
      rw [blocks_succ hnr]
      exact mem_append_left _
        (mem_flatMap.mpr ⟨_, mem_range.mpr hdiv, ih hmod hne⟩)

lemma mem_blocks (hb : b ∈ blocks p blk h nr) :
    b ∈ inds p blk h nr ∨ ∃ x < p ^ h, follow p blk h nr x = b ∧ b ≠ 0 := by
  induction h generalizing nr with
  | zero =>
    by_cases hnr : nr = 0
    · simp [hnr] at hb
    · simp only [blocks, if_neg hnr, mem_singleton] at hb
      exact .inr ⟨0, by simp, hb.symm, hb ▸ hnr⟩
  | succ h ih =>
    by_cases hnr : nr = 0
    · simp [hnr] at hb
    · simp only [blocks_succ hnr, mem_append, mem_flatMap, mem_range] at hb
      simp only [inds_succ hnr, mem_append, mem_flatMap, mem_range]
      obtain ⟨i, hi, hb⟩ | hb := hb
      · obtain hin | ⟨y, hy, hfollow, hne⟩ := ih hb
        · exact .inl (.inl ⟨i, hi, hin⟩)
        · refine .inr ⟨i * p ^ h + y, ?_, ?_, hne⟩
          · calc i * p ^ h + y < (i + 1) * p ^ h := by rw [Nat.add_one_mul]; omega
              _ ≤ p * p ^ h := Nat.mul_le_mul_right _ hi
              _ = p ^ (h + 1) := by rw [Nat.pow_succ, mul_comm]
          · rw [follow_succ hnr hy, hfollow]
      · exact .inl (.inr hb)

/-! ### Blocks that are referenced once -/

/-- In trees without a common block, a block says which tree it is in. -/
lemma slot_eq_of_mem {slots : List Nat} {hs vs : Nat → Nat} {i j : Nat}
    (hnodup : (slots.flatMap fun i => blocks p blk (hs i) (vs i)).Nodup) (hi : i ∈ slots)
    (hj : j ∈ slots) (hbi : b ∈ blocks p blk (hs i) (vs i)) (hbj : b ∈ blocks p blk (hs j) (vs j)) :
    i = j := by
  by_contra hne
  have : Std.Symm (Function.onFun Disjoint fun i => blocks p blk (hs i) (vs i)) :=
    ⟨fun _ _ h _ hb hb' => h hb' hb⟩
  exact (nodup_flatMap.mp hnodup).2.forall hi hj hne hbi hbj

lemma leaf_inj {y : Nat} (hnodup : (blocks p blk h nr).Nodup) (hx : x < p ^ h) (hy : y < p ^ h)
    (hne : follow p blk h nr x ≠ 0) (heq : follow p blk h nr x = follow p blk h nr y) : x = y := by
  induction h generalizing nr x y with
  | zero =>
    simp only [pow_zero, Nat.lt_one_iff] at hx hy
    rw [hx, hy]
  | succ h ih =>
    by_cases hnr : nr = 0
    · simp [hnr] at hne
    · obtain ⟨hdivx, hmodx⟩ := lt_pow_succ hx
      obtain ⟨hdivy, hmody⟩ := lt_pow_succ hy
      rw [follow, if_neg hnr] at hne heq
      rw [follow, if_neg hnr] at heq
      rw [blocks_succ hnr] at hnodup
      have hchildren := (nodup_append'.mp hnodup).1
      have hslot : x / p ^ h = y / p ^ h :=
        slot_eq_of_mem hchildren (mem_range.mpr hdivx) (mem_range.mpr hdivy)
          (follow_mem_blocks hmodx hne) (heq ▸ follow_mem_blocks hmody (heq ▸ hne))
      have hrest : x % p ^ h = y % p ^ h :=
        ih ((nodup_flatMap.mp hchildren).1 _ (mem_range.mpr hdivx)) hmodx hmody hne
          (hslot ▸ heq)
      rw [← Nat.div_add_mod' x (p ^ h), ← Nat.div_add_mod' y (p ^ h), hslot, hrest]

lemma leaf_not_mem_inds (hnodup : (blocks p blk h nr).Nodup) (hx : x < p ^ h)
    (hne : follow p blk h nr x ≠ 0) : follow p blk h nr x ∉ inds p blk h nr := by
  induction h generalizing nr x with
  | zero => simp [inds]
  | succ h ih =>
    by_cases hnr : nr = 0
    · simp [hnr]
    · obtain ⟨hdiv, hmod⟩ := lt_pow_succ hx
      rw [follow, if_neg hnr] at hne ⊢
      rw [blocks_succ hnr] at hnodup
      obtain ⟨hchildren, -, hself⟩ := nodup_append'.mp hnodup
      have hleaf := follow_mem_blocks hmod hne
      rw [inds_succ hnr, mem_append, mem_flatMap, mem_singleton]
      rintro (⟨i, hi, hin⟩ | heq)
      · have hslot := slot_eq_of_mem hchildren (mem_range.mpr hdiv) hi hleaf
          (inds_subset_blocks _ _ hin)
        rw [← hslot] at hin
        exact ih ((nodup_flatMap.mp hchildren).1 _ (mem_range.mpr hdiv)) hmod hne hin
      · refine hself (mem_flatMap.mpr ⟨_, mem_range.mpr hdiv, hleaf⟩) ?_
        rw [heq, mem_singleton]

/-! ### A store that is changed elsewhere -/

lemma agree_child (hnr : nr ≠ 0) (hagree : ∀ b ∈ inds p blk (h + 1) nr, blk' b = blk b) :
    blk' nr = blk nr ∧ ∀ i < p, ∀ b ∈ inds p blk h (blk nr i), blk' b = blk b := by
  rw [inds_succ hnr] at hagree
  refine ⟨hagree nr (by simp), fun i hi b hb => hagree b ?_⟩
  exact mem_append_left _ (mem_flatMap.mpr ⟨i, mem_range.mpr hi, hb⟩)

section

variable (hagree : ∀ b ∈ inds p blk h nr, blk' b = blk b)

include hagree

lemma blocks_congr :
    blocks p blk' h nr = blocks p blk h nr := by
  induction h generalizing nr with
  | zero => rfl
  | succ h ih =>
    by_cases hnr : nr = 0
    · simp [hnr]
    · obtain ⟨hself, hchild⟩ := agree_child hnr hagree
      rw [blocks_succ hnr, blocks_succ hnr, hself]
      congr 1
      exact flatMap_congr fun i hi => ih (hchild i (mem_range.mp hi))

lemma inds_congr :
    inds p blk' h nr = inds p blk h nr := by
  induction h generalizing nr with
  | zero => rfl
  | succ h ih =>
    by_cases hnr : nr = 0
    · simp [hnr]
    · obtain ⟨hself, hchild⟩ := agree_child hnr hagree
      rw [inds_succ hnr, inds_succ hnr, hself]
      congr 1
      exact flatMap_congr fun i hi => ih (hchild i (mem_range.mp hi))

lemma follow_congr (hx : x < p ^ h) :
    follow p blk' h nr x = follow p blk h nr x := by
  induction h generalizing nr x with
  | zero => rfl
  | succ h ih =>
    by_cases hnr : nr = 0
    · simp [hnr]
    · obtain ⟨hself, hchild⟩ := agree_child hnr hagree
      obtain ⟨hdiv, hmod⟩ := lt_pow_succ hx
      rw [follow, follow, if_neg hnr, if_neg hnr, hself]
      exact ih (hchild _ hdiv) hmod

end

end R0Kernel.BlockTree
