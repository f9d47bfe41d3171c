import R0Kernel.Fs.Ext2.Balloc

/-!
# Block accounting

What allocating and freeing do to the bitmaps and to the free counts, and that freeing undoes
allocating. A run of blocks that is freed may go over several groups.
-/

namespace R0Kernel.Ext2

open BitRun Outcome Function Finset Sb

/-- The free counts match the bitmaps, and their sum is the count of the filesystem. -/
structure Fs.Consistent (sb : Sb) (fs : Fs) : Prop extends fs.Counted sb where
  total : fs.freeBlocksCounter = ∑ g ∈ range sb.groupsCount, (fs.freeBlocksCount g : Int)

/-- The bit `i` of the group `g` stands for one of the `n` blocks from `b` on. -/
def Sb.InRun (sb : Sb) (b n g i : Nat) : Prop :=
  i < sb.blocksPerGroup ∧ b ≤ sb.firstDataBlock + g * sb.blocksPerGroup + i ∧
    sb.firstDataBlock + g * sb.blocksPerGroup + i < b + n

instance (sb : Sb) (b n g i : Nat) : Decidable (sb.InRun b n g i) := by
  unfold Sb.InRun
  infer_instance

/-- The bitmaps without a run of blocks. -/
def Sb.cleared (sb : Sb) (bitmap : Nat → Bits) (b n : Nat) : Nat → Bits :=
  fun g i => if sb.InRun b n g i then false else bitmap g i

/-! ### A run inside a group -/

section Run

variable {sb : Sb} {b n g i bit : Nat} (bitmap : Nat → Bits)

lemma Sb.block_eq (h : sb.firstDataBlock ≤ b) :
    sb.firstDataBlock + sb.groupNo b * sb.blocksPerGroup + sb.bitNo b = b := by
  have := Nat.div_add_mod' (b - sb.firstDataBlock) sb.blocksPerGroup
  simp only [groupNo, bitNo]
  omega

/-- A run that ends inside its group has bits in no other. -/
lemma Sb.inRun_iff (hend : bit + n ≤ sb.blocksPerGroup) {g' : Nat} :
    sb.InRun (sb.firstDataBlock + g * sb.blocksPerGroup + bit) n g' i ↔
      g' = g ∧ bit ≤ i ∧ i < bit + n := by
  constructor
  · rintro ⟨hi, hlo, hhi⟩
    have hg : g' = g := by
      rcases lt_trichotomy g' g with hlt | heq | hgt
      · have := Nat.mul_le_mul_right sb.blocksPerGroup (Nat.succ_le_of_lt hlt)
        rw [Nat.succ_mul] at this
        omega
      · exact heq
      · have := Nat.mul_le_mul_right sb.blocksPerGroup (Nat.succ_le_of_lt hgt)
        rw [Nat.succ_mul] at this
        omega
    subst hg
    exact ⟨rfl, by omega, by omega⟩
  · rintro ⟨rfl, hlo, hhi⟩
    exact ⟨by omega, by omega, by omega⟩

lemma Sb.cleared_eq_update (hend : bit + n ≤ sb.blocksPerGroup) :
    sb.cleared bitmap (sb.firstDataBlock + g * sb.blocksPerGroup + bit) n =
      update bitmap g (fill false (bitmap g) bit n) := by
  funext g' i
  simp only [cleared, inRun_iff hend, update_apply]
  by_cases hg : g' = g
  · subst hg
    simp [fill]
  · simp [hg]

lemma Sb.cleared_cleared (m : Nat) :
    sb.cleared (sb.cleared bitmap b n) (b + n) m = sb.cleared bitmap b (n + m) := by
  funext g i
  have hparts : sb.InRun b (n + m) g i ↔ sb.InRun (b + n) m g i ∨ sb.InRun b n g i := by
    simp only [Sb.InRun]
    omega
  by_cases hlater : sb.InRun (b + n) m g i
  · simp [cleared, hparts, hlater]
  · simp [cleared, hparts, hlater]

end Run

/-! ### The counts -/

lemma sum_update (f : Nat → Nat) {n g : Nat} (hg : g < n) (v : Nat) :
    ∑ i ∈ range n, (update f g v i : Int) =
      ∑ i ∈ range n, (f i : Int) - f g + v := by
  have hmem := mem_range.mpr hg
  rw [← add_sum_erase _ _ hmem, ← add_sum_erase (range n) _ hmem,
    update_self]
  have hrest : ∑ i ∈ (range n).erase g, (update f g v i : Int) =
      ∑ i ∈ (range n).erase g, (f i : Int) :=
    sum_congr rfl fun i hi => by rw [update_of_ne (ne_of_mem_erase hi)]
  omega

section Counts

variable {sb : Sb} {env : Env} {fs : Fs}

/-- A change of one bitmap and of its count, by as much. -/
lemma Fs.Counted.change (h : fs.Counted sb) {g : Nat} (hg : g < sb.groupsCount) (fs' : Fs)
    {bm : Bits} {change : Int} (hbitmap : fs'.bitmap = update fs.bitmap g bm)
    (hsame : fs'.freeBlocksCount = fs.freeBlocksCount)
    (hzeros : (zeros bm sb.blocksPerGroup : Int) = fs.freeBlocksCount g + change)
    (hpadding : ∀ i < sb.blocksPerGroup,
      sb.blocksCount ≤ sb.firstDataBlock + g * sb.blocksPerGroup + i → bm i = true) :
    (fs'.groupAdjust g change).Counted sb ∧
      ∑ g' ∈ range sb.groupsCount, ((fs'.groupAdjust g change).freeBlocksCount g' : Int) =
        ∑ g ∈ range sb.groupsCount, (fs.freeBlocksCount g : Int) + change := by
  have hle := (zeros_le bm sb.blocksPerGroup).trans sb.blocksPerGroup_le
  -- no overflow of the sixteen bits
  have hcount : ((fs.freeBlocksCount g + change) % 2 ^ 16).toNat = zeros bm sb.blocksPerGroup := by
    omega
  refine ⟨⟨fun g' hg' => ?_, fun g' hg' i hi hpad => ?_⟩, ?_⟩
  · by_cases heq : g' = g
    · subst heq
      simp only [Fs.groupAdjust, hbitmap, hsame, update_self]
      exact hcount
    · simp only [Fs.groupAdjust, hbitmap, hsame, update_of_ne heq]
      exact h.counts g' hg'
  · by_cases heq : g' = g
    · subst heq
      simp only [Fs.groupAdjust, hbitmap, update_self]
      exact hpadding i hi hpad
    · simp only [Fs.groupAdjust, hbitmap, update_of_ne heq]
      exact h.padding g' hg' i hi hpad
  · simp only [Fs.groupAdjust, hsame, sum_update _ hg, hcount]
    omega

/-! ### Freeing -/

lemma clearBits_eq {n i : Nat} {bm : Bits} (h : ∀ j, i ≤ j → j < i + n → bm j = true) :
    clearBits n bm i = (fill false bm i n, n) := by
  induction n generalizing bm i with
  | zero => simp [clearBits]
  | succ n ih =>
    have hrest : ∀ j, i + 1 ≤ j → j < i + 1 + n → update bm i false j = true := by
      intro j hlo hhi
      rw [update_of_ne (by omega)]
      exact h j (by omega) (by omega)
    simp [clearBits, ih hrest, fill_succ, h i le_rfl (by omega)]

/-- The `n` blocks from `b` on are freed, and the free counts have risen by as much. -/
structure Freed (sb : Sb) (fs : Fs) (b n : Nat) (p : Fs × Nat) : Prop where
  freed : p.2 = n
  bitmap : p.1.bitmap = sb.cleared fs.bitmap b n
  counted : p.1.Counted sb
  counter : p.1.freeBlocksCounter = fs.freeBlocksCounter
  total : ∑ g ∈ range sb.groupsCount, (p.1.freeBlocksCount g : Int) =
    ∑ g ∈ range sb.groupsCount, (fs.freeBlocksCount g : Int) + n

lemma Freed.trans {b n m : Nat} {p q : Fs × Nat} (h : Freed sb fs b n p)
    (h' : Freed sb p.1 (b + n) m q) : Freed sb fs b (n + m) (q.1, p.2 + q.2) where
  freed := by rw [h.freed, h'.freed]
  bitmap := by rw [h'.bitmap, h.bitmap, cleared_cleared]
  counted := h'.counted
  counter := h'.counter.trans h.counter
  total := by
    rw [h'.total, h.total]
    omega

lemma freed_group (hc : fs.Counted sb) {b n : Nat} (hlo : sb.firstDataBlock ≤ b)
    (hhi : b + n ≤ sb.blocksCount) (hg : sb.groupNo b < sb.groupsCount)
    (hend : sb.bitNo b + n ≤ sb.blocksPerGroup)
    (hset : ∀ g i, sb.InRun b n g i → fs.bitmap g i = true) :
    clearBits n (fs.bitmap (sb.groupNo b)) (sb.bitNo b) =
        (fill false (fs.bitmap (sb.groupNo b)) (sb.bitNo b) n, n) ∧
      Freed sb fs b n ({ fs with
        bitmap := update fs.bitmap (sb.groupNo b)
          (fill false (fs.bitmap (sb.groupNo b)) (sb.bitNo b) n) }.groupAdjust (sb.groupNo b) n,
            n) := by
  have hblock := block_eq hlo
  have hset' : ∀ i, sb.bitNo b ≤ i → i < sb.bitNo b + n → fs.bitmap (sb.groupNo b) i = true := by
    intro i hi hi'
    have hin : sb.InRun (sb.firstDataBlock + sb.groupNo b * sb.blocksPerGroup + sb.bitNo b) n
        (sb.groupNo b) i := (inRun_iff hend).mpr ⟨rfl, hi, hi'⟩
    rw [hblock] at hin
    exact hset _ i hin
  have hzeros := zeros_fill_false hend hset'
  rw [← hc.counts _ hg] at hzeros
  have hpadding : ∀ i < sb.blocksPerGroup, sb.blocksCount ≤
      sb.firstDataBlock + sb.groupNo b * sb.blocksPerGroup + i →
      fill false (fs.bitmap (sb.groupNo b)) (sb.bitNo b) n i = true := by
    intro i hi hpad
    rw [fill_of_not_mem (by omega)]
    exact hc.padding _ hg i hi hpad
  have hrise :
      (zeros (fill false (fs.bitmap (sb.groupNo b)) (sb.bitNo b) n) sb.blocksPerGroup : Int) =
      fs.freeBlocksCount (sb.groupNo b) + n := by
    rw [hzeros]
    rfl
  obtain ⟨hcounted, htotal⟩ := hc.change hg { fs with bitmap := _ } rfl rfl hrise hpadding
  refine ⟨clearBits_eq hset', rfl, ?_, hcounted, rfl, htotal⟩
  have hcleared := cleared_eq_update (g := sb.groupNo b) fs.bitmap hend
  rw [hblock] at hcleared
  exact hcleared.symm

section

variable (hread : ∀ g, env.bread g = true)

include hread

lemma freeRun_spec {b n : Nat} (hc : fs.Counted sb) (hlo : sb.firstDataBlock ≤ b)
    (hhi : b + n ≤ sb.blocksCount) (hpos : 0 < n)
    (hset : ∀ g i, sb.InRun b n g i → fs.bitmap g i = true) :
    Freed sb fs b n (freeRun sb env b n fs) := by
  induction n using Nat.strong_induction_on generalizing b fs with
  | _ n ih =>
    have hbit : sb.bitNo b < sb.blocksPerGroup := Nat.mod_lt _ sb.blocksPerGroup_pos
    have hg : sb.groupNo b < sb.groupsCount := groupNo_lt ⟨hlo, by omega⟩
    obtain ⟨m, hm⟩ : ∃ m, m = n - (sb.bitNo b + n - sb.blocksPerGroup) := ⟨_, rfl⟩
    obtain ⟨hclear, hfreed⟩ := freed_group hc hlo (n := m) (by omega) hg (by omega)
      (fun g i h => hset g i ⟨h.1, h.2.1, by have := h.2.2; omega⟩)
    rw [freeRun, if_neg (by rw [hread]; simp; omega)]
    simp only [← hm, hclear]
    split
    · next hone =>
      have hmn : m = n := by omega
      exact hmn ▸ hfreed
    · next hmore =>
      -- the rest of the run, in the groups after this one
      have hrest := ih (sb.bitNo b + n - sb.blocksPerGroup) (by omega) (b := b + m) hfreed.counted
        (by omega) (by omega) (by omega) (fun g i h => by
          have hnot : ¬ sb.InRun b m g i := fun h' => by have := h.2.1; have := h'.2.2; omega
          rw [hfreed.bitmap, cleared, if_neg hnot]
          exact hset g i ⟨h.1, by have := h.2.1; omega, by have := h.2.2; omega⟩)
      have hall := hfreed.trans hrest
      rwa [show m + (sb.bitNo b + n - sb.blocksPerGroup) = n by omega] at hall

/-- An empty run may start behind the last group. -/
lemma freeRun_zero {b : Nat} (hc : fs.Counted sb) (hlo : sb.firstDataBlock ≤ b)
    (hhi : b + 0 ≤ sb.blocksCount) :
    Freed sb fs b 0 (freeRun sb env b 0 fs) := by
  have hbit : sb.bitNo b < sb.blocksPerGroup := Nat.mod_lt _ sb.blocksPerGroup_pos
  have hnone (g i : Nat) : ¬ sb.InRun b 0 g i := fun h => by have := h.2.1; have := h.2.2; omega
  rw [freeRun]
  by_cases hg : sb.groupNo b < sb.groupsCount
  · obtain ⟨hclear, hfreed⟩ := freed_group hc hlo hhi hg (by omega)
      fun g i h => absurd h (hnone g i)
    rw [if_neg (by rw [hread]; simp; omega)]
    simp only [Nat.zero_sub, hclear]
    rw [if_pos (by omega)]
    exact hfreed
  · rw [if_pos (.inl (by omega))]
    exact ⟨rfl, by funext g i; simp [cleared, hnone], hc, rfl, by simp⟩

lemma freeBlocks_spec {b n : Nat} (hc : fs.Consistent sb) (hlo : sb.firstDataBlock ≤ b)
    (hhi : b + n ≤ sb.blocksCount) (hset : ∀ g i, sb.InRun b n g i → fs.bitmap g i = true) :
    (freeBlocks sb env b n fs).bitmap = sb.cleared fs.bitmap b n ∧
      (freeBlocks sb env b n fs).Consistent sb := by
  have hlt := sb.blocksCount_lt
  have hwrap : u32 (b + n) = b + n := Nat.mod_eq_of_lt (by omega)
  have hfreed : Freed sb fs b n (freeRun sb env b n fs) := by
    obtain rfl | hpos := Nat.eq_zero_or_pos n
    · exact freeRun_zero hread hc.toCounted hlo hhi
    · exact freeRun_spec hread hc.toCounted hlo hhi hpos hset
  rw [freeBlocks, if_neg (by omega)]
  generalize freeRun sb env b n fs = p at hfreed
  obtain ⟨rfl, hbitmap, hcounted, hcounter, htotal⟩ := hfreed
  refine ⟨hbitmap, ⟨⟨hcounted.counts, hcounted.padding⟩, ?_⟩⟩
  dsimp only at hcounter htotal ⊢
  rw [hcounter, hc.total, htotal]

end

/-! ### Allocating -/

/-- The filesystem that a call with blocks returns. -/
lemma Fs.Claims.consistent {fs' : Fs} {g blk num : Nat} (hc : fs.Consistent sb)
    (hg : g < sb.groupsCount) (h : fs.Claims sb g blk num fs') :
    fs'.bitmap = update fs.bitmap g (fill true (fs.bitmap g) blk num) ∧
      Fs.Consistent sb
        { fs'.groupAdjust g (-num) with freeBlocksCounter := fs'.freeBlocksCounter - num } := by
  obtain ⟨-, hinside, hfree, heq⟩ := h.claimed
  have hbitmap : fs'.bitmap = update fs.bitmap g (fill true (fs.bitmap g) blk num) := by
    funext g'
    by_cases hne : g' = g
    · rw [hne, update_self, heq]
    · rw [update_of_ne hne, h.other g' hne]
  have hzeros := zeros_fill hinside hfree
  rw [← hc.counts g hg] at hzeros
  have hfall : (zeros (fill true (fs.bitmap g) blk num) sb.blocksPerGroup : Int) =
      fs.freeBlocksCount g + -num := by
    omega
  have hpadding : ∀ i < sb.blocksPerGroup, sb.blocksCount ≤
      sb.firstDataBlock + g * sb.blocksPerGroup + i → fill true (fs.bitmap g) blk num i = true := by
    intro i hi hpad
    by_cases hrun : blk ≤ i ∧ i < blk + num
    · exact fill_of_mem hrun
    · rw [fill_of_not_mem hrun]
      exact hc.padding g hg i hi hpad
  obtain ⟨hcounted, htotal⟩ := hc.toCounted.change hg fs' hbitmap h.freeBlocksCount hfall hpadding
  refine ⟨hbitmap, ⟨⟨hcounted.counts, hcounted.padding⟩, ?_⟩⟩
  rw [htotal, h.freeBlocksCounter, hc.total]
  rfl

end Counts

/-- What a call that returns has done. -/
structure Accounted (sb : Sb) (env : Env) (fs : Fs) (count : Nat) (r : NewBlocks) : Prop where
  allocated : r.block ≠ 0 → 1 ≤ r.count ∧ r.count ≤ count ∧ r.fs.Consistent sb ∧
    ∃ g < sb.groupsCount, ∃ bit, r.block = sb.firstDataBlock + g * sb.blocksPerGroup + bit ∧
      bit + r.count ≤ sb.blocksPerGroup ∧
      (∀ i, bit ≤ i → i < bit + r.count → fs.bitmap g i = false) ∧
      r.fs.bitmap = update fs.bitmap g (fill true (fs.bitmap g) bit r.count)
  refused : r.block = 0 → fs.Same r.fs
  undone : r.block ≠ 0 → (∀ g, env.bread g = true) →
    (freeBlocks sb env r.block r.count r.fs).bitmap = fs.bitmap ∧
      (∀ g < sb.groupsCount,
        (freeBlocks sb env r.block r.count r.fs).freeBlocksCount g = fs.freeBlocksCount g) ∧
      (freeBlocks sb env r.block r.count r.fs).freeBlocksCounter = fs.freeBlocksCounter

/-- Two consistent filesystems with the same bitmaps have the same counts. -/
lemma Fs.Consistent.counts_eq {sb : Sb} {fs fs' : Fs} (h : fs.Consistent sb)
    (h' : fs'.Consistent sb) (hbitmap : fs'.bitmap = fs.bitmap) :
    (∀ g < sb.groupsCount, fs'.freeBlocksCount g = fs.freeBlocksCount g) ∧
      fs'.freeBlocksCounter = fs.freeBlocksCounter := by
  have hcounts : ∀ g < sb.groupsCount, fs'.freeBlocksCount g = fs.freeBlocksCount g := by
    intro g hg
    rw [h.counts g hg, h'.counts g hg, hbitmap]
  refine ⟨hcounts, ?_⟩
  rw [h.total, h'.total]
  exact sum_congr rfl fun g hg => by rw [hcounts g (mem_range.mp hg)]

lemma accounted_claimed {sb : Sb} {env : Env} {fs fs' : Fs} {g blk num count : Nat}
    (hc : fs.Consistent sb) (hcount : 1 ≤ count)
    (hzero : sb.firstDataBlock = 0 → fs.bitmap 0 0 = true) (hg : g < sb.groupsCount)
    (h : fs.Claims sb g blk num fs') (hnum : num ≤ max count 1) :
    Accounted sb env fs count (finish sb count g blk num fs') := by
  obtain ⟨hbitmap, hconsistent⟩ := h.consistent hc hg
  obtain ⟨hpos, hinside, hfree, -⟩ := h.claimed
  rw [finish_eq count hc.toCounted hg h]
  refine ⟨fun _ => ⟨hpos, hnum.trans (max_le le_rfl hcount), hconsistent, g, hg, blk, rfl, hinside,
    hfree, hbitmap⟩, fun hblock => ?_, fun _ hread => ?_⟩
  · -- block zero is not free
    dsimp only at hblock
    have hg0 : g = 0 := by
      rcases Nat.eq_zero_or_pos g with heq | hpos'
      · exact heq
      · have := Nat.mul_pos hpos' sb.blocksPerGroup_pos
        omega
    subst hg0
    have hclear := hfree blk le_rfl (by omega)
    rw [show blk = 0 by omega, hzero (by omega)] at hclear
    cases hclear
  · have hset : ∀ g' i, sb.InRun (sb.firstDataBlock + g * sb.blocksPerGroup + blk) num g' i →
        fs'.bitmap g' i = true := by
      intro g' i hin
      obtain ⟨rfl, hrun⟩ := (inRun_iff hinside).mp hin
      rw [hbitmap, update_self, fill_of_mem hrun]
    obtain ⟨hfreed, hconsistent'⟩ := freeBlocks_spec hread hconsistent (by omega)
      (h.end_le hc.toCounted hg) hset
    have hback : (freeBlocks sb env (sb.firstDataBlock + g * sb.blocksPerGroup + blk) num
        { fs'.groupAdjust g (-num) with freeBlocksCounter := fs'.freeBlocksCounter - num }).bitmap =
        fs.bitmap := by
      rw [hfreed, cleared_eq_update _ hinside]
      simp [Fs.groupAdjust, hbitmap, fill_back hfree]
    exact ⟨hback, hc.counts_eq hconsistent' hback⟩

/-- Every call of `ext2_new_blocks` that returns is accounted for, and `ext2_free_blocks` clears
exactly the run it is given, as long as block zero is in use where it is a data block. -/
theorem ext2_block_accounting (bal : Balance) (sb : Sb) (env : Env) (fs : Fs)
    (hc : fs.Consistent sb) (hzero : sb.firstDataBlock = 0 → fs.bitmap 0 0 = true) :
    (∀ blockI goal count fuel r, 1 ≤ count →
      newBlocks bal sb env fuel blockI goal count fs = .ok r → Accounted sb env fs count r) ∧
    ((∀ g, env.bread g = true) → ∀ b n, sb.firstDataBlock ≤ b → b + n ≤ sb.blocksCount →
      (∀ g i, sb.InRun b n g i → fs.bitmap g i = true) →
      (freeBlocks sb env b n fs).bitmap = sb.cleared fs.bitmap b n ∧
        (freeBlocks sb env b n fs).Consistent sb) := by
  refine ⟨fun blockI goal count fuel r hcount hr => ?_,
    fun hread b n hlo hhi hset => freeBlocks_spec hread hc hlo hhi hset⟩
  have hreturned := newBlocks_returned hc.toCounted r hr
  cases hreturned with
  | claimed hg hclaims hnum => exact accounted_claimed hc hcount hzero hg hclaims hnum
  | refused hsame _ _ =>
    exact ⟨fun h => absurd rfl h, fun _ => hsame, fun h => absurd rfl h⟩

theorem ext2_block_accounting_one_free :
    ∃ r, newBlocks listBalance twoGroups unlimited 0 none 1 1 (oneFree 1 3) = .ok r ∧
      r.block = 12 ∧ Accounted twoGroups unlimited (oneFree 1 3) 1 r :=
  ⟨_, rfl, rfl, (ext2_block_accounting listBalance twoGroups unlimited (oneFree 1 3)
    ⟨⟨by decide, by decide⟩, by decide⟩ (fun h => absurd h (by decide))).1 none 1 1 0 _ le_rfl rfl⟩

/-- One group, with blocks of more than a kilobyte: its first block is block zero. -/
def fromZero : Sb where
  firstDataBlock := 0
  blocksCount := 8
  blocksPerGroup := 8
  first_lt := twoGroups.blocksPerGroup_pos
  blocksCount_lt := by decide
  blocksPerGroup_pos := twoGroups.blocksPerGroup_pos
  blocksPerGroup_le := twoGroups.blocksPerGroup_le

/-- Where the bitmap has block zero free, it is allocated like any other, and the call returns the
zero that stands for a failure. A block whose bitmap cannot be read stays in use when it is
freed. -/
theorem ext2_block_zero_or_unreadable :
    (oneFree 0 0).Consistent fromZero ∧ (oneFree 0 0).bitmap 0 0 = false ∧
      (∃ r, newBlocks listBalance fromZero unlimited 0 none 0 1 (oneFree 0 0) = .ok r ∧
        r.block = 0 ∧ r.fs.bitmap 0 0 = true) ∧
      (oneFree 0 0).bitmap 0 1 = true ∧
      (freeBlocks fromZero { unlimited with bread := fun _ => false } 1 1 (oneFree 0 0)).bitmap
        0 1 = true :=
  ⟨⟨⟨by decide, by decide⟩, by decide⟩, rfl, ⟨_, rfl, rfl, rfl⟩, rfl,
    by decide +kernel⟩

end R0Kernel.Ext2
