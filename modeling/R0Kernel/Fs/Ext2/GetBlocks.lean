import R0Kernel.Fs.Ext2.Accounting
import R0Kernel.Fs.Ext2.Exact

/-!
# Mapping the blocks of a file

`ext2_get_blocks` with `create`, in its two parts: the reading of the chain of pointers to a block,
and the section under `truncate_mutex` that allocates what the chain lacks and links it. Buffers,
goals and reservations are left to the allocator.
-/

namespace R0Kernel.Ext2.GetBlocks

open List

open Truncate (Loc Mem NDIR_BLOCKS N_BLOCKS addrPerBlock and_bits base base_direct blockToPath
  height pathNumber pathNumber_lt)

/-! ### Pointers -/

/-- Where pointers are: in the inode or in an indirect block. -/
inductive Holder where
  | inode
  | block (b : Nat)
  deriving DecidableEq

abbrev Pointers := Holder → Nat → Nat

def Pointers.setRun (m : Pointers) (h : Holder) (slot first n : Nat) : Pointers := fun h' x =>
  if h' = h ∧ slot ≤ x ∧ x < slot + n then first + (x - slot) else m h' x

def Pointers.clear (m : Pointers) (b : Nat) : Pointers := fun h x =>
  if h = .block b then 0 else m h x

/-- The pointers of an inode, and the blocks that are in use. -/
structure File where
  mem : Pointers
  used : Finset Nat

/-! ### The chain -/

/-- `boundary` of `ext2_block_to_path` -/
def blocksToBoundary (bits iBlock : Nat) : Nat :=
  let ptrs := addrPerBlock bits
  if iBlock < NDIR_BLOCKS then NDIR_BLOCKS - 1 - (iBlock &&& (ptrs - 1))
  else
    let iBlock := iBlock - NDIR_BLOCKS
    if iBlock < ptrs then ptrs - 1 - (iBlock &&& (ptrs - 1))
    else
      let iBlock := iBlock - ptrs
      if iBlock < 1 <<< (bits * 2) then ptrs - 1 - (iBlock &&& (ptrs - 1))
      else ptrs - 1 - ((iBlock - 1 <<< (bits * 2)) &&& (ptrs - 1))

/-- The pointer at which a chain ends, and the offsets behind it. -/
structure ChainEnd where
  holder : Holder
  slot : Nat
  rest : List Nat
  deriving DecidableEq

/-- `ext2_get_branch`, given the blocks that can be read: the chain is complete if the pointer at
its end is not zero. -/
def getBranch (bread : Nat → Bool) (m : Pointers) :
    Holder → (slot : Nat) → (rest : List Nat) → Option ChainEnd
  | h, slot, [] => some ⟨h, slot, []⟩
  | h, slot, o :: rest =>
    if m h slot = 0 then some ⟨h, slot, o :: rest⟩
    else if bread (m h slot) then getBranch bread m (.block (m h slot)) o rest
    else none

/-- The loops that count blocks in a row. -/
def runLength (fits : Nat → Bool) (maxblocks boundary : Nat) : (rounds count : Nat) → Nat
  | 0, count => count
  | rounds + 1, count =>
    if count < maxblocks ∧ count ≤ boundary ∧ fits count then
      runLength fits maxblocks boundary rounds (count + 1)
    else count

/-! ### Allocation -/

/-- `ext2_new_blocks`, given the blocks in use and how many are asked for. -/
structure Allocator where
  newBlocks : Finset Nat → Nat → Option (Nat × Nat)
  sound : ∀ {used count first n}, newBlocks used count = some (first, n) →
    0 < n ∧ n ≤ count ∧ 0 < first ∧ ∀ b, first ≤ b → b < first + n → b ∉ used

def blksToAllocate (m : Pointers) (e : ChainEnd) (blks boundary : Nat) : Nat :=
  if 0 < e.rest.length then if blks < boundary + 1 then blks else boundary + 1
  else runLength (fun count => m e.holder (e.slot + count) = 0) blks boundary blks 1

/-- The loop of `ext2_alloc_blocks`, with the number of indirect blocks it still needs: the blocks
in use after it and, if it succeeds, `new_blocks` and the run of data blocks. A round brings a block
at least. -/
def allocBlocks (a : Allocator) : (rounds indirectBlks target : Nat) → (newBlocks : List Nat) →
    Finset Nat → Finset Nat × Option (List Nat × Nat × Nat)
  | 0, _, _, _, used => (used, none)
  | rounds + 1, indirectBlks, target, newBlocks, used =>
    match a.newBlocks used target with
    | none => (used \ newBlocks.toFinset, none)
    | some (current, count) =>
      let used := used ∪ (range' current count).toFinset
      let newBlocks := newBlocks ++ range' current (min indirectBlks count)
      if indirectBlks < count then
        (used, some (newBlocks, current + indirectBlks, count - indirectBlks))
      else allocBlocks a rounds (indirectBlks - count) (target - count) newBlocks used

/-- A pointer to the new blocks, and these linked with each other down to the data. -/
def link (first n : Nat) : (new rest : List Nat) → Holder → (slot : Nat) → Pointers → Pointers
  | b :: new, o :: rest, h, slot, m =>
    link first n new rest (.block b) o ((m.setRun h slot b 1).clear b)
  | _, _, h, slot, m => m.setRun h slot first n

/-- The loop of `ext2_alloc_branch`; nothing points to the first of the blocks yet. -/
def allocBranch (first n : Nat) (new rest : List Nat) (m : Pointers) : Pointers :=
  match new, rest with
  | b :: new, o :: rest => link first n new rest (.block b) o (m.clear b)
  | _, _ => m

def spliceBranch (e : ChainEnd) (new : List Nat) (first n : Nat) (m : Pointers) : Pointers :=
  match new with
  | [] => m.setRun e.holder e.slot first n
  | b :: _ => m.setRun e.holder e.slot b 1

/-- The section under `truncate_mutex`. `clearFails` says that the file is executed in place and
`ext2_clear_xip_target` returns an error. -/
def allocate (bits : Nat) (a : Allocator) (clearFails : Bool) (iblock maxblocks : Nat)
    (e : ChainEnd) (f : File) : File × Option (Nat × Nat) :=
  let count := blksToAllocate f.mem e maxblocks (blocksToBoundary bits iblock)
  match allocBlocks a (e.rest.length + 1) e.rest.length (count + e.rest.length) [] f.used with
  | (used, none) => (⟨f.mem, used⟩, none)
  | (used, some (new, first, n)) =>
    let mem := allocBranch first n new e.rest f.mem
    if clearFails then (⟨mem, used⟩, none)
    else (⟨spliceBranch e new first n mem, used⟩, some (first, n))

/-- What the reading of the chain leads to: an error, a mapping, or an allocation. -/
inductive Lookup where
  | failed
  | found (first n : Nat)
  | missing (e : ChainEnd)

def lookup (bits : Nat) (bread : Nat → Bool) (iblock maxblocks : Nat) (m : Pointers) : Lookup :=
  match blockToPath bits iblock with
  | [] => .failed
  | slot :: rest =>
    match getBranch bread m .inode slot rest with
    | none => .failed
    | some e =>
      let first := m e.holder e.slot
      if first ≠ 0 then
        .found first (runLength (fun count => m e.holder (e.slot + count) = first + count) maxblocks
          (blocksToBoundary bits iblock) maxblocks 1)
      else .missing e

/-- `ext2_get_blocks` with `create`: the block and the number of blocks it reports. -/
def getBlocks (bits : Nat) (bread : Nat → Bool) (a : Allocator) (clearFails : Bool)
    (iblock maxblocks : Nat) (f : File) : File × Option (Nat × Nat) :=
  match lookup bits bread iblock maxblocks f.mem with
  | .failed => (f, none)
  | .found first n => (f, some (first, n))
  | .missing e => allocate bits a clearFails iblock maxblocks e f

/-! ### The models of truncation and of the allocator -/

def Holder.loc : Holder → Loc
  | .inode => .inode
  | .block b => .block b

/-- Where all blocks can be read, the chain ends as the one that `ext2_truncate` reads. -/
lemma getBranch_getLast? (m : Mem) (h : Holder) (slot : Nat) (rest : List Nat) :
    ∃ e, getBranch (fun _ => true) (m.read ·.loc) h slot rest = some e ∧
      (Truncate.getBranch m h.loc (slot :: rest)).getLast? =
        some ⟨e.holder.loc, e.slot, m.read e.holder.loc e.slot⟩ := by
  induction rest generalizing h slot with
  | nil => exact ⟨⟨h, slot, []⟩, rfl, by simp [Truncate.getBranch]⟩
  | cons o rest ih =>
    rw [getBranch, Truncate.getBranch]
    split
    · exact ⟨_, rfl, rfl⟩
    · obtain ⟨e, hbranch, hlast⟩ := ih (.block (m.read h.loc slot)) o
      rw [Holder.loc] at hlast
      exact ⟨e, hbranch, by rw [getLast?_cons, hlast]; rfl⟩

/-- The filesystem in which these blocks are in use. -/
def fsOf (sb : Sb) (rsvs : Rsvs) (used : Finset Nat) : Fs :=
  let bitmap (g i : Nat) : Bool :=
    let block := sb.firstDataBlock + g * sb.blocksPerGroup + i
    block ∈ used ∨ sb.blocksCount ≤ block
  let free (g : Nat) : Nat := BitRun.zeros (bitmap g) sb.blocksPerGroup
  ⟨bitmap, free, ∑ g ∈ Finset.range sb.groupsCount, (free g : Int), rsvs⟩

lemma fsOf_consistent (sb : Sb) (rsvs : Rsvs) (used : Finset Nat) :
    (fsOf sb rsvs used).Consistent sb :=
  ⟨⟨fun _ _ => rfl, fun _ _ _ _ hpad => decide_eq_true (.inr hpad)⟩, rfl⟩

/-- `ext2_new_blocks` is an allocator. -/
def ext2Allocator (bal : Balance) (sb : Sb) (env : Env) (fuel : Nat) (blockI : Option NodeId)
    (goal : Nat) (rsvs : Rsvs) : Allocator where
  newBlocks used count :=
    match newBlocks bal sb env fuel blockI goal count (fsOf sb rsvs used) with
    | .ok r => if 0 < count ∧ r.block ≠ 0 then some (r.block, r.count) else none
    | .error _ => none
  sound := by
    intro used count first n h
    split at h
    next r hr =>
      split_ifs at h with hsome
      obtain ⟨rfl, rfl⟩ := Prod.mk.inj (Option.some.inj h)
      have hc := (fsOf_consistent sb rsvs used).toCounted
      cases newBlocks_returned hc r hr with
      | @claimed g blk num fs' hg hclaims hle =>
        obtain ⟨hnum, -, hfree, -⟩ := hclaims.claimed
        rw [finish_eq count hc hg hclaims] at hsome ⊢
        refine ⟨hnum, hle.trans (max_le le_rfl hsome.1), Nat.pos_of_ne_zero hsome.2, ?_⟩
        intro b hlo hhi hused
        dsimp only at hlo hhi
        obtain ⟨i, rfl⟩ := Nat.exists_eq_add_of_le ((Nat.le_add_right _ _).trans hlo)
        exact of_decide_eq_false (hfree i (by omega) (by omega)) (.inl hused)
      | refused => exact absurd rfl hsome.2
    next => cases h

/-- `ext2_free_blocks` takes from the blocks in use those that `Mem.freeBlocks` records. -/
lemma freeBlocks_fsOf {sb : Sb} {env : Env} {rsvs : Rsvs} {used : Finset Nat} {b n : Nat}
    (hread : ∀ g, env.bread g = true) (hlo : sb.firstDataBlock ≤ b) (hhi : b + n ≤ sb.blocksCount)
    (hused : ∀ x ∈ range' b n, x ∈ used) (g : Nat) {i : Nat} (hi : i < sb.blocksPerGroup) :
    (freeBlocks sb env b n (fsOf sb rsvs used)).bitmap g i =
      (fsOf sb rsvs (used \ (range' b n).toFinset)).bitmap g i := by
  have hset : ∀ g i, sb.InRun b n g i → (fsOf sb rsvs used).bitmap g i = true := fun g i hrun =>
    decide_eq_true (.inl (hused _ (mem_range'_1.mpr hrun.2)))
  rw [(freeBlocks_spec hread (fsOf_consistent sb rsvs used) hlo hhi hset).1, Sb.cleared]
  simp only [fsOf, Sb.InRun, hi, true_and, Finset.mem_sdiff, mem_toFinset, mem_range'_1]
  split_ifs with hrun
  · exact (decide_eq_false (by omega)).symm
  · simp [hrun]

/-! ### Ways through the pointers -/

def Leads (m : Pointers) : Holder → List Nat → Holder → Prop
  | h, [], h' => h = h'
  | h, o :: π, h' => m h o ≠ 0 ∧ Leads m (.block (m h o)) π h'

def Mapped (bits : Nat) (m : Pointers) (iblock b : Nat) : Prop :=
  Leads m .inode (blockToPath bits iblock) (.block b)

def OnPath (bits : Nat) (π : List Nat) : Prop := ∃ i, π <+: blockToPath bits i

/-- A data block or an indirect block of the inode. -/
def Reachable (bits : Nat) (m : Pointers) (b : Nat) : Prop :=
  ∃ π, OnPath bits π ∧ Leads m .inode π (.block b)

def InUse (bits : Nat) (f : File) : Prop := ∀ b, Reachable bits f.mem b → b ∈ f.used

section Ways

variable {m : Pointers} {h h' h'' : Holder} {π σ : List Nat} {bs : List Nat}

lemma leads_append : Leads m h (π ++ σ) h'' ↔ ∃ h', Leads m h π h' ∧ Leads m h' σ h'' := by
  induction π generalizing h with
  | nil => simp [Leads]
  | cons o π ih => simp [Leads, ih, and_assoc]

/-- No way along the offsets comes to one of the blocks. -/
def Avoids (m : Pointers) (bs : List Nat) (h : Holder) (π : List Nat) : Prop :=
  ∀ σ h', σ <+: π → Leads m h σ h' → ∀ b ∈ bs, h' ≠ .block b

lemma Avoids.head (hav : Avoids m bs h π) : ∀ b ∈ bs, h ≠ .block b :=
  hav [] h nil_prefix rfl

lemma Avoids.tail {o : Nat} (hav : Avoids m bs h (o :: π)) (hne : m h o ≠ 0) :
    Avoids m bs (.block (m h o)) π :=
  fun σ h' hσ hl => hav (o :: σ) h' (cons_prefix_cons.mpr ⟨rfl, hσ⟩) ⟨hne, hl⟩

lemma InUse.avoids {bits : Nat} {f : File} (hin : InUse bits f) (hbs : ∀ b ∈ bs, b ∉ f.used)
    (hπ : OnPath bits π) : Avoids f.mem bs .inode π := by
  rintro σ h' hσ hl b hb rfl
  obtain ⟨i, hi⟩ := hπ
  exact hbs b hb (hin b ⟨σ, ⟨i, hσ.trans hi⟩, hl⟩)

lemma getBranch_spec {bread : Nat → Bool} {slot : Nat} {rest : List Nat} {e : ChainEnd}
    (he : getBranch bread m h slot rest = some e) :
    ∃ pre, slot :: rest = pre ++ e.slot :: e.rest ∧ Leads m h pre e.holder ∧
      (m e.holder e.slot ≠ 0 → e.rest = []) := by
  induction rest generalizing h slot with
  | nil =>
    obtain rfl := Option.some.inj he
    exact ⟨[], rfl, rfl, fun _ => rfl⟩
  | cons o rest ih =>
    rw [getBranch] at he
    split_ifs at he with hzero hread
    · obtain rfl := Option.some.inj he
      exact ⟨[], rfl, rfl, fun hne => absurd hzero hne⟩
    · obtain ⟨pre, hpath, hlead, hend⟩ := ih he
      exact ⟨slot :: pre, by rw [hpath, cons_append], ⟨hzero, hlead⟩, hend⟩

end Ways

/-! ### Neighbours of a block -/

/-- The path of the block `j` further, under the same pointers. -/
def bump (j : Nat) : List Nat → List Nat
  | [] => []
  | [o] => [o + j]
  | o :: o' :: π => o :: bump j (o' :: π)

lemma bump_append (j o : Nat) (pre π : List Nat) :
    bump j (pre ++ o :: π) = pre ++ bump j (o :: π) := by
  induction pre with
  | nil => rfl
  | cons a pre ih =>
    cases pre with
    | nil => rfl
    | cons a' pre => rw [cons_append, cons_append, bump, ← cons_append, ih]; rfl

/-- The path of the `i`-th new block of a branch: those for pointers, which lie on the path, come
before the run of data. -/
def way (o : Nat) (π : List Nat) (i : Nat) : List Nat :=
  if i < π.length then (o :: π).take (i + 1) else bump (i - π.length) (o :: π)

lemma way_succ (o o' i : Nat) (π : List Nat) : way o (o' :: π) (i + 1) = o :: way o' π i := by
  simp only [way, length_cons, Nat.add_lt_add_iff_right, Nat.add_sub_add_right]
  split_ifs <;> rfl

lemma pathNumber_bump (ptrs j o : Nat) (π : List Nat) :
    pathNumber ptrs (bump j (o :: π)) = pathNumber ptrs (o :: π) + j ∧
      (bump j (o :: π)).length = (o :: π).length := by
  induction π generalizing o with
  | nil => simp [bump, pathNumber]
  | cons o' π ih =>
    rw [bump, pathNumber, pathNumber, (ih o').1]
    simp only [length_cons, (ih o').2]
    exact ⟨by omega, trivial⟩

lemma pathNumber_eq_ofDigits (ptrs : Nat) (π : List Nat) :
    pathNumber ptrs π = Nat.ofDigits ptrs π.reverse := by
  induction π with
  | nil => rfl
  | cons o π ih => rw [pathNumber, ih, Nat.ofDigits_reverse_cons, mul_comm, add_comm]

variable {ptrs : Nat} {π : List Nat}

lemma pathNumber_inj {σ : List Nat} (hptrs : 1 < ptrs) (hlen : π.length = σ.length)
    (hπ : ∀ o ∈ π, o < ptrs) (hσ : ∀ o ∈ σ, o < ptrs) (h : pathNumber ptrs π = pathNumber ptrs σ) :
    π = σ := by
  rw [pathNumber_eq_ofDigits, pathNumber_eq_ofDigits] at h
  exact reverse_injective
    (Nat.ofDigits_inj_of_len_eq hptrs (by simpa using hlen) (by simpa) (by simpa) h)

lemma forall_bump {j : Nat} (hπ : ∀ o ∈ π, o < ptrs)
    (hlast : ∀ l, π.getLast? = some l → l + j < ptrs) : ∀ o ∈ bump j π, o < ptrs := by
  induction π with
  | nil => simp [bump]
  | cons o π ih =>
    cases π with
    | nil => simpa [bump] using hlast
    | cons o' π =>
      rw [bump, forall_mem_cons]
      exact ⟨hπ o mem_cons_self, ih (fun x hx => hπ x (mem_cons_of_mem _ hx)) hlast⟩

section Paths

variable {bits i j : Nat} {first : Nat} {rest : List Nat}

lemma blocksToBoundary_direct (hbits : 4 ≤ bits) (hi : i < NDIR_BLOCKS) :
    blocksToBoundary bits i = NDIR_BLOCKS - 1 - i := by
  have hptrs : 2 ^ 4 ≤ addrPerBlock bits := Nat.pow_le_pow_right (by decide) hbits
  have hdir : NDIR_BLOCKS = 12 := rfl
  simp only [blocksToBoundary, if_pos hi, and_bits]
  rw [Nat.mod_eq_of_lt (by omega)]

lemma blocksToBoundary_rest {l : Nat} (hpath : blockToPath bits i = first :: rest)
    (hl : rest.getLast? = some l) :
    l + blocksToBoundary bits i < addrPerBlock bits := by
  have hpos : 0 < addrPerBlock bits := Nat.two_pow_pos bits
  simp only [blockToPath, blocksToBoundary, Truncate.shiftRight_two, Truncate.shiftLeft_two,
    and_bits] at hpath ⊢
  generalize addrPerBlock bits = ptrs at hpath hpos ⊢
  split_ifs at hpath ⊢ with hdir hind
  · cases hpath
    cases hl
  · cases hpath
    obtain rfl : i - NDIR_BLOCKS = l := by simpa using hl
    rw [Nat.mod_eq_of_lt hind]
    omega
  all_goals
    cases hpath
    simp only [getLast?_cons_cons, getLast?_singleton, Option.some.injEq] at hl
    have hlt := Nat.mod_lt (i - NDIR_BLOCKS - ptrs) hpos
    have hlt' := Nat.mod_lt (i - NDIR_BLOCKS - ptrs - ptrs ^ 2) hpos
    omega

lemma path_spec (hpath : blockToPath bits i = first :: rest) :
    first < N_BLOCKS ∧ rest.length = height first ∧ (∀ o ∈ rest, o < addrPerBlock bits) ∧
      i = base (addrPerBlock bits) first + pathNumber (addrPerBlock bits) rest := by
  obtain ⟨hnil, -⟩ | ⟨first', rest', hpath', hspec⟩ := Truncate.blockToPath_spec bits i
  · cases hnil.symm.trans hpath
  · obtain ⟨rfl, rfl⟩ := cons.inj (hpath.symm.trans hpath')
    exact hspec

/-- Up to the boundary only the last offset changes. -/
lemma blockToPath_add (hbits : 4 ≤ bits) (hi : blockToPath bits i ≠ [])
    (hj : j ≤ blocksToBoundary bits i) :
    blockToPath bits (i + j) = bump j (blockToPath bits i) := by
  obtain ⟨first, rest, hpath⟩ := exists_cons_of_ne_nil hi
  obtain ⟨hfirst, hlength, hrest, heq⟩ := path_spec hpath
  cases rest with
  | nil =>
    have hdir : NDIR_BLOCKS = 12 := rfl
    have hdirect : first < NDIR_BLOCKS := by
      simp only [length_nil, height] at hlength
      omega
    rw [base_direct hdirect.le] at heq
    subst heq
    rw [blocksToBoundary_direct hbits hdirect] at hj
    have hlt : i + j < NDIR_BLOCKS := by omega
    rw [hpath]
    exact if_pos hlt
  | cons o rest =>
    have hbump := forall_bump hrest fun l hl =>
      (Nat.add_le_add_left hj l).trans_lt (blocksToBoundary_rest hpath hl)
    obtain ⟨hnumber, hlen⟩ := pathNumber_bump (addrPerBlock bits) j o rest
    have hlt := pathNumber_lt hbump
    rw [hlen, hlength] at hlt
    have hsum : i + j = base (addrPerBlock bits) first +
        pathNumber (addrPerBlock bits) (bump j (o :: rest)) := by omega
    obtain ⟨-, hend⟩ | ⟨first', rest', hpath', -, hlength', hrest', heq'⟩ :=
      Truncate.blockToPath_spec bits (i + j)
    · have hbefore := Truncate.base_lt_of_lt hfirst hlt
      omega
    · have hlt' := pathNumber_lt hrest'
      rw [hlength'] at hlt'
      obtain ⟨rfl, hsame⟩ := Truncate.base_add_inj hlt hlt' (hsum.symm.trans heq')
      rw [hpath', hpath, bump,
        pathNumber_inj (Nat.one_lt_two_pow (by omega))
          (by rw [hlen, hlength, hlength']) hbump hrest' hsame]

lemma blockToPath_inj (hi : blockToPath bits i ≠ []) (h : blockToPath bits i = blockToPath bits j) :
    i = j := by
  obtain ⟨first, rest, hpath⟩ := exists_cons_of_ne_nil hi
  exact (path_spec hpath).2.2.2.trans (path_spec (h.symm.trans hpath)).2.2.2.symm

end Paths

/-! ### What is allocated -/

lemma runLength_spec (fits : Nat → Bool) {maxblocks boundary count : Nat} (rounds : Nat)
    (hmax : count ≤ maxblocks) (hboundary : count ≤ boundary + 1) :
    count ≤ runLength fits maxblocks boundary rounds count ∧
      runLength fits maxblocks boundary rounds count ≤ maxblocks ∧
      runLength fits maxblocks boundary rounds count ≤ boundary + 1 ∧
      ∀ j, count ≤ j → j < runLength fits maxblocks boundary rounds count → fits j = true := by
  induction rounds generalizing count with
  | zero => exact ⟨le_rfl, hmax, hboundary, fun j hj hlt => absurd hj (Nat.not_le_of_lt hlt)⟩
  | succ rounds ih =>
    rw [runLength]
    split
    next hfits =>
      obtain ⟨hle, hmax', hboundary', hall⟩ := ih (show count + 1 ≤ maxblocks from hfits.1)
        (by omega)
      refine ⟨by omega, hmax', hboundary', fun j hj hlt => ?_⟩
      obtain rfl | hne := Nat.eq_or_lt_of_le hj
      · exact hfits.2.2
      · exact hall j hne hlt
    next => exact ⟨le_rfl, hmax, hboundary, fun j hj hlt => absurd hj (Nat.not_le_of_lt hlt)⟩

lemma blksToAllocate_spec (m : Pointers) (e : ChainEnd) {blks : Nat} (boundary : Nat)
    (hblks : 0 < blks) :
    0 < blksToAllocate m e blks boundary ∧ blksToAllocate m e blks boundary ≤ blks ∧
      blksToAllocate m e blks boundary ≤ boundary + 1 ∧
      (e.rest = [] → ∀ j, 0 < j → j < blksToAllocate m e blks boundary →
        m e.holder (e.slot + j) = 0) := by
  unfold blksToAllocate
  split
  next hrest =>
    have hne : e.rest ≠ [] := length_pos_iff.mp hrest
    split <;> exact ⟨by omega, by omega, by omega, fun hnil => absurd hnil hne⟩
  next =>
    obtain ⟨hle, hmax, hboundary, hall⟩ := runLength_spec
      (fun count => m e.holder (e.slot + count) = 0) blks hblks (show 1 ≤ boundary + 1 by omega)
    exact ⟨hle, hmax, hboundary, fun _ j hj hlt => of_decide_eq_true (hall j hj hlt)⟩

/-- Blocks that were not in use, for pointers and for a run of data. -/
structure Fresh (used : Finset Nat) (new : List Nat) (first n : Nat) : Prop where
  pos : 0 < n
  nodup : (new ++ range' first n).Nodup
  unused : ∀ b ∈ new ++ range' first n, b ∉ used
  ne_zero : ∀ b ∈ new ++ range' first n, b ≠ 0

/-- The allocator answers until the indirect blocks that are needed and a block of data are there,
each time with what is still wanted of the target and with what it gave before in use. -/
inductive Gives (a : Allocator) : (indirectBlks target : Nat) → Finset Nat → Prop
  | last {indirectBlks target current count : Nat} {used : Finset Nat}
      (hans : a.newBlocks used target = some (current, count)) (hdone : indirectBlks < count) :
      Gives a indirectBlks target used
  | more {indirectBlks target current count : Nat} {used : Finset Nat}
      (hans : a.newBlocks used target = some (current, count)) (hmore : count ≤ indirectBlks)
      (hrest : Gives a (indirectBlks - count) (target - count)
        (used ∪ (range' current count).toFinset)) :
      Gives a indirectBlks target used

lemma allocBlocks_isSome {a : Allocator} {rounds indirectBlks target : Nat} (new : List Nat)
    {used : Finset Nat} (hrounds : indirectBlks < rounds) :
    (allocBlocks a rounds indirectBlks target new used).2.isSome ↔
      Gives a indirectBlks target used := by
  induction rounds generalizing indirectBlks target new used with
  | zero => omega
  | succ rounds ih =>
    rw [allocBlocks]
    split
    next hnone =>
      refine iff_of_false Bool.false_ne_true ?_
      rintro (⟨hans, -⟩ | ⟨hans, -⟩) <;> cases hnone.symm.trans hans
    next current count hans =>
      split
      next hdone => exact iff_of_true rfl (.last hans hdone)
      next hmore =>
        have hpos := (a.sound hans).1
        rw [ih _ (by omega)]
        refine ⟨.more hans (Nat.le_of_not_lt hmore), ?_⟩
        rintro (⟨hans', hdone⟩ | ⟨hans', -, hrest⟩) <;> cases hans.symm.trans hans'
        · exact absurd hdone hmore
        · exact hrest

/-- Either everything that was obtained is freed, or it is what was asked for. -/
lemma allocBlocks_spec (a : Allocator) {rounds indirectBlks target : Nat} {new : List Nat}
    {used base : Finset Nat} (hrounds : indirectBlks < rounds) (htarget : indirectBlks < target)
    (hused : used = base ∪ new.toFinset) (hnodup : new.Nodup) (hnew : ∀ b ∈ new, b ∉ base ∧ b ≠ 0) :
    allocBlocks a rounds indirectBlks target new used = (base, none) ∨
    ∃ new' first n, allocBlocks a rounds indirectBlks target new used =
        (base ∪ (new' ++ range' first n).toFinset, some (new', first, n)) ∧
      Fresh base new' first n ∧ new'.length = new.length + indirectBlks ∧
      n + indirectBlks ≤ target := by
  induction rounds generalizing indirectBlks target new used with
  | zero => omega
  | succ rounds ih =>
    rw [allocBlocks]
    split
    next =>
      left
      have hbase : used \ new.toFinset = base := by
        ext b
        simp only [hused, Finset.mem_sdiff, Finset.mem_union, mem_toFinset]
        exact ⟨fun h => h.1.resolve_right h.2, fun h => ⟨.inl h, fun hb => (hnew b hb).1 h⟩⟩
      rw [hbase]
    next current count hans =>
      obtain ⟨hpos, hle, hcurrent, hfree⟩ := a.sound hans
      have hrun : ∀ b ∈ range' current count, b ∉ used ∧ b ≠ 0 := by
        intro b hb
        obtain ⟨hlow, hhigh⟩ := mem_range'_1.mp hb
        exact ⟨hfree b hlow hhigh, by omega⟩
      have hall : ∀ b ∈ new ++ range' current count, b ∉ base ∧ b ≠ 0 := by
        refine forall_mem_append.mpr ⟨hnew, fun b hb => ⟨fun h => (hrun b hb).1 ?_, (hrun b hb).2⟩⟩
        simp [hused, h]
      have hnodup' : (new ++ range' current count).Nodup := by
        refine hnodup.append nodup_range' fun b hb hb' => (hrun b hb').1 ?_
        simp [hused, hb]
      have hunion : used ∪ (range' current count).toFinset =
          base ∪ (new ++ range' current count).toFinset := by
        rw [hused, toFinset_append, Finset.union_assoc]
      split
      next hdone =>
        right
        have hsplit : new ++ range' current (min indirectBlks count) ++
            range' (current + indirectBlks) (count - indirectBlks) =
            new ++ range' current count := by
          rw [min_eq_left hdone.le, append_assoc, range'_append_1,
            Nat.add_sub_cancel' hdone.le]
        refine ⟨_, _, _, by rw [hsplit, hunion], ⟨by omega, ?_, ?_, ?_⟩, ?_, by omega⟩
        · rwa [hsplit]
        · rw [hsplit]
          exact fun b hb => (hall b hb).1
        · rw [hsplit]
          exact fun b hb => (hall b hb).2
        · rw [length_append, length_range', min_eq_left hdone.le]
      next hmore =>
        rw [min_eq_right (Nat.le_of_not_lt hmore)]
        obtain hfail | ⟨new', first, n, heq, hfresh, hlen, htotal⟩ := ih
          (show indirectBlks - count < rounds by omega)
          (show indirectBlks - count < target - count by omega) hunion hnodup' hall
        · exact .inl hfail
        · refine .inr ⟨new', first, n, heq, hfresh, ?_, by omega⟩
          rw [hlen, length_append, length_range']
          omega

/-! ### New links -/

section Link

variable {first n : Nat} {new rest : List Nat} {h : Holder} {slot : Nat} {m : Pointers}
  {h' : Holder} {b x : Nat}

/-- The slots that are written at the holder of the link. -/
def span (n : Nat) : (new : List Nat) → Nat
  | [] => n
  | _ :: _ => 1

lemma setRun_clear_comm {v slot' : Nat} (hh : h' ≠ h) (hb : h' ≠ .block b) :
    ((m.setRun h slot b 1).clear b).setRun h' slot' v 1 =
      ((m.setRun h' slot' v 1).setRun h slot b 1).clear b := by
  funext x y
  simp only [Pointers.setRun, Pointers.clear]
  split_ifs <;> simp_all

lemma link_setRun_comm {v slot' : Nat} (hh : h' ≠ h) (hnew : ∀ b ∈ new, h' ≠ .block b)
    (hlen : new.length = rest.length) :
    (link first n new rest h slot m).setRun h' slot' v 1 =
      link first n new rest h slot (m.setRun h' slot' v 1) := by
  induction new generalizing rest h slot m with
  | nil =>
    funext x y
    simp only [link, Pointers.setRun]
    split_ifs <;> simp_all
  | cons b new ih =>
    obtain ⟨hb, hnew⟩ := forall_mem_cons.mp hnew
    cases rest with
    | nil => cases hlen
    | cons o rest =>
      rw [link, link, ih hb hnew (Nat.succ.inj hlen), setRun_clear_comm hh hb]

/-- Building the branch first and linking it last comes to the same. -/
lemma spliceBranch_allocBranch {e : ChainEnd} (hnew : ∀ b ∈ new, e.holder ≠ .block b)
    (hlen : new.length = e.rest.length) :
    spliceBranch e new first n (allocBranch first n new e.rest m) =
      link first n new e.rest e.holder e.slot m := by
  cases new with
  | nil => rfl
  | cons b new =>
    obtain ⟨hb, hnew⟩ := forall_mem_cons.mp hnew
    cases hrest : e.rest with
    | nil =>
      rw [hrest] at hlen
      cases hlen
    | cons o rest =>
      rw [hrest] at hlen
      rw [spliceBranch, allocBranch, link, link_setRun_comm hb hnew (Nat.succ.inj hlen)]
      congr 1
      funext x y
      simp only [Pointers.setRun, Pointers.clear]
      split_ifs <;> simp_all

lemma link_frame (hlen : new.length = rest.length) (hnew : ∀ b ∈ new, h' ≠ .block b)
    (hx : ¬(h' = h ∧ slot ≤ x ∧ x < slot + span n new)) :
    link first n new rest h slot m h' x = m h' x := by
  induction new generalizing rest h slot m with
  | nil => exact if_neg hx
  | cons b new ih =>
    obtain ⟨hb, hnew⟩ := forall_mem_cons.mp hnew
    cases rest with
    | nil => cases hlen
    | cons o rest =>
      rw [link, ih (Nat.succ.inj hlen) hnew fun h => hb h.1, Pointers.clear, if_neg hb]
      exact if_neg hx

lemma link_slot (hlen : new.length = rest.length) (hnew : ∀ b ∈ new, h ≠ .block b)
    (hlow : slot ≤ x) (hhigh : x < slot + span n new) :
    link first n new rest h slot m h x = new.headD first + (x - slot) := by
  cases new with
  | nil => exact if_pos ⟨rfl, hlow, hhigh⟩
  | cons b new =>
    obtain ⟨hb, hnew⟩ := forall_mem_cons.mp hnew
    cases rest with
    | nil => cases hlen
    | cons o rest =>
      rw [link, link_frame (Nat.succ.inj hlen) hnew fun h => hb h.1, Pointers.clear, if_neg hb]
      exact if_pos ⟨rfl, hlow, hhigh⟩

lemma block_ne (hb : b ∉ new) : ∀ b' ∈ new, Holder.block b ≠ .block b' := by
  intro b' hb' heq
  injection heq with heq
  exact hb (by rwa [heq])

lemma getElem?_run {i y : Nat} : (range' first n)[i]? = some y ↔ i < n ∧ y = first + i := by
  rw [getElem?_eq_some_iff]
  simp [eq_comm]

variable (hlen : new.length = rest.length) (hholder : ∀ b ∈ new, h ≠ .block b) (hnodup : new.Nodup)

include hlen hholder hnodup

lemma link_leads {i y : Nat} (hne : ∀ b ∈ new ++ range' first n, b ≠ 0)
    (hi : (new ++ range' first n)[i]? = some y) :
    Leads (link first n new rest h slot m) h (way slot rest i) (.block y) := by
  have hy : y ≠ 0 := hne y (mem_of_getElem? hi)
  induction new generalizing rest h slot m i with
  | nil =>
    obtain rfl : rest = [] := length_eq_zero_iff.mp hlen.symm
    obtain ⟨hlt, rfl⟩ := getElem?_run.mp hi
    have hread : link first n [] [] h slot m h (slot + i) = first + i := by
      rw [link_slot rfl hholder (Nat.le_add_right _ _) (Nat.add_lt_add_left hlt _),
        Nat.add_sub_cancel_left]
      rfl
    exact ⟨hread.trans_ne hy, congrArg Holder.block hread⟩
  | cons b new ih =>
    cases rest with
    | nil => cases hlen
    | cons o rest =>
      obtain ⟨hb, hnodup⟩ := nodup_cons.mp hnodup
      obtain ⟨hb0, hne⟩ := forall_mem_cons.mp hne
      have hread : link first n (b :: new) (o :: rest) h slot m h slot = b := by
        rw [link_slot hlen hholder le_rfl (Nat.lt_succ_self _), Nat.sub_self]
        rfl
      cases i with
      | zero => exact ⟨hread.trans_ne hb0, congrArg Holder.block (hread.trans (Option.some.inj hi))⟩
      | succ i =>
        rw [way_succ, Leads, hread]
        exact ⟨hb0, ih (Nat.succ.inj hlen) (block_ne hb) hnodup hne hi⟩

/-- Through the link there are no other ways. -/
lemma leads_link {y : Nat} {τ : List Nat} (hlow : slot ≤ x) (hhigh : x < slot + span n new)
    (hτ : τ.length ≤ rest.length)
    (hl : Leads (link first n new rest h slot m) h (x :: τ) (.block y)) :
    ∃ i, (new ++ range' first n)[i]? = some y ∧ x :: τ = way slot rest i := by
  have hread : link first n new rest h slot m h x = new.headD first + (x - slot) :=
    link_slot hlen hholder hlow hhigh
  rw [Leads, hread] at hl
  induction new generalizing rest h slot m x τ with
  | nil =>
    obtain rfl : rest = [] := length_eq_zero_iff.mp hlen.symm
    obtain rfl : τ = [] := length_eq_zero_iff.mp (Nat.le_zero.mp hτ)
    have hy : first + (x - slot) = y := by injection hl.2
    rw [span] at hhigh
    exact ⟨x - slot, getElem?_run.mpr ⟨by omega, hy.symm⟩,
      congrArg ([·]) (Nat.add_sub_cancel' hlow).symm⟩
  | cons b new ih =>
    cases rest with
    | nil => cases hlen
    | cons o rest =>
      obtain ⟨hb, hnodup⟩ := nodup_cons.mp hnodup
      rw [span] at hhigh
      obtain rfl : x = slot := by omega
      rw [Nat.sub_self] at hl
      cases τ with
      | nil =>
        have hy : b = y := by injection hl.2
        exact ⟨0, congrArg some hy, rfl⟩
      | cons t τ =>
        have hblock := block_ne hb
        have hl' := hl.2
        by_cases htouch : o ≤ t ∧ t < o + span n new
        · have hslot : link first n new rest (.block b) o ((m.setRun h x b 1).clear b)
              (.block b) t = _ :=
            link_slot (Nat.succ.inj hlen) hblock htouch.1 htouch.2
          obtain ⟨i, hi, hpath⟩ := ih (Nat.succ.inj hlen) hblock hnodup htouch.1 htouch.2
            (Nat.succ_le_succ_iff.mp hτ) (hslot ▸ hl') hslot
          exact ⟨i + 1, hi, by rw [hpath, way_succ]⟩
        · -- the block was cleared and only its link is set
          have hzero : link first n new rest (.block b) o ((m.setRun h x b 1).clear b)
              (.block b) t = ((m.setRun h x b 1).clear b) (.block b) t :=
            link_frame (Nat.succ.inj hlen) hblock fun h => htouch h.2
          rw [Pointers.clear, if_pos rfl] at hzero
          exact absurd hzero hl'.1

end Link

/-! ### Block trees -/

/-- The blocks of an inode are in use, and there is one way to each. -/
structure IsTree (bits : Nat) (f : File) : Prop where
  inUse : InUse bits f
  unique : ∀ π σ h, OnPath bits π → OnPath bits σ → Leads f.mem .inode π h →
    Leads f.mem .inode σ h → π = σ

/-- The chain to a block ends at a pointer of the inode. -/
def Arrives (bits : Nat) (m : Pointers) (iblock : Nat) (e : ChainEnd) : Prop :=
  ∃ pre, blockToPath bits iblock = pre ++ e.slot :: e.rest ∧ Leads m .inode pre e.holder

/-- New blocks, and pointers at the end of a chain that are free for them. -/
structure Linking (bits : Nat) (f : File) (iblock : Nat) (e : ChainEnd) (new : List Nat)
    (first n : Nat) : Prop where
  tree : IsTree bits f
  arrives : Arrives bits f.mem iblock e
  fresh : Fresh f.used new first n
  length : new.length = e.rest.length
  zero : ∀ x, e.slot ≤ x → x < e.slot + span n new → f.mem e.holder x = 0
  boundary : n ≤ blocksToBoundary bits iblock + 1

def linked (f : File) (e : ChainEnd) (new : List Nat) (first n : Nat) : File :=
  ⟨link first n new e.rest e.holder e.slot f.mem, f.used ∪ (new ++ range' first n).toFinset⟩

lemma leads_inode {m : Pointers} {h : Holder} (hl : Leads m h π .inode) : π = [] := by
  induction π generalizing h with
  | nil => rfl
  | cons o π ih =>
    have hnil := ih hl.2
    subst hnil
    cases hl.2

/-- A block has no path that ends on the way to another. -/
lemma path_unique {bits i j : Nat} (hj : blockToPath bits j ≠ [])
    (h : blockToPath bits j <+: blockToPath bits i) : blockToPath bits j = blockToPath bits i := by
  cases hpath : blockToPath bits j with
  | nil => exact absurd hpath hj
  | cons a π =>
    obtain ⟨ρ, hρ⟩ := h
    rw [hpath, cons_append] at hρ
    have hlen := (path_spec hρ.symm).2.1
    rw [← (path_spec hpath).2.1, length_append, Nat.add_eq_left] at hlen
    rw [← hρ, length_eq_zero_iff.mp hlen, append_nil]

namespace Linking

variable {bits iblock first n : Nat} {f : File} {e : ChainEnd} {new : List Nat}
  (hk : Linking bits f iblock e new first n) (hbits : 4 ≤ bits)
  {π : List Nat} {h : Holder} {j b : Nat}

include hk

lemma holder_ne : ∀ b ∈ new, e.holder ≠ .block b := by
  intro b hb heq
  obtain ⟨pre, hpath, hlead⟩ := hk.arrives
  rw [heq] at hlead
  exact hk.fresh.unused b (mem_append_left _ hb)
    (hk.tree.inUse b ⟨pre, ⟨iblock, _, hpath.symm⟩, hlead⟩)

lemma nodup_new : new.Nodup := (nodup_append.mp hk.fresh.nodup).1

lemma first_mem : first ∈ new ++ range' first n :=
  mem_append_right _ (mem_range'_1.mpr ⟨le_rfl, Nat.lt_add_of_pos_right hk.fresh.pos⟩)

lemma kept (hπ : OnPath bits π) (hl : Leads f.mem .inode π h) :
    Leads (linked f e new first n).mem .inode π h := by
  have hav := hk.tree.inUse.avoids hk.fresh.unused hπ
  clear hπ
  generalize Holder.inode = h₀ at hav hl ⊢
  induction π generalizing h₀ with
  | nil => exact hl
  | cons o π ih =>
    obtain ⟨hne, hrest⟩ := hl
    have hsame : (linked f e new first n).mem h₀ o = f.mem h₀ o := by
      refine link_frame hk.length (fun b hb => hav.head b (mem_append_left _ hb)) ?_
      rintro ⟨rfl, hlow, hhigh⟩
      exact hne (hk.zero o hlow hhigh)
    rw [Leads, hsame]
    exact ⟨hne, ih _ (hav.tail hne) hrest⟩

/-- A way that was not there goes through one of the new pointers. -/
lemma leads_cases (hπ : OnPath bits π) (hl : Leads (linked f e new first n).mem .inode π h) :
    Leads f.mem .inode π h ∨ ∃ pre x τ, π = pre ++ x :: τ ∧ Leads f.mem .inode pre e.holder ∧
      (e.slot ≤ x ∧ x < e.slot + span n new) ∧
      Leads (linked f e new first n).mem e.holder (x :: τ) h := by
  have hav := hk.tree.inUse.avoids hk.fresh.unused hπ
  clear hπ
  generalize Holder.inode = h₀ at hav hl ⊢
  induction π generalizing h₀ with
  | nil => exact .inl hl
  | cons o π ih =>
    by_cases htouch : h₀ = e.holder ∧ e.slot ≤ o ∧ o < e.slot + span n new
    · obtain ⟨rfl, htouch⟩ := htouch
      exact .inr ⟨[], o, π, rfl, rfl, htouch, hl⟩
    · obtain ⟨hne, hrest⟩ := hl
      have hsame : (linked f e new first n).mem h₀ o = f.mem h₀ o :=
        link_frame hk.length (fun b hb => hav.head b (mem_append_left _ hb)) htouch
      rw [hsame] at hne hrest
      rcases ih _ (hav.tail hne) hrest with hold | ⟨pre, x, τ, rfl, hpre, htouch, hl⟩
      · exact .inl ⟨hne, hold⟩
      · exact .inr ⟨o :: pre, x, τ, rfl, ⟨hne, hpre⟩, htouch, hl⟩

lemma used_ne : (linked f e new first n).used ≠ f.used := by
  intro heq
  refine hk.fresh.unused first hk.first_mem ?_
  rw [← heq]
  exact Finset.mem_union_right _ (mem_toFinset.mpr hk.first_mem)

section

variable {pre : List Nat} (hpath : blockToPath bits iblock = pre ++ e.slot :: e.rest) {y : Nat}

include hpath

lemma leads_pre : Leads f.mem .inode pre e.holder := by
  obtain ⟨pre', hpath', hlead⟩ := hk.arrives
  rwa [append_cancel_right (hpath.symm.trans hpath')]

lemma leads_way {i : Nat} (hi : (new ++ range' first n)[i]? = some y) :
    Leads (linked f e new first n).mem .inode (pre ++ way e.slot e.rest i) (.block y) :=
  leads_append.mpr ⟨e.holder, hk.kept ⟨iblock, _, hpath.symm⟩ (hk.leads_pre hpath),
    link_leads hk.length hk.holder_ne hk.nodup_new hk.fresh.ne_zero hi⟩

include hbits

/-- Paths through the new pointers are as long as that of the block. -/
lemma length_eq {j x : Nat} {τ : List Nat}
    (hpath' : blockToPath bits j = pre ++ x :: τ) (hlow : e.slot ≤ x)
    (hhigh : x < e.slot + span n new) : τ.length = e.rest.length := by
  cases pre with
  | cons a pre =>
    rw [cons_append] at hpath hpath'
    have hlen := (path_spec hpath).2.1.trans (path_spec hpath').2.1.symm
    simp only [length_append, length_cons] at hlen
    omega
  | nil =>
    have hlen := (path_spec hpath).2.1
    have hlen' := (path_spec hpath').2.1
    cases new with
    | cons b new =>
      rw [span] at hhigh
      obtain rfl : x = e.slot := by omega
      rw [hlen, hlen']
    | nil =>
      have hrest : e.rest = [] := length_eq_zero_iff.mp hk.length.symm
      have hdir : NDIR_BLOCKS = 12 := rfl
      rw [hrest] at hpath
      rw [hrest] at hlen ⊢
      rw [span] at hhigh
      simp only [length_nil, height] at hlen hlen' ⊢
      obtain rfl : iblock = e.slot := by
        rw [(path_spec hpath).2.2.2, base_direct (by omega), pathNumber, add_zero]
      have hboundary := hk.boundary
      rw [blocksToBoundary_direct hbits (by omega)] at hboundary
      omega

lemma through {π : List Nat} (hπ : OnPath bits π)
    (hl : Leads (linked f e new first n).mem .inode π (.block y)) :
    Leads f.mem .inode π (.block y) ∨
      ∃ i, (new ++ range' first n)[i]? = some y ∧ π = pre ++ way e.slot e.rest i := by
  obtain hold | ⟨pre', x, τ, rfl, hpre, ⟨hlow, hhigh⟩, hl⟩ := hk.leads_cases hπ hl
  · exact .inl hold
  · obtain ⟨j, ρ, hρ⟩ := hπ
    rw [append_assoc, cons_append] at hρ
    obtain rfl : pre' = pre := hk.tree.unique pre' pre e.holder ⟨j, _, hρ⟩ ⟨iblock, _, hpath.symm⟩
      hpre (hk.leads_pre hpath)
    have hlen := hk.length_eq hbits hpath hρ.symm hlow hhigh
    rw [length_append] at hlen
    obtain ⟨i, hi, hτ⟩ := leads_link hk.length hk.holder_ne hk.nodup_new hlow hhigh (by omega) hl
    exact .inr ⟨i, hi, by rw [hτ]⟩

end

include hbits

lemma mapped (hj : j < n) :
    Mapped bits (linked f e new first n).mem (iblock + j) (first + j) := by
  obtain ⟨pre, hpath, -⟩ := hk.arrives
  have hboundary := hk.boundary
  have hi : (new ++ range' first n)[e.rest.length + j]? = some (first + j) := by
    rw [← hk.length, getElem?_append_right (Nat.le_add_right ..), Nat.add_sub_cancel_left]
    exact getElem?_run.mpr ⟨hj, rfl⟩
  have hway := hk.leads_way hpath hi
  rw [way, if_neg (by omega), Nat.add_sub_cancel_left, ← bump_append, ← hpath] at hway
  rwa [Mapped, blockToPath_add hbits (by simp [hpath]) (by omega)]

/-- The path of a new block lies on the path of the block, or is that of another of the run. -/
lemma way_cases {pre : List Nat} (hpath : blockToPath bits iblock = pre ++ e.slot :: e.rest)
    {i y : Nat} (hi : (new ++ range' first n)[i]? = some y) :
    pre ++ way e.slot e.rest i <+: blockToPath bits iblock ∨
      ∃ j < n, pre ++ way e.slot e.rest i = blockToPath bits (iblock + j) := by
  have hboundary := hk.boundary
  have hbound := (List.getElem?_eq_some_iff.mp hi).1
  rw [length_append, length_range', hk.length] at hbound
  rw [way]
  split_ifs with hlt
  · rw [hpath]
    exact .inl ((prefix_append_right_inj _).mpr <| take_prefix ..)
  · refine .inr ⟨i - e.rest.length, by omega, ?_⟩
    rw [blockToPath_add hbits (by simp [hpath]) (by omega), hpath, bump_append]

lemma reachable :
    ∀ b ∈ new ++ range' first n, Reachable bits (linked f e new first n).mem b := by
  intro b hb
  obtain ⟨pre, hpath, -⟩ := hk.arrives
  obtain ⟨i, hi⟩ := getElem?_of_mem hb
  refine ⟨_, ?_, hk.leads_way hpath hi⟩
  obtain hprefix | ⟨j, -, heq⟩ := hk.way_cases hbits hpath hi
  · exact ⟨iblock, hprefix⟩
  · exact ⟨iblock + j, heq ▸ prefix_rfl⟩

lemma reachable_cases (hb : Reachable bits (linked f e new first n).mem b) :
    Reachable bits f.mem b ∨ b ∈ new ++ range' first n := by
  obtain ⟨π, hπ, hl⟩ := hb
  obtain ⟨pre, hpath, -⟩ := hk.arrives
  obtain hold | ⟨i, hi, -⟩ := hk.through hbits hpath hπ hl
  · exact .inl ⟨π, hπ, hold⟩
  · exact .inr (mem_of_getElem? hi)

lemma isTree : IsTree bits (linked f e new first n) where
  inUse := by
    intro b hb
    obtain hold | hnew := hk.reachable_cases hbits hb
    · exact Finset.mem_union_left _ (hk.tree.inUse b hold)
    · exact Finset.mem_union_right _ (mem_toFinset.mpr hnew)
  unique := by
    intro π σ h hπ hσ hlπ hlσ
    cases h with
    | inode => rw [leads_inode hlπ, leads_inode hlσ]
    | block y =>
      obtain ⟨pre, hpath, -⟩ := hk.arrives
      have hold : ∀ {π i}, OnPath bits π → Leads f.mem .inode π (.block y) →
          (new ++ range' first n)[i]? ≠ some y :=
        fun hπ hl hi => hk.fresh.unused y (mem_of_getElem? hi) (hk.tree.inUse y ⟨_, hπ, hl⟩)
      obtain hπ' | ⟨i, hi, rfl⟩ := hk.through hbits hpath hπ hlπ <;>
        obtain hσ' | ⟨i', hi', rfl⟩ := hk.through hbits hpath hσ hlσ
      · exact hk.tree.unique π σ _ hπ hσ hπ' hσ'
      · exact absurd hi' (hold hπ hπ')
      · exact absurd hi (hold hσ hσ')
      · obtain ⟨hlt, hget⟩ := List.getElem?_eq_some_iff.mp hi
        obtain ⟨hlt', hget'⟩ := List.getElem?_eq_some_iff.mp hi'
        rw [hk.fresh.nodup.getElem_inj_iff.mp (hget.trans hget'.symm)]

/-- Blocks outside of the run stay as they are. -/
lemma mapped_iff (hj : j < iblock ∨ iblock + n ≤ j) :
    Mapped bits (linked f e new first n).mem j b ↔ Mapped bits f.mem j b := by
  refine ⟨fun h => ?_, hk.kept ⟨j, prefix_rfl⟩⟩
  have hpos := hk.fresh.pos
  have hne : blockToPath bits j ≠ [] := by
    intro hnil
    rw [Mapped, hnil] at h
    cases h
  obtain ⟨pre, hpath, -⟩ := hk.arrives
  obtain hold | ⟨i, hi, heq⟩ := hk.through hbits hpath ⟨j, prefix_rfl⟩ h
  · exact hold
  · obtain hpre | ⟨j', hj', heq'⟩ := hk.way_cases hbits hpath hi
    · have hsame := blockToPath_inj hne (path_unique hne (heq ▸ hpre))
      omega
    · have hsame := blockToPath_inj hne (heq.trans heq')
      omega

end Linking

/-! ### Calls -/

section Calls

variable {bits iblock maxblocks : Nat} {bread : Nat → Bool} {f : File} {e : ChainEnd}

lemma lookup_spec (bread : Nat → Bool) (iblock : Nat) (hbits : 4 ≤ bits) (hmax : 0 < maxblocks)
    (m : Pointers) :
    match lookup bits bread iblock maxblocks m with
    | .failed => True
    | .found first n =>
      0 < n ∧ n ≤ maxblocks ∧ ∀ j < n, Mapped bits m (iblock + j) (first + j)
    | .missing e => Arrives bits m iblock e ∧ m e.holder e.slot = 0 := by
  cases hpath : blockToPath bits iblock with
  | nil => simp only [lookup, hpath]
  | cons slot rest =>
    cases he : getBranch bread m .inode slot rest with
    | none => simp only [lookup, hpath, he]
    | some e =>
      obtain ⟨pre, hpre, hlead, hend⟩ := getBranch_spec he
      by_cases hzero : m e.holder e.slot = 0
      · simp only [lookup, hpath, he, hzero, ne_eq, not_true, if_false]
        exact ⟨⟨pre, hpath.trans hpre, hlead⟩, trivial⟩
      · simp only [lookup, hpath, he, ne_eq, hzero, not_false_iff, if_true]
        rw [hend hzero] at hpre
        obtain ⟨hle, hle', hboundary, hall⟩ := runLength_spec
          (fun count => m e.holder (e.slot + count) = m e.holder e.slot + count) maxblocks
          (show 1 ≤ maxblocks from hmax) (show 1 ≤ blocksToBoundary bits iblock + 1 by omega)
        refine ⟨hle, hle', fun j hj => ?_⟩
        have hread : m e.holder (e.slot + j) = m e.holder e.slot + j := by
          rcases Nat.eq_zero_or_pos j with rfl | hpos
          · rfl
          · exact of_decide_eq_true (hall j hpos hj)
        rw [Mapped, blockToPath_add hbits (by simp [hpath]) (by omega), hpath, hpre, bump_append,
          leads_append]
        refine ⟨_, hlead, ?_⟩
        rw [bump, Leads, hread]
        exact ⟨by omega, rfl⟩

/-- The allocator gives what the end of a chain lacks. -/
def Supplied (bits : Nat) (a : Allocator) (iblock maxblocks : Nat) (e : ChainEnd)
    (f : File) : Prop :=
  Gives a e.rest.length
    (blksToAllocate f.mem e maxblocks (blocksToBoundary bits iblock) + e.rest.length) f.used

/-- The section frees what it got, or links it if the end of the chain is still free. -/
lemma allocate_cases (a : Allocator) (hmax : 0 < maxblocks) (hf : IsTree bits f)
    (he : Arrives bits f.mem iblock e) (hzero : f.mem e.holder e.slot = 0) :
    ¬Supplied bits a iblock maxblocks e f ∧
      (∀ clearFails, allocate bits a clearFails iblock maxblocks e f = (f, none)) ∨
    Supplied bits a iblock maxblocks e f ∧
    ∃ new first n, Linking bits f iblock e new first n ∧ n ≤ maxblocks ∧
      ∀ clearFails, allocate bits a clearFails iblock maxblocks e f = if clearFails then
        (⟨allocBranch first n new e.rest f.mem, (linked f e new first n).used⟩, none)
      else (linked f e new first n, some (first, n)) := by
  obtain ⟨hpos, hle, hboundary, hrun⟩ :=
    blksToAllocate_spec f.mem e (blocksToBoundary bits iblock) hmax
  rw [Supplied, ← allocBlocks_isSome [] (Nat.lt_succ_self e.rest.length)]
  obtain hfail | ⟨new, first, n, halloc, hfresh, hlen, htotal⟩ :=
    allocBlocks_spec a (Nat.lt_succ_self e.rest.length) (Nat.lt_add_of_pos_left hpos)
      (show f.used = f.used ∪ ([] : List Nat).toFinset by simp) nodup_nil (by simp)
  · left
    rw [hfail]
    refine ⟨Bool.false_ne_true, fun clearFails => ?_⟩
    simp only [allocate, hfail]
  · right
    rw [halloc]
    rw [length_nil, zero_add] at hlen
    have hlink : Linking bits f iblock e new first n := by
      refine ⟨hf, he, hfresh, hlen, fun x hlow hhigh => ?_, by omega⟩
      obtain ⟨j, rfl⟩ := Nat.exists_eq_add_of_le hlow
      rcases Nat.eq_zero_or_pos j with rfl | hj
      · exact hzero
      · cases new with
        | nil =>
          rw [span] at hhigh
          exact hrun (length_eq_zero_iff.mp hlen.symm) j hj (by omega)
        | cons b new =>
          rw [span] at hhigh
          omega
    refine ⟨rfl, new, first, n, hlink, by omega, fun clearFails => ?_⟩
    simp only [allocate, halloc, spliceBranch_allocBranch hlink.holder_ne hlen]
    rfl

/-- What a call reports is what it has done. -/
def Faithful (bits iblock maxblocks : Nat) (f f' : File) : Option (Nat × Nat) → Prop
  | some (first, n) =>
    0 < n ∧ n ≤ maxblocks ∧ (∀ j < n, Mapped bits f'.mem (iblock + j) (first + j)) ∧
    (∀ j b, j < iblock ∨ iblock + n ≤ j → (Mapped bits f'.mem j b ↔ Mapped bits f.mem j b)) ∧
    ∀ b, b ∈ f'.used ↔ b ∈ f.used ∨ Reachable bits f'.mem b ∧ ¬Reachable bits f.mem b
  | none => f'.used = f.used ∧ ∀ j b, Mapped bits f'.mem j b ↔ Mapped bits f.mem j b

lemma Linking.faithful {new : List Nat} {first n : Nat}
    (hk : Linking bits f iblock e new first n) (hbits : 4 ≤ bits) (hn : n ≤ maxblocks) :
    Faithful bits iblock maxblocks f (linked f e new first n) (some (first, n)) := by
  refine ⟨hk.fresh.pos, hn, fun j hj => hk.mapped hbits hj, fun j b hj => hk.mapped_iff hbits hj,
    fun b => ⟨fun hb => ?_, ?_⟩⟩
  · rcases Finset.mem_union.mp hb with hold | hnew
    · exact .inl hold
    · rw [mem_toFinset] at hnew
      exact .inr ⟨hk.reachable hbits b hnew,
        fun hreach => hk.fresh.unused b hnew (hk.tree.inUse b hreach)⟩
  · rintro (hold | ⟨hreach, hnot⟩)
    · exact Finset.mem_union_left _ hold
    · exact Finset.mem_union_right _
        (mem_toFinset.mpr ((hk.reachable_cases hbits hreach).resolve_left hnot))

/-- A call alone is faithful, unless the chain lacks blocks, the allocator gives them, and they
cannot be cleared. -/
theorem ext2_get_blocks_faithful_iff (hbits : 4 ≤ bits) (hmax : 0 < maxblocks) (a : Allocator)
    (clearFails : Bool) (f : File) (hf : IsTree bits f) :
    Faithful bits iblock maxblocks f (getBlocks bits bread a clearFails iblock maxblocks f).1
        (getBlocks bits bread a clearFails iblock maxblocks f).2 ↔
      clearFails = false ∨ ∀ e, lookup bits bread iblock maxblocks f.mem = .missing e →
        ¬Supplied bits a iblock maxblocks e f := by
  have hrefl : Faithful bits iblock maxblocks f f none := ⟨rfl, fun _ _ => .rfl⟩
  have hspec := lookup_spec bread iblock hbits hmax f.mem
  cases hlook : lookup bits bread iblock maxblocks f.mem with
  | failed => simp [getBlocks, hlook, hrefl]
  | found first n =>
    obtain ⟨hpos, hle, hall⟩ := hlook ▸ hspec
    have hfound : Faithful bits iblock maxblocks f f (some (first, n)) :=
      ⟨hpos, hle, hall, fun _ _ _ => .rfl, fun b => ⟨.inl, fun h => h.elim id fun h =>
        absurd h.1 h.2⟩⟩
    simp [getBlocks, hlook, hfound]
  | missing e =>
    obtain ⟨harrives, hzero⟩ := hlook ▸ hspec
    simp only [getBlocks, hlook]
    obtain ⟨hnot, hfail⟩ | ⟨hsupplied, new, first, n, hk, hle, heq⟩ :=
      allocate_cases a hmax hf harrives hzero
    · rw [hfail]
      exact iff_of_true hrefl (.inr fun e' he' => by cases he'; exact hnot)
    · rw [heq]
      cases clearFails with
      | false => exact iff_of_true (hk.faithful hbits hle) (.inl rfl)
      | true =>
        -- the blocks stay in use, and nothing points to them
        refine iff_of_false (fun h => hk.used_ne h.1) ?_
        rintro (h | h)
        · cases h
        · exact h e rfl hsupplied

def emptyFile : File := ⟨fun _ _ => 0, ∅⟩

lemma emptyFile_isTree (bits : Nat) : IsTree bits emptyFile := by
  have hnil : ∀ π h, Leads emptyFile.mem .inode π h → π = [] ∧ h = .inode := by
    intro π h hl
    cases π with
    | nil => exact ⟨rfl, hl.symm⟩
    | cons o π => exact absurd rfl hl.1
  refine ⟨fun b ⟨π, _, hl⟩ => ?_, fun π σ h _ _ hπ hσ => ?_⟩
  · cases (hnil π _ hl).2
  · rw [(hnil π h hπ).1, (hnil σ h hσ).1]

def twoBlocks : Allocator where
  newBlocks := fun used count =>
    if count = 0 then none
    else if 100 ∈ used then if 101 ∈ used then none else some (101, 1)
    else some (100, 1)
  sound := by
    intro used count first n h
    split_ifs at h with hcount h100 h101
    all_goals
      cases h
      refine ⟨by omega, by omega, by omega, fun b hlow hhigh => ?_⟩
    · obtain rfl : b = 101 := by omega
      exact h101
    · obtain rfl : b = 100 := by omega
      exact h100

theorem ext2_get_blocks_faithful_first :
    IsTree 8 emptyFile ∧ Faithful 8 0 1 emptyFile
      (getBlocks 8 (fun _ => true) twoBlocks false 0 1 emptyFile).1
      (getBlocks 8 (fun _ => true) twoBlocks false 0 1 emptyFile).2 :=
  ⟨emptyFile_isTree 8, (ext2_get_blocks_faithful_iff (by decide) (by decide) twoBlocks false
    emptyFile (emptyFile_isTree 8)).mpr (.inl rfl)⟩

/-- The call fails, and the block it obtained stays in use. -/
theorem ext2_get_blocks_leaks :
    (getBlocks 8 (fun _ => true) twoBlocks true 0 1 emptyFile).2 = none ∧
      (getBlocks 8 (fun _ => true) twoBlocks true 0 1 emptyFile).1.used = {100} := by
  decide

end Calls

end R0Kernel.Ext2.GetBlocks
