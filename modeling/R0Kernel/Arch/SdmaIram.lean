import R0Kernel.Foundation.ListHead

/-!
# Blocks of internal RAM for SDMA

The free blocks are on a list whose links are kept in the blocks themselves, and a byte for each
block says that it has been given out. What a caller has is not known to the pool; the model keeps
it beside.
-/

namespace R0Kernel.SdmaIram

open ListHead List Function

def IRAM_UNIT_SIZE : Nat := 512

def LIST_POISON1 : Nat := 0x00100100

def LIST_POISON2 : Nat := 0x00200200

/-- The memory that is set aside, `IRAM_POOL_SIZE` blocks from `IRAM_VIRT_BASE` on, an address of
the kernel. -/
structure Region where
  base : Nat
  poolSize : Nat
  kernel : 0xC0000000 ≤ base
  aligned : base % IRAM_UNIT_SIZE = 0
  inside : base + IRAM_UNIT_SIZE * poolSize ≤ 2 ^ 32

/-- `iram_free_list`, with `none` as its head and addresses as elements, and `iram_pool_flag`. -/
structure Pool where
  list : Heads (Option Nat)
  flag : Nat → Bool

/-- No memory is mapped at the values that `list_del` leaves behind. -/
def poisoned (a : Option Nat) : Bool := a = some LIST_POISON1 || a = some LIST_POISON2

/-- `list_del`, which faults when it follows a link of an entry that has been taken off already. -/
def listDel (m : Heads (Option Nat)) (entry : Option Nat) : Option (Heads (Option Nat)) :=
  if poisoned (m.next entry) || poisoned (m.prev entry) then none
  else some (((m.del (m.prev entry) (m.next entry)).setNext entry (some LIST_POISON1)).setPrev
    entry (some LIST_POISON2))

def Region.block (r : Region) (i : Nat) : Nat := r.base + i * IRAM_UNIT_SIZE

/-- The index of the block at an address, as an unsigned difference. -/
def Region.index (r : Region) (buf : Nat) : Nat := (buf + 2 ^ 32 - r.base) % 2 ^ 32 / IRAM_UNIT_SIZE

/-- `sdma_iram_malloc`, where `buf` is what the variable of this name holds at the start; `none` is
a fault. -/
def sdmaIramMalloc (r : Region) (size buf : Nat) (s : Pool) : Option (Nat × Pool) :=
  if size > IRAM_UNIT_SIZE then some (buf, s)
  else match s.list.next none with
    | none => some (buf - buf % IRAM_UNIT_SIZE, s)
    | some buf => do
      let list ← listDel s.list (some buf)
      if r.poolSize ≤ r.index buf then return (0, { s with list })
      return (buf - buf % IRAM_UNIT_SIZE, ⟨list, update s.flag (r.index buf) true⟩)

def sdmaIramFree (r : Region) (buf : Nat) (s : Pool) : Pool where
  list := s.list.addTail (some (buf - buf % IRAM_UNIT_SIZE)) none
  flag := if s.flag (r.index buf) then update s.flag (r.index buf) false else s.flag

/-- `iram_pool_init`, over what the memory holds before. -/
def iramPoolInit (r : Region) (m : Heads (Option Nat)) : Pool where
  list := (range r.poolSize).foldl (fun m i => m.addTail (some (r.block i)) none) (m.init none)
  flag := fun _ => false

/-! ### Runs -/

/-- The pool, and the blocks that callers have, each with the size that was asked for. -/
structure State where
  pool : Pool
  held : List (Nat × Nat)

inductive Event where
  | malloc (size buf : Nat)
  | free (buf : Nat)
  /-- Callers write to the blocks they have. -/
  | write (m : Heads (Option Nat))

def step (r : Region) (s : State) : Event → Option State
  | .malloc size buf => do
    let (buf, pool) ← sdmaIramMalloc r size buf s.pool
    return ⟨pool, if buf = 0 then s.held else (buf, size) :: s.held⟩
  | .free buf => some ⟨sdmaIramFree r buf s.pool, s.held.filter (·.1 ≠ buf)⟩
  | .write m => some ⟨{ s.pool with list := m }, s.held⟩

/-- A variable that stays unset holds zero, only blocks that are held are freed, and what is written
stays inside such blocks. -/
def Event.Allowed (s : State) : Event → Prop
  | .malloc size buf => size ≤ IRAM_UNIT_SIZE ∧ s.pool.list.next none ≠ none ∨ buf = 0
  | .free buf => buf ∈ s.held.map (·.1)
  | .write m => ∀ a, (∀ b, a = some b → b ∉ s.held.map (·.1)) →
      m.next a = s.pool.list.next a ∧ m.prev a = s.pool.list.prev a

inductive Reaches (r : Region) : State → Prop
  | init (m : Heads (Option Nat)) : Reaches r ⟨iramPoolInit r m, []⟩
  | step {s s' : State} {e : Event} (h : Reaches r s) (he : e.Allowed s)
      (hstep : step r s e = some s') : Reaches r s'

/-! ### The free list -/

/-- The list as its head and its elements see it, whatever other blocks hold. -/
def FreeList (m : Heads (Option Nat)) (l : List Nat) : Prop :=
  ∃ m', Holds m' l ∧ ∀ a, (∀ b, a = some b → b ∈ l) → m.next a = m'.next a ∧ m.prev a = m'.prev a

section FreeList

variable {m m₁ : Heads (Option Nat)} {l : List Nat} {x : Nat}

section

variable (h : FreeList m l)

include h

lemma FreeList.nodup : l.Nodup := by
  obtain ⟨m', hholds, -⟩ := h
  exact hholds.nodup

lemma FreeList.next_head : m.next none = l.head? := by
  obtain ⟨m', hholds, hagree⟩ := h
  rw [(hagree none (by simp)).1, hholds.next_head]

lemma FreeList.congr (hsame : ∀ a, (∀ b, a = some b → b ∈ l) →
    m₁.next a = m.next a ∧ m₁.prev a = m.prev a) : FreeList m₁ l := by
  obtain ⟨m', hholds, hagree⟩ := h
  refine ⟨m', hholds, fun a ha => ?_⟩
  rw [(hsame a ha).1, (hsame a ha).2]
  exact hagree a ha

lemma FreeList.addTail (hx : x ∉ l) :
    FreeList (m.addTail (some x) none) (l ++ [x]) := by
  obtain ⟨m', hholds, hagree⟩ := h
  have hadd : Holds m' (l ++ []) := by rwa [append_nil]
  refine ⟨_, hadd.add (by rwa [append_nil]), fun a ha => ?_⟩
  have hlast := (hagree none (by simp)).2
  by_cases hax : a = some x
  · subst hax
    simp [Heads.addTail, Heads.add, Heads.setNext, Heads.setPrev, update_apply, hlast]
  · have hsame := hagree a fun b hb => by
      grind
    simp [Heads.addTail, Heads.add, Heads.setNext, Heads.setPrev, update_apply, hlast, hax,
      hsame]

end

lemma FreeList.first (h : FreeList m (x :: l)) :
    m.next (some x) = l.head? ∧ m.prev (some x) = none := by
  obtain ⟨m', hholds, hagree⟩ := h
  have hx := hagree (some x) (by simp)
  have hnext : m'.next (some x) = l.head? := (show Holds m' ([] ++ x :: l) from hholds).next
  have hhead : m'.next none = some x := hholds.next_head
  obtain ⟨σ, rfl, -⟩ := hholds.exists_perm
  exact ⟨hx.1.trans hnext, hx.2.trans (σ.symm_apply_eq.mpr hhead.symm)⟩

/-- The first block of a list whose blocks are all in the kernel comes off without a fault. -/
lemma FreeList.del (h : FreeList m (x :: l)) (hl : ∀ b ∈ l, 0xC0000000 ≤ b) :
    ∃ m₁, listDel m (some x) = some m₁ ∧ FreeList m₁ l := by
  have hnext : poisoned (m.next (some x)) = false := by
    rw [h.first.1]
    cases l with
    | nil => rfl
    | cons y l =>
      have hy := hl y mem_cons_self
      simp only [poisoned, head?_cons, Option.some_inj, LIST_POISON1, LIST_POISON2]
      grind
  have hprev : poisoned (m.prev (some x)) = false := by
    rw [h.first.2]
    rfl
  refine ⟨_, by rw [listDel, hnext, hprev]; rfl, ?_⟩
  obtain ⟨m', hholds, hagree⟩ := h
  refine ⟨_, (show Holds m' ([] ++ x :: l) from hholds).del, fun a ha => ?_⟩
  have hout : x ∉ l := (nodup_cons.mp hholds.nodup).1
  have hx := hagree (some x) (by simp)
  have hsame := hagree a fun b hb => mem_cons_of_mem _ (ha b hb)
  have hax : a ≠ some x := fun heq => hout (ha x heq)
  simp [Heads.delInit, Heads.del, Heads.init, Heads.setNext, Heads.setPrev,
    update_apply, hx, hsame, hax]

end FreeList

/-! ### What callers have -/

/-- Every block is on the free list or held, and neither more than once. -/
structure Kept (r : Region) (s : State) (free : List Nat) : Prop where
  list : FreeList s.pool.list free
  nodup : (s.held.map (·.1)).Nodup
  apart : ∀ a ∈ free, a ∉ s.held.map (·.1)
  blocks : ∀ a, a ∈ free ∨ a ∈ s.held.map (·.1) ↔ ∃ i < r.poolSize, a = r.block i
  sizes : ∀ h ∈ s.held, h.2 ≤ IRAM_UNIT_SIZE

section Kept

variable {r : Region} {s : State} {free : List Nat} {i size buf : Nat} {m : Heads (Option Nat)}

lemma block_mod (r : Region) (i : Nat) : r.block i - r.block i % IRAM_UNIT_SIZE = r.block i := by
  rw [Region.block, Nat.add_mul_mod_self_right, r.aligned, Nat.sub_zero]

lemma index_block (hi : i < r.poolSize) : r.index (r.block i) = i := by
  have hinside := r.inside
  simp only [Region.index, Region.block, IRAM_UNIT_SIZE] at hinside ⊢
  omega

lemma kernel_block (r : Region) (i : Nat) : 0xC0000000 ≤ r.block i :=
  Nat.le_add_right_of_le r.kernel

lemma freeList_init (r : Region) (m : Heads (Option Nat)) (n : Nat) :
    FreeList ((range n).foldl (fun m i => m.addTail (some (r.block i)) none) (m.init none))
      ((range n).map r.block) := by
  induction n with
  | zero =>
    refine ⟨_, holds_nil, fun a ha => ?_⟩
    obtain rfl : a = none := Option.eq_none_iff_forall_not_mem.mpr fun b hb => nomatch ha b hb
    simp [Heads.init, Heads.setNext, Heads.setPrev]
  | succ n ih =>
    rw [range_succ, foldl_append, map_append]
    refine ih.addTail fun hmem => ?_
    obtain ⟨k, hk, heq⟩ := mem_map.mp hmem
    have hlt := mem_range.mp hk
    simp only [Region.block, IRAM_UNIT_SIZE] at heq
    omega

lemma kept_init (r : Region) (m : Heads (Option Nat)) :
    Kept r ⟨iramPoolInit r m, []⟩ ((range r.poolSize).map r.block) where
  list := freeList_init r m r.poolSize
  nodup := nodup_nil
  apart := by simp
  blocks a := by simp [eq_comm]
  sizes := by simp

section

variable (h : Kept r s free)

include h

/-- A variable that is set to zero is returned so, unless there is a block to return. -/
lemma Kept.malloc_null (he : (Event.malloc size buf).Allowed s)
    (hnone : IRAM_UNIT_SIZE < size ∨ free = []) :
    sdmaIramMalloc r size buf s.pool = some (0, s.pool) := by
  rw [sdmaIramMalloc]
  rcases hnone with hsize | rfl
  · obtain rfl : buf = 0 := he.resolve_left fun hroom => hroom.1.not_gt hsize
    rw [if_pos hsize]
  · have hhead : s.pool.list.next none = none := h.list.next_head
    obtain rfl : buf = 0 := he.resolve_left fun hroom => hroom.2 hhead
    simp [hhead]

lemma Kept.malloc (he : (Event.malloc size buf).Allowed s) :
    ∃ s' free, step r s (.malloc size buf) = some s' ∧ Kept r s' free := by
  by_cases hnone : IRAM_UNIT_SIZE < size ∨ free = []
  · rw [step, h.malloc_null he hnone]
    exact ⟨s, free, rfl, h⟩
  obtain ⟨hsize, hfree⟩ := not_or.mp hnone
  obtain ⟨x, l, rfl⟩ := exists_cons_of_ne_nil hfree
  obtain ⟨i, hi, rfl⟩ := (h.blocks x).mp (.inl mem_cons_self)
  have hl : ∀ b ∈ l, 0xC0000000 ≤ b := fun b hb => by
    obtain ⟨k, -, rfl⟩ := (h.blocks b).mp (.inl (mem_cons_of_mem _ hb))
    exact kernel_block r k
  obtain ⟨list, hdel, hlist⟩ := h.list.del hl
  have hmalloc : step r s (.malloc size buf) =
      some ⟨⟨list, update s.pool.flag i true⟩, (r.block i, size) :: s.held⟩ := by
    have hhead : s.pool.list.next none = some (r.block i) := h.list.next_head
    have hne : r.block i ≠ 0 := fun hzero => by
      have := kernel_block r i
      omega
    simp [step, sdmaIramMalloc, if_neg hsize, hhead, hdel, index_block hi, hi.not_ge, block_mod,
      hne]
  refine ⟨_, l, hmalloc, hlist, ?_, fun a ha => ?_, fun a => ?_, ?_⟩
  · exact nodup_cons.mpr ⟨h.apart _ mem_cons_self, h.nodup⟩
  · have hne : a ≠ r.block i := fun heq => (nodup_cons.mp h.list.nodup).1 (heq ▸ ha)
    simpa [hne] using h.apart a (mem_cons_of_mem _ ha)
  · rw [← h.blocks a]
    simp only [map_cons, mem_cons]
    tauto
  · exact forall_mem_cons.mpr ⟨not_lt.mp hsize, h.sizes⟩

lemma Kept.release (hbuf : buf ∈ s.held.map (·.1)) :
    ∃ s' free, step r s (.free buf) = some s' ∧ Kept r s' free := by
  obtain ⟨i, hi, rfl⟩ := (h.blocks buf).mp (.inr hbuf)
  have hmem (a : Nat) : a ∈ (s.held.filter (·.1 ≠ r.block i)).map (·.1) ↔
      a ∈ s.held.map (·.1) ∧ a ≠ r.block i := by
    simp only [mem_map, mem_filter]
    grind
  refine ⟨_, free ++ [r.block i], rfl, ?_, ?_, fun a ha => ?_, fun a => ?_, fun held hheld => ?_⟩
  · simp only [sdmaIramFree, block_mod]
    exact h.list.addTail fun hin => h.apart _ hin hbuf
  · exact h.nodup.sublist (filter_sublist.map _)
  · rw [hmem]
    rintro ⟨hheld, hne⟩
    exact (mem_append.mp ha).elim (fun hfree => h.apart a hfree hheld)
      fun hlast => hne (mem_singleton.mp hlast)
  · rw [← h.blocks a]
    by_cases ha : a = r.block i
    · simp [ha, hbuf]
    · simp [ha]
  · exact h.sizes held (mem_of_mem_filter hheld)

lemma Kept.write (he : (Event.write m).Allowed s) :
    Kept r ⟨{ s.pool with list := m }, s.held⟩ free where
  list := h.list.congr fun a ha => he a fun b hb => h.apart b (ha b hb)
  nodup := h.nodup
  apart := h.apart
  blocks := h.blocks
  sizes := h.sizes

lemma Kept.step {e : Event} (he : e.Allowed s) :
    ∃ s' free, step r s e = some s' ∧ Kept r s' free := by
  cases e with
  | malloc size buf => exact h.malloc he
  | free buf => exact h.release he
  | write m => exact ⟨_, free, rfl, h.write he⟩

end

/-- As long as unset variables hold zero and no block is freed twice, no call faults, every block is
free or held by one caller, what is held is large enough, and `NULL` is returned when there is
nothing to return. -/
theorem sdma_iram_kept (r : Region) (s : State) (h : Reaches r s) :
    ∃ free, Kept r s free ∧ (∀ e : Event, e.Allowed s → (step r s e).isSome) ∧
      ∀ size buf, (Event.malloc size buf).Allowed s → IRAM_UNIT_SIZE < size ∨ free = [] →
        sdmaIramMalloc r size buf s.pool = some (0, s.pool) := by
  suffices hkept : ∃ free, Kept r s free by
    obtain ⟨free, hkept⟩ := hkept
    refine ⟨free, hkept, fun e he => ?_, fun size buf he hnone => hkept.malloc_null he hnone⟩
    obtain ⟨s', -, hstep, -⟩ := hkept.step he
    exact Option.isSome_of_eq_some hstep
  induction h with
  | init m => exact ⟨_, kept_init r m⟩
  | step h he hstep ih =>
    obtain ⟨free, hkept⟩ := ih
    obtain ⟨s₁, free', hstep', hkept'⟩ := hkept.step he
    cases hstep.symm.trans hstep'
    exact ⟨free', hkept'⟩

end Kept

def smallest : Region where
  base := 0xF8000000
  poolSize := 4
  kernel := by decide
  aligned := by decide
  inside := by decide

/-- One block is given out, freed and followed by the next. -/
theorem sdma_iram_kept_run : ∃ s, Reaches smallest s ∧ s.held = [(0xF8000200, 256)] ∧
    ∃ free, Kept smallest s free := by
  have hmalloc := (Reaches.init (r := smallest) ⟨id, id⟩).step (e := .malloc 512 7)
    (.inl ⟨by decide, by decide⟩) rfl
  have hfree := hmalloc.step (e := .free 0xF8000000)
    (show 0xF8000000 ∈ [(0xF8000000, 512)].map (·.1) by decide) rfl
  have hreaches := hfree.step (e := .malloc 256 0) (.inr rfl) rfl
  obtain ⟨free, hkept, -⟩ := sdma_iram_kept smallest _ hreaches
  exact ⟨_, hreaches, by decide, free, hkept⟩

/-- A request that is too large gives back what was on the stack. A block that has been freed twice
is linked to itself: it is given out and stays the first of the list, and the next call faults. -/
theorem sdma_iram_given_twice :
    let p := 0xF8000000
    let pool := iramPoolInit smallest ⟨id, id⟩
    let malloc := Event.malloc 512 0
    (sdmaIramMalloc smallest 513 7 pool).map (·.1) = some 7 ∧
      ([malloc, .free p, .free p, malloc, malloc, malloc, malloc].foldlM (step smallest)
        ⟨pool, []⟩).map
          (fun s => (s.held.map (·.1), s.pool.list.next none, (step smallest s malloc).isNone)) =
        some ([p, p + 1536, p + 1024, p + 512], some p, true) := by
  decide +kernel

end R0Kernel.SdmaIram
