import R0Kernel.Fs.Fat.ClusterCache

/-!
# Adding to the cluster cache while it is invalidated

`fat_cache_add` gives up the lock of the cache while it allocates an extent, so other calls run
between its two halves. A state counts the invalidations that have completed, and an extent
remembers at which counts the lookups ran that its numbers come from; the code reads neither.
Allocation succeeds.
-/

namespace R0Kernel.Fat.CacheRace

open List Option

def FAT_CACHE_VALID : BitVec 32 := 0

structure FatCache where
  nrContig : Int
  fcluster : Int
  dcluster : Int
  /-- The counts at the lookups. -/
  epochs : List Nat
  deriving DecidableEq

/-- `struct fat_cache_id`, with the count at the lookup that filled it. -/
structure FatCacheId where
  id : BitVec 32
  nrContig : Int
  fcluster : Int
  dcluster : Int
  epoch : Option Nat
  deriving DecidableEq

def FatCacheId.extent (new : FatCacheId) : FatCache :=
  ⟨new.nrContig, new.fcluster, new.dcluster, new.epoch.toList⟩

structure Inode where
  /-- The last used first. -/
  cacheLru : List FatCache
  nrCaches : Int
  cacheValidId : BitVec 32
  mmuPrivate : BitVec 64
  /-- The calls of `fat_cache_add` that allocate. -/
  sleeping : List FatCacheId
  /-- What lookups have filled in. -/
  cids : List FatCacheId
  invals : Nat
  /-- A call took the list head for an extent. -/
  tookEmpty : Bool
  deriving DecidableEq

def Inode.init : Inode := ⟨[], 0, FAT_CACHE_VALID + 1, 0, [], [], 0, false⟩

/-- The list head of an empty list taken for an extent: the numbers of the extent go to the fields
of the inode behind it, the last to the lower half of `mmu_private`, and the list stays empty. -/
def Inode.takeHead (s : Inode) (new : FatCacheId) : Inode :=
  { s with
    nrCaches := new.nrContig, cacheValidId := BitVec.ofInt 32 new.fcluster,
    mmuPrivate := s.mmuPrivate.extractLsb' 32 32 ++ BitVec.ofInt 32 new.dcluster,
    tookEmpty := true }

/-- `fat_cache_merge` and the move to the front; no result if its `BUG_ON` is hit. -/
def fatCacheMerge (lru : List FatCache) (new : FatCacheId) : Option (Option (List FatCache)) :=
  match lru.find? (·.fcluster == new.fcluster) with
  | none => some none
  | some p =>
    if p.dcluster ≠ new.dcluster then none
    else
      let merged := if p.nrContig < new.nrContig then
        { p with nrContig := new.nrContig, epochs := new.epoch.toList ++ p.epochs } else p
      some (some (merged :: lru.erase p))

/-- `fat_cache_add` up to the allocation. -/
def fatCacheAdd (s : Inode) (new : FatCacheId) : Option Inode :=
  if new.fcluster = -1 then some s
  else if new.id ≠ FAT_CACHE_VALID ∧ new.id ≠ s.cacheValidId then some s
  else
    match fatCacheMerge s.cacheLru new with
    | none => none
    | some (some lru) => some { s with cacheLru := lru }
    | some none =>
      if s.nrCaches < FAT_MAX_CACHE then
        some { s with nrCaches := s.nrCaches + 1, sleeping := new :: s.sleeping }
      else if s.cacheLru = [] then some (s.takeHead new)
      else some { s with cacheLru := new.extent :: s.cacheLru.dropLast }

/-- The rest of it. -/
def fatCacheAddAllocated (s : Inode) (new : FatCacheId) : Option Inode :=
  let awake := s.sleeping.erase new
  match fatCacheMerge s.cacheLru new with
  | none => none
  | some (some lru) =>
    some { s with cacheLru := lru, nrCaches := s.nrCaches - 1, sleeping := awake }
  | some none => some { s with cacheLru := new.extent :: s.cacheLru, sleeping := awake }

def nextId (id : BitVec 32) : BitVec 32 :=
  if id + 1 = FAT_CACHE_VALID then id + 1 + 1 else id + 1

def fatCacheInvalInode (s : Inode) : Inode :=
  { s with
    cacheLru := [], nrCaches := s.nrCaches - s.cacheLru.length,
    cacheValidId := nextId s.cacheValidId, invals := s.invals + 1 }

/-- The extent of a call: one that `cache_init` made, or one of a lookup, perhaps longer by now. -/
def Inode.Offers (s : Inode) (new : FatCacheId) : Prop :=
  (new.id = FAT_CACHE_VALID ∧ new.epoch = none) ∨
    ∃ c ∈ s.cids, c.nrContig ≤ new.nrContig ∧ new = { c with nrContig := new.nrContig }

instance (s : Inode) (new : FatCacheId) : Decidable (s.Offers new) :=
  inferInstanceAs (Decidable (_ ∨ _))

/-- What runs with the lock held. Which extent a lookup hits depends on the cluster it is for. -/
inductive Event where
  | lookup (hit : FatCache)
  | add (new : FatCacheId)
  | allocated (new : FatCacheId)
  | inval

def step (s : Inode) : Event → Option Inode
  | .lookup hit =>
    if hit ∈ s.cacheLru then
      some { s with
        cacheLru := hit :: s.cacheLru.erase hit
        cids := ⟨s.cacheValidId, hit.nrContig, hit.fcluster, hit.dcluster,
          some s.invals⟩ :: s.cids }
    else none
  | .add new => if s.Offers new then fatCacheAdd s new else none
  | .allocated new => if new ∈ s.sleeping then fatCacheAddAllocated s new else none
  | .inval => some (fatCacheInvalInode s)

/-! ### Calls with nothing between their halves -/

/-- The extent without the lookups it comes from. -/
@[simps]
def FatCache.numbers (p : FatCache) : ClusterCache.FatCache := ⟨p.nrContig, p.fcluster, p.dcluster⟩

def addAlone (s : Inode) (new : FatCacheId) : Option Inode :=
  (fatCacheAdd s new).bind fun s' =>
    if new ∈ s'.sleeping then fatCacheAddAllocated s' new else some s'

lemma erase_eq_eraseP_of_find? {α : Type} [DecidableEq α] {l : List α} {q : α → Bool} {x : α}
    (h : l.find? q = some x) : l.erase x = l.eraseP q := by
  induction l with
  | nil => rfl
  | cons y l ih =>
    by_cases hy : q y
    · obtain rfl : y = x := by simpa [hy] using h
      simp [hy]
    · have hne : y ≠ x := fun heq => hy (heq ▸ find?_some h)
      rw [find?_cons_of_neg hy] at h
      rw [erase_cons_tail (by simpa using hne), eraseP_cons_of_neg hy, ih h]

/-- Such a call does to the extents what it does in the model without invalidations. -/
lemma addAlone_numbers {s : Inode} {new : FatCacheId}
    (hid : new.id = FAT_CACHE_VALID ∨ new.id = s.cacheValidId)
    (hcount : s.nrCaches = s.cacheLru.length) (hawake : new ∉ s.sleeping) :
    (addAlone s new).map (·.cacheLru.map FatCache.numbers) =
      (ClusterCache.fatCacheAdd (s.cacheLru.map FatCache.numbers) new.extent.numbers).toOption := by
  have hvalid : ¬(new.id ≠ FAT_CACHE_VALID ∧ new.id ≠ s.cacheValidId) := by tauto
  have hfind : (s.cacheLru.map FatCache.numbers).find? (·.fcluster == new.fcluster) =
      (s.cacheLru.find? (·.fcluster == new.fcluster)).map FatCache.numbers := find?_map ..
  have hnew : new.extent.numbers = ⟨new.nrContig, new.fcluster, new.dcluster⟩ := rfl
  rw [addAlone, fatCacheAdd, fatCacheMerge, if_neg hvalid, ClusterCache.fatCacheAdd, hnew, hfind]
  by_cases hinit : new.fcluster = -1
  · simp [hinit, hawake, Except.toOption]
  cases hp : s.cacheLru.find? (·.fcluster == new.fcluster) with
  | none =>
    by_cases hroom : s.cacheLru.length < FAT_MAX_CACHE
    · simp [fatCacheAddAllocated, fatCacheMerge, hp, hinit, hcount, hroom, hnew, Except.toOption]
    · have hne : s.cacheLru ≠ [] := fun heq => hroom (by rw [heq]; decide)
      simp [hinit, hcount, hroom, hne, hawake, hnew, Except.toOption]
  | some p =>
    rw [hp] at hfind
    have herase : (s.cacheLru.map FatCache.numbers).erase p.numbers =
        (s.cacheLru.erase p).map FatCache.numbers := by
      rw [erase_eq_eraseP_of_find? hp, erase_eq_eraseP_of_find? hfind, eraseP_map]
      rfl
    by_cases hbug : p.dcluster = new.dcluster <;> by_cases hlonger : p.nrContig < new.nrContig <;>
      simp [ClusterCache.fatCacheMerge, hinit, hbug, hlonger, hawake, herase, Except.toOption]
    rfl

/-! ### What is kept -/

/-- No extent comes from a lookup before a completed invalidation, the counter is right, and no
extent was taken from an empty list. -/
structure Kept (s : Inode) : Prop where
  fresh : ∀ p ∈ s.cacheLru, ∀ e ∈ p.epochs, e = s.invals
  counted : s.nrCaches = s.cacheLru.length + s.sleeping.length
  taken : s.tookEmpty = false

/-- A call starts while less than `FAT_MAX_CACHE` others allocate and before the ids have come round
since its lookup; nothing is invalidated between its lookup and the end of its allocation. -/
def Undisturbed (s : Inode) : Event → Prop
  | .add new => s.sleeping.length < FAT_MAX_CACHE ∧ ∀ e ∈ new.epoch, s.invals < e + (2 ^ 32 - 1)
  | .allocated new => ∀ e ∈ new.epoch, e = s.invals
  | _ => True

instance decidableUndisturbed (s : Inode) : (event : Event) → Decidable (Undisturbed s event)
  | .add _ => inferInstanceAs (Decidable (_ ∧ _))
  | .allocated new => inferInstanceAs (Decidable (∀ e ∈ new.epoch, e = s.invals))
  | .lookup _ => .isTrue trivial
  | .inval => .isTrue trivial

/-- The states that calls reach whose steps are all of one kind. -/
inductive Reaches (allowed : Inode → Event → Prop) : Inode → Prop
  | init : Reaches allowed .init
  | step {s s' : Inode} {event : Event} (h : Reaches allowed s) (hallowed : allowed s event)
      (hstep : step s event = some s') : Reaches allowed s'

/-! ### The invariant -/

def IdAt (id : BitVec 32) (count : Nat) : Prop := id.toNat = count % (2 ^ 32 - 1) + 1

lemma IdAt.next {id : BitVec 32} {count : Nat} (h : IdAt id count) :
    IdAt (nextId id) (count + 1) := by
  have hadd : (id + 1).toNat = (id.toNat + 1) % 2 ^ 32 := BitVec.toNat_add ..
  have hzero : id + 1 = FAT_CACHE_VALID ↔ (id + 1).toNat = 0 := BitVec.toNat_inj.symm
  unfold IdAt at h ⊢
  unfold nextId
  split
  next hwrap =>
    have hsum := hzero.mp hwrap
    rw [hwrap]
    change 1 = _
    omega
  next hwrap =>
    have hsum := mt hzero.mpr hwrap
    omega

/-- Ids of the same number that are less than a round apart are of one count. -/
lemma IdAt.unique {id : BitVec 32} {e count : Nat} (h : IdAt id e) (h' : IdAt id count)
    (hle : e ≤ count) (hround : count < e + (2 ^ 32 - 1)) : e = count := by
  unfold IdAt at h h'
  omega

structure Ok (s : Inode) : Prop extends Kept s where
  validId : IdAt s.cacheValidId s.invals
  cids : ∀ c ∈ s.cids, ∃ e ≤ s.invals, c.epoch = some e ∧ IdAt c.id e

variable {s s' : Inode} {new : FatCacheId} {lru : List FatCache}

lemma fatCacheMerge_some (h : fatCacheMerge s.cacheLru new = some (some lru))
    (hs : ∀ p ∈ s.cacheLru, ∀ e ∈ p.epochs, e = s.invals) (hnew : ∀ e ∈ new.epoch, e = s.invals) :
    (∀ p ∈ lru, ∀ e ∈ p.epochs, e = s.invals) ∧ lru.length = s.cacheLru.length := by
  unfold fatCacheMerge at h
  split at h
  · cases h
  next p hfind =>
    have hp := mem_of_find?_eq_some hfind
    split at h
    · cases h
    · obtain rfl := some.inj (some.inj h)
      refine ⟨forall_mem_cons.mpr
        ⟨fun e he => ?_, fun q hq => hs q (mem_of_mem_erase hq)⟩, ?_⟩
      · split at he
        · rcases mem_append.mp he with he | he
          · exact hnew e (mem_toList.mp he)
          · exact hs p hp e he
        · exact hs p hp e he
      · rw [length_cons, length_erase_of_mem hp]
        exact Nat.sub_add_cancel (length_pos_of_mem hp)

lemma extent_fresh (hnew : ∀ e ∈ new.epoch, e = s.invals)
    (hs : ∀ p ∈ lru, ∀ e ∈ p.epochs, e = s.invals) :
    ∀ p ∈ new.extent :: lru, ∀ e ∈ p.epochs, e = s.invals :=
  forall_mem_cons.mpr ⟨fun e he => hnew e (mem_toList.mp he), hs⟩

section

variable (hs : Ok s)

include hs

/-- An id that passes the test was looked up since the last invalidation. -/
lemma Ok.fresh_of_valid (hoffers : s.Offers new)
    (hround : ∀ e ∈ new.epoch, s.invals < e + (2 ^ 32 - 1))
    (hvalid : ¬(new.id ≠ FAT_CACHE_VALID ∧ new.id ≠ s.cacheValidId)) :
    ∀ e ∈ new.epoch, e = s.invals := by
  intro e he
  rcases hoffers with ⟨-, hnone⟩ | ⟨c, hc, -, hnew⟩
  · rw [hnone] at he
    cases he
  · obtain ⟨e', hle, hepoch, hid⟩ := hs.cids c hc
    rw [hnew] at hvalid he
    obtain rfl : e' = e := some.inj (hepoch.symm.trans he)
    have hne : c.id ≠ FAT_CACHE_VALID := fun hzero => by
      rw [hzero] at hid
      exact absurd hid (Nat.succ_ne_zero _).symm
    have heq : c.id = s.cacheValidId := by
      by_contra hother
      exact hvalid ⟨hne, hother⟩
    rw [heq] at hid
    exact hid.unique hs.validId hle (hround e' (hnew ▸ he))

lemma Ok.add (hoffers : s.Offers new) (hfew : s.sleeping.length < FAT_MAX_CACHE)
    (hround : ∀ e ∈ new.epoch, s.invals < e + (2 ^ 32 - 1)) (hadd : fatCacheAdd s new = some s') :
    Ok s' := by
  unfold fatCacheAdd at hadd
  split at hadd
  · obtain rfl := some.inj hadd
    exact hs
  · split at hadd
    · obtain rfl := some.inj hadd
      exact hs
    next hvalid =>
      have hnew := hs.fresh_of_valid hoffers hround hvalid
      have hcounted := hs.counted
      split at hadd
      · cases hadd
      next lru hmerge =>
        obtain rfl := some.inj hadd
        obtain ⟨hfresh, hlength⟩ := fatCacheMerge_some hmerge hs.fresh hnew
        exact { hs with fresh := hfresh, counted := hlength ▸ hcounted }
      next =>
        split at hadd
        · obtain rfl := some.inj hadd
          refine { hs with counted := ?_ }
          simp only [length_cons]
          omega
        next hfull =>
          split at hadd
          next hempty =>
            simp only [hempty, length_nil] at hcounted
            omega
          next hne =>
            obtain rfl := some.inj hadd
            refine { hs with fresh := extent_fresh hnew fun p hp => ?_, counted := ?_ }
            · exact hs.fresh p (mem_of_mem_dropLast hp)
            · simp only [length_cons, length_dropLast]
              omega

lemma Ok.allocated (hsleeps : new ∈ s.sleeping) (hnew : ∀ e ∈ new.epoch, e = s.invals)
    (hadd : fatCacheAddAllocated s new = some s') : Ok s' := by
  have hcounted := hs.counted
  have hpos := length_pos_of_mem hsleeps
  have hawake := length_erase_of_mem hsleeps
  unfold fatCacheAddAllocated at hadd
  split at hadd
  · cases hadd
  next lru hmerge =>
    obtain rfl := some.inj hadd
    obtain ⟨hfresh, hlength⟩ := fatCacheMerge_some hmerge hs.fresh hnew
    refine { hs with fresh := hfresh, counted := ?_ }
    dsimp only
    omega
  next =>
    obtain rfl := some.inj hadd
    refine { hs with fresh := extent_fresh hnew hs.fresh, counted := ?_ }
    simp only [length_cons]
    omega

lemma Ok.lookup {hit : FatCache} (hhit : hit ∈ s.cacheLru) :
    Ok { s with
      cacheLru := hit :: s.cacheLru.erase hit
      cids := ⟨s.cacheValidId, hit.nrContig, hit.fcluster, hit.dcluster,
        some s.invals⟩ :: s.cids } := by
  refine { hs with
    fresh := forall_mem_cons.mpr
      ⟨hs.fresh hit hhit, fun p hp => hs.fresh p (mem_of_mem_erase hp)⟩
    counted := ?_
    cids := forall_mem_cons.mpr ⟨⟨s.invals, le_refl _, rfl, hs.validId⟩, hs.cids⟩ }
  have hpos := length_pos_of_mem hhit
  have hcounted := hs.counted
  simp only [length_cons, length_erase_of_mem hhit]
  omega

lemma Ok.inval : Ok (fatCacheInvalInode s) where
  fresh := fun _ hp => absurd hp not_mem_nil
  counted := by
    have hcounted := hs.counted
    simp only [fatCacheInvalInode, length_nil]
    omega
  taken := hs.taken
  validId := hs.validId.next
  cids := fun c hc => by
    obtain ⟨e, hle, he⟩ := hs.cids c hc
    exact ⟨e, Nat.le_succ_of_le hle, he⟩

lemma Ok.step {event : Event} (hundisturbed : Undisturbed s event)
    (hstep : step s event = some s') : Ok s' := by
  cases event with
  | lookup hit =>
    rw [CacheRace.step, ite_none_right_eq_some] at hstep
    obtain ⟨hhit, heq⟩ := hstep
    obtain rfl := some.inj heq
    exact hs.lookup hhit
  | add new =>
    rw [CacheRace.step, ite_none_right_eq_some] at hstep
    exact hs.add hstep.1 hundisturbed.1 hundisturbed.2 hstep.2
  | allocated new =>
    rw [CacheRace.step, ite_none_right_eq_some] at hstep
    exact hs.allocated hstep.1 hundisturbed hstep.2
  | inval =>
    obtain rfl := some.inj hstep
    exact hs.inval

end

lemma ok_init : Ok .init where
  fresh := fun _ hp => absurd hp not_mem_nil
  counted := rfl
  taken := rfl
  validId := rfl
  cids := fun _ hc => absurd hc not_mem_nil

lemma Reaches.ok (h : Reaches Undisturbed s) : Ok s := by
  induction h with
  | init => exact ok_init
  | step _ hundisturbed hstep ih => exact ih.step hundisturbed hstep

/-- Calls that are not disturbed keep the cache right in every state they reach. -/
theorem fat_cache_kept_of_undisturbed {s : Inode} (h : Reaches Undisturbed s) : Kept s :=
  h.ok.toKept

def run (s : Inode) : List Event → Option Inode
  | [] => some s
  | event :: rest => (step s event).bind (run · rest)

lemma Reaches.run {allowed : Inode → Event → Prop} {events : List Event} (h : Reaches allowed s)
    (hallowed : ∀ s event, allowed s event) (hrun : run s events = some s') :
    Reaches allowed s' := by
  induction events generalizing s with
  | nil =>
    obtain rfl := some.inj hrun
    exact h
  | cons event rest ih =>
    obtain ⟨s₁, hstep, hrest⟩ := bind_eq_some_iff.mp hrun
    exact ih (h.step (hallowed s event) hstep) hrest

/-- The extent that `cache_init` makes. -/
def madeAt (fcluster : Int) : FatCacheId := ⟨FAT_CACHE_VALID, 0, fcluster, fcluster, none⟩

/-- A looked up extent that is invalidated while it is added again. It was used for another cluster
first, by a call that found the cache full; one of the other calls then made room. -/
def staleRun : List Event :=
  let old : FatCacheId := ⟨1, 0, 10, 10, some 0⟩
  [Event.add (madeAt 10), .allocated (madeAt 10), .lookup (madeAt 10).extent] ++
    List.replicate 7 (Event.add (madeAt 20)) ++
    [Event.add (madeAt 20), .allocated (madeAt 20), .add old, .inval, .allocated old]

/-- Both can happen: an extent from before an invalidation comes on the list, and a ninth call takes
the head of the empty list for an extent while eight allocate, after which the counter, the id and
the size of the inode are wrong. -/
theorem fat_cache_disturbed :
    (∃ s, Reaches (fun _ _ => True) s ∧ ∃ p ∈ s.cacheLru, 0 ∈ p.epochs ∧ s.invals = 1) ∧
      ∃ s, Reaches (fun _ _ => True) s ∧ s.tookEmpty = true ∧ s.nrCaches = 0 ∧
        s.cacheLru.length + s.sleeping.length = 8 ∧ s.cacheValidId = 10 ∧ s.mmuPrivate = 10 := by
  have hstale : (run .init staleRun).map (fun s => (s.cacheLru, s.invals)) =
      some ([⟨0, 10, 10, [0]⟩], 1) := by
    decide
  obtain ⟨s, hrun, hs⟩ := map_eq_some_iff.mp hstale
  obtain ⟨hlru, hinvals⟩ := Prod.mk.inj hs
  have hninth : run .init (List.replicate 9 (.add (madeAt 10))) =
      some ⟨[], 0, 10, 10, List.replicate 8 (madeAt 10), [], 0, true⟩ := by
    decide
  refine ⟨⟨s, Reaches.init.run (fun _ _ => trivial) hrun, ?_⟩,
    _, Reaches.init.run (fun _ _ => trivial) hninth, rfl, rfl, rfl, rfl, rfl⟩
  rw [hlru]
  exact ⟨_, mem_singleton_self _, mem_singleton_self 0, hinvals⟩

/-- An extent is added, looked up, made longer and invalidated, and another one is added. -/
theorem fat_cache_kept_of_undisturbed_run :
    ∃ s, Reaches Undisturbed s ∧ s.invals = 1 ∧ s.cids.length = 1 ∧ s.nrCaches = 1 ∧ Kept s := by
  have hadd : Reaches Undisturbed _ :=
    Reaches.init.step (show Undisturbed _ (.add (madeAt 10)) by decide) rfl
  have hmade := hadd.step (show Undisturbed _ (.allocated (madeAt 10)) by decide) rfl
  have hlook := hmade.step (show Undisturbed _ (.lookup (madeAt 10).extent) from trivial) rfl
  have hlonger := hlook.step (show Undisturbed _ (.add ⟨1, 2, 10, 10, some 0⟩) by decide) rfl
  have hinval := hlonger.step (show Undisturbed _ .inval from trivial) rfl
  have hlast := hinval.step (show Undisturbed _ (.add (madeAt 20)) by decide) rfl
  exact ⟨_, hlast, rfl, rfl, rfl, fat_cache_kept_of_undisturbed hlast⟩

end R0Kernel.Fat.CacheRace
