import R0Kernel.Foundation.Outcome
import R0Kernel.Fs.Fat.Alloc

/-!
# The cluster cache of an inode

`fat_get_cluster` and the cache functions of `fs/fat/cache.c` with the numbers as they are in the
source: a dummy extent of `-1` goes through the same tests as a real one, the places `*fclus` and
`*dclus` are left behind on a failure too, and `BUG_ON` stops the call. Nothing invalidates the
cache between two calls, so the ids of the extents always match and are left out; blocks of the
table can be read and an extent can be allocated.
-/

namespace R0Kernel.Fat

def FAT_MAX_CACHE : Nat := 8

namespace ClusterCache

open List Option Prod Except

/-- The numbers of `struct fat_cache` and of `struct fat_cache_id`. -/
structure FatCache where
  nrContig : Int
  fcluster : Int
  dcluster : Int
  deriving DecidableEq

/-- The value returned, `*fclus` and `*dclus`. -/
structure Outcome where
  ret : Int
  fclus : Int
  dclus : Int
  deriving DecidableEq

def eio : Int := 5

/-! ### The cache, the last used extent first -/

/-- The loop of `fat_cache_lookup`; no hit is `nohit`, whose `fcluster` is zero. -/
def lookupLoop (fclus : Int) : List FatCache → Option FatCache → Int → Option FatCache × Int
  | [], hit, offset => (hit, offset)
  | p :: ps, hit, offset =>
    if p.fcluster ≤ fclus ∧ hit.elim 0 (·.fcluster) < p.fcluster then
      if p.fcluster + p.nrContig < fclus then lookupLoop fclus ps (some p) p.nrContig
      else (some p, fclus - p.fcluster)
    else lookupLoop fclus ps hit offset

variable (lru : List FatCache)

def fatCacheUpdateLru (cache : FatCache) : List FatCache :=
  cache :: lru.erase cache

def fatCacheLookup (fclus : Int) : (Option FatCache × Int) × List FatCache :=
  let found := lookupLoop fclus lru none (-1)
  (found, found.1.elim lru (fatCacheUpdateLru lru))

/-- `fat_cache_merge` on the extent with the same start, and the move to the front. -/
def fatCacheMerge (p new : FatCache) : Except Err (List FatCache) :=
  if p.dcluster ≠ new.dcluster then .error .bug
  else
    let merged := if p.nrContig < new.nrContig then { p with nrContig := new.nrContig } else p
    .ok (merged :: lru.erase p)

/-- `fat_cache_add`. A full cache gives up the extent that was used least recently. -/
def fatCacheAdd (new : FatCache) : Except Err (List FatCache) :=
  if new.fcluster = -1 then .ok lru
  else
    match lru.find? (·.fcluster == new.fcluster) with
    | some p => fatCacheMerge lru p new
    | none => if lru.length < FAT_MAX_CACHE then .ok (new :: lru) else .ok (new :: lru.dropLast)

def cacheInit (fclus dclus : Int) : FatCache := ⟨0, fclus, dclus⟩

/-- `cache_contiguous`, and `cache_init` where it fails. -/
def cacheStep (cid : FatCache) (fclus dclus : Int) : FatCache :=
  let longer := { cid with nrContig := cid.nrContig + 1 }
  if longer.dcluster + longer.nrContig = dclus then longer else cacheInit fclus dclus

/-! ### `fat_get_cluster` -/

variable (g : Geometry) (t : Table)

def entRead (fe : FatEntry) (entry : Int) : Except Err (Nat × FatEntry) :=
  if entry < 0 then .error .io else fatEntRead g t fe entry.toNat

def getClusterLoop (cluster : Int) : (fuel : Nat) → FatEntry → (fclus dclus : Int) → FatCache →
    List FatCache → Except Err (Outcome × List FatCache)
  | 0, _, _, _, _, _ => .error .fuel
  | fuel + 1, fe, fclus, dclus, cid, lru =>
    if fclus < cluster then
      -- prevent the infinite loop of cluster chain
      if g.limit < fclus then .ok (⟨-eio, fclus, dclus⟩, lru)
      else
        match entRead g t fe dclus with
        | .error _ => .ok (⟨-eio, fclus, dclus⟩, lru)
        | .ok (nr, fe) =>
          if nr = FAT_ENT_FREE then .ok (⟨-eio, fclus, dclus⟩, lru)
          else if nr = FAT_ENT_EOF then
            (fatCacheAdd lru cid).map fun lru => (⟨nr, fclus, dclus⟩, lru)
          else getClusterLoop cluster fuel fe (fclus + 1) nr (cacheStep cid (fclus + 1) nr) lru
    else (fatCacheAdd lru cid).map fun lru => (⟨0, fclus, dclus⟩, lru)

variable (start : Int)

def fatGetCluster (lru : List FatCache) (cluster : Int) : Except Err (Outcome × List FatCache) :=
  if start = 0 then .error .bug
  else if cluster = 0 then .ok (⟨0, 0, start⟩, lru)
  else
    let ((hit, offset), lru) := fatCacheLookup lru cluster
    let place := hit.elim (0, start) fun hit => (hit.fcluster + offset, hit.dcluster + offset)
    -- dummy, always not contiguous
    let cid := if offset < 0 then cacheInit (-1) (-1) else hit.getD (cacheInit (-1) (-1))
    getClusterLoop g t cluster (g.limit + 2) fatentInit place.1 place.2 cid lru

/-- The cache after some calls. -/
def run (calls : List Int) (lru : List FatCache) : Except Err (List FatCache) :=
  calls.foldlM (fun lru cluster => (fatGetCluster g t start lru cluster).map (·.2)) lru

/-! ### The chain -/

def link (d : Int) : Except Err Nat :=
  if d < FAT_START_ENT ∨ g.maxCluster ≤ d then .error .io else .ok (entGet g.bits t d.toNat)

def follow : Except Err Nat → Option Int
  | .error _ => none
  | .ok nr => if nr = FAT_ENT_FREE ∨ nr = FAT_ENT_EOF then none else some nr

/-- The clusters of the file by their numbers in it. -/
def chain (start : Int) : Nat → Option Int
  | 0 => some start
  | i + 1 => (chain start i).bind fun d => follow (link g t d)

structure FatCache.IsExtent (c : FatCache) : Prop where
  pos : 0 < c.fcluster
  nonneg : 0 ≤ c.nrContig
  run : ∀ k : Int, 0 ≤ k → k ≤ c.nrContig →
    chain g t start (c.fcluster + k).toNat = some (c.dcluster + k)

/-- The walk without a cache: the buffers it holds and the cluster it is at when it has taken some
steps. -/
def walked (start : Int) : Nat → Option (FatEntry × Int)
  | 0 => some (fatentInit, start)
  | i + 1 =>
    match walked start i with
    | none => none
    | some (fe, d) =>
      if g.limit < i then none
      else
        match entRead g t fe d with
        | .error _ => none
        | .ok (nr, fe) => (follow (.ok nr)).map (fe, ·)

/-- The walk without a cache reads every link as the table holds it. -/
def ReadsTrue : Prop :=
  ∀ i ≤ g.limit, ∀ fe d, walked g t start i = some (fe, d) →
    (entRead g t fe d).map (·.1) = link g t d

/-- After any calls that began with an empty cache, every extent is a part of the chain, and a
further call returns, with what it returns for an empty cache. -/
def Transparent : Prop :=
  ∀ calls, ∃ lru, run g t start calls [] = .ok lru ∧ (∀ c ∈ lru, c.IsExtent g t start) ∧
    ∀ cluster, ∃ out lru' lru₀, fatGetCluster g t start lru cluster = .ok (out, lru') ∧
      fatGetCluster g t start [] cluster = .ok (out, lru₀)

variable {g t} {seq : Nat → Option Int} {cluster d offset : Int} {fe : FatEntry} {i : Nat}
  {cid c : FatCache} {lru lru' : List FatCache} {out : Outcome}

/-! ### Reading a link -/

/-- Whatever the buffers, a read fails for the same clusters. -/
lemma entRead_cases (fe : FatEntry) (d : Int) :
    (link g t d = .error .io ∧ entRead g t fe d = .error .io) ∨
      ∃ nr nr' w, link g t d = .ok nr ∧ entRead g t fe d = .ok (nr', w) := by
  unfold entRead link fatEntRead
  by_cases hneg : d < 0
  · simp [hneg, hneg.trans (show (0 : Int) < (FAT_START_ENT : Int) by decide)]
  · obtain ⟨n, rfl⟩ := Int.eq_ofNat_of_zero_le (not_lt.mp hneg)
    rw [if_neg hneg]
    norm_cast
    split_ifs <;> simp

lemma entRead_of_uncrossed (hready : fe.Ready g)
    (hcrossed : fe.bhs ≠ .none → ¬Crossed g fe.entry d.toNat) :
    (entRead g t fe d).map (·.1) = link g t d ∧
      ∀ nr w, entRead g t fe d = .ok (nr, w) → w.Good g ∧ w.entry = d.toNat := by
  obtain ⟨hlink, hread⟩ | ⟨nr, nr', w, hlink, hread⟩ := entRead_cases (g := g) (t := t) fe d
  · rw [hlink, hread]
    exact ⟨rfl, fun nr w h => nomatch h⟩
  · have hrange : ¬(d < FAT_START_ENT ∨ g.maxCluster ≤ d) := by
      intro hout
      rw [link, if_pos hout] at hlink
      exact nomatch hlink
    have hneg : ¬d < 0 := fun hneg => hrange (.inl (hneg.trans (by decide)))
    obtain ⟨w', hread', hgood, hentry⟩ := fatEntRead_spec (t := t) hready
      (by omega : FAT_START_ENT ≤ d.toNat) (by omega) hcrossed
    rw [link, if_neg hrange, entRead, if_neg hneg, hread']
    refine ⟨rfl, fun nr w h => ?_⟩
    obtain ⟨-, rfl⟩ := mk.inj (ok.inj h)
    exact ⟨hgood, hentry⟩

/-- Without buffers the link that is read is the one in the table. -/
lemma entRead_init :
    (entRead g t fatentInit d).map (·.1) = link g t d ∧
      ∀ nr w, entRead g t fatentInit d = .ok (nr, w) → w.Good g ∧ w.entry = d.toNat :=
  entRead_of_uncrossed (.inl rfl) fun h => absurd rfl h

lemma follow_eq_some {result : Except Err Nat} :
    follow result = some d ↔
      ∃ nr : Nat, result = .ok nr ∧ nr ≠ FAT_ENT_FREE ∧ nr ≠ FAT_ENT_EOF ∧ d = nr := by
  cases result with
  | error err => simp [follow]
  | ok nr =>
    simp only [follow, ite_none_left_eq_some, not_or, some.injEq, ok.injEq]
    constructor
    · rintro ⟨⟨hfree, heof⟩, rfl⟩
      exact ⟨nr, rfl, hfree, heof, rfl⟩
    · rintro ⟨nr', rfl, hfree, heof, rfl⟩
      exact ⟨⟨hfree, heof⟩, rfl⟩

/-! ### Extents of a walk -/

/-- The extent is a part of a walk, which gives the clusters by their numbers in the file. -/
def FatCache.Runs (seq : Nat → Option Int) (c : FatCache) : Prop :=
  ∃ f n : Nat, c.fcluster = f ∧ c.nrContig = n ∧ 0 < f ∧
    ∀ k ≤ n, seq (f + k) = some (c.dcluster + k)

/-- The extent that a walk collects at a place: the dummy, or one that ends there. -/
def Ends (seq : Nat → Option Int) (i : Nat) (cid : FatCache) : Prop :=
  cid = cacheInit (-1) (-1) ∧ i = 0 ∨ cid.Runs seq ∧ cid.fcluster + cid.nrContig = i

def Valid (seq : Nat → Option Int) (lru : List FatCache) : Prop := ∀ c ∈ lru, c.Runs seq

lemma Valid.mono {seq' : Nat → Option Int} (h : Valid seq lru)
    (hseq : ∀ i d, seq i = some d → seq' i = some d) : Valid seq' lru := by
  intro c hc
  obtain ⟨f, n, hf, hn, hpos, hrun⟩ := h c hc
  exact ⟨f, n, hf, hn, hpos, fun k hk => hseq _ _ (hrun k hk)⟩

lemma runs_cacheInit (h : seq (i + 1) = some d) : (cacheInit (i + 1) d).Runs seq := by
  refine ⟨i + 1, 0, rfl, rfl, Nat.succ_pos i, fun k hk => ?_⟩
  obtain rfl := Nat.le_zero.mp hk
  simpa [cacheInit] using h

/-- Collecting the next cluster; the dummy is not contiguous with any. -/
lemma Ends.step (h : Ends seq i cid) (hnext : seq (i + 1) = some d) (hd : d ≠ 0) :
    Ends seq (i + 1) (cacheStep cid (i + 1) d) := by
  have hinit : Ends seq (i + 1) (cacheInit (i + 1) d) :=
    .inr ⟨runs_cacheInit hnext, by simp [cacheInit]⟩
  rw [cacheStep]
  split_ifs with hcontig
  · right
    rcases h with ⟨rfl, -⟩ | ⟨⟨f, n, hf, hn, hpos, hrun⟩, hend⟩
    · simp only [cacheInit] at hcontig
      omega
    · refine ⟨⟨f, n + 1, hf, by simp [hn], hpos, fun k hk => ?_⟩, by push_cast; omega⟩
      rcases Nat.lt_or_eq_of_le hk with hlt | rfl
      · exact hrun k (Nat.lt_succ_iff.mp hlt)
      · have hplace : f + (n + 1) = i + 1 := by omega
        rw [hplace, hnext, ← hcontig, hn]
        norm_cast
  · exact hinit

lemma Valid.update (h : Valid seq lru) (hc : c.Runs seq) : Valid seq (fatCacheUpdateLru lru c) :=
  forall_mem_cons.mpr ⟨hc, fun c' hc' => h c' (mem_of_mem_erase hc')⟩

/-- Adding an extent of the walk: one with the same start begins at the same cluster. -/
lemma Valid.add (h : Valid seq lru) (hnew : c = cacheInit (-1) (-1) ∨ c.Runs seq) :
    ∃ lru', fatCacheAdd lru c = .ok lru' ∧ Valid seq lru' := by
  rcases hnew with rfl | hnew
  · exact ⟨lru, rfl, h⟩
  obtain ⟨f, n, hf, hn, hpos, hrun⟩ := id hnew
  rw [fatCacheAdd, if_neg (by omega)]
  cases hfind : lru.find? (·.fcluster == c.fcluster) with
  | none =>
    split_ifs
    · exact ⟨_, rfl, forall_mem_cons.mpr ⟨hnew, h⟩⟩
    · exact ⟨_, rfl, forall_mem_cons.mpr ⟨hnew, fun c' hc' => h c' (mem_of_mem_dropLast hc')⟩⟩
  | some p =>
    obtain ⟨f', n', hf', hn', hpos', hrun'⟩ := h p (mem_of_find?_eq_some hfind)
    have hsame : p.fcluster = c.fcluster := by simpa using find?_some hfind
    obtain rfl : f' = f := by omega
    have hstart : p.dcluster = c.dcluster := by
      simpa using (hrun' 0 (Nat.zero_le _)).symm.trans (hrun 0 (Nat.zero_le _))
    refine ⟨_, if_neg (not_not.mpr hstart), forall_mem_cons.mpr ⟨?_, ?_⟩⟩
    · split_ifs with hlonger
      · exact ⟨f', n, hf', hn, hpos, fun k hk => by simpa [hstart] using hrun k hk⟩
      · exact ⟨f', n', hf', hn', hpos, hrun'⟩
    · exact fun c' hc' => h c' (mem_of_mem_erase hc')

/-- What a lookup finds: nothing, or a part of the walk at or before the cluster. -/
lemma lookupLoop_spec (cluster : Int) {hit : Option FatCache} (hlru : Valid seq lru)
    (hhit : (hit = none ∧ offset = -1) ∨ ∃ c, hit = some c ∧ c.Runs seq ∧
      c.fcluster ≤ cluster ∧ c.fcluster + c.nrContig < cluster ∧ offset = c.nrContig) :
    lookupLoop cluster lru hit offset = (none, -1) ∨
      ∃ c offset', lookupLoop cluster lru hit offset = (some c, offset') ∧ c.Runs seq ∧
        0 ≤ offset' ∧ offset' ≤ c.nrContig ∧ c.fcluster + offset' ≤ cluster ∧
        (c.fcluster + c.nrContig = c.fcluster + offset' ∨ cluster = c.fcluster + offset') := by
  induction lru generalizing hit offset with
  | nil =>
    rcases hhit with ⟨rfl, rfl⟩ | ⟨c, rfl, hc, hle, hlt, rfl⟩
    · exact .inl rfl
    · obtain ⟨f, n, hf, hn, -⟩ := id hc
      exact .inr ⟨c, _, rfl, hc, by omega, le_rfl, hlt.le, .inl rfl⟩
  | cons p ps ih =>
    obtain ⟨hp, hps⟩ := forall_mem_cons.mp hlru
    rw [lookupLoop]
    split_ifs with hbetter hshort
    · exact ih hps (.inr ⟨p, rfl, hp, hbetter.1, hshort, rfl⟩)
    · exact .inr ⟨p, _, rfl, hp, by omega, by omega, by omega, .inr (by omega)⟩
    · exact ih hps hhit

/-! ### A call -/

variable {start : Int}

lemma fatGetCluster_miss (hstart : start ≠ 0) (hcluster : cluster ≠ 0)
    (hlookup : lookupLoop cluster lru none (-1) = (none, -1)) :
    fatGetCluster g t start lru cluster = getClusterLoop g t cluster (g.limit + 2)
      fatentInit 0 start
      (cacheInit (-1) (-1)) lru := by
  have hcache : fatCacheLookup lru cluster = ((none, -1), lru) := by
    simp only [fatCacheLookup, hlookup, elim_none]
  rw [fatGetCluster, if_neg hstart, if_neg hcluster, hcache]
  rfl

lemma fatGetCluster_hit (hstart : start ≠ 0) (hcluster : cluster ≠ 0)
    (hlookup : lookupLoop cluster lru none (-1) = (some c, offset)) (hoffset : 0 ≤ offset) :
    fatGetCluster g t start lru cluster = getClusterLoop g t cluster (g.limit + 2) fatentInit
      (c.fcluster + offset) (c.dcluster + offset) c (fatCacheUpdateLru lru c) := by
  have hcache : fatCacheLookup lru cluster = ((some c, offset), fatCacheUpdateLru lru c) := by
    simp only [fatCacheLookup, hlookup, elim_some]
  rw [fatGetCluster, if_neg hstart, if_neg hcluster, hcache]
  simp only [if_neg (not_lt.mpr hoffset), elim_some, getD_some]

/-- Walking the chain to a cluster of the file, by the links that the table holds. -/
inductive Arrives (g : Geometry) (t : Table) (cluster : Int) : Nat → Int → Outcome → Prop
  | here {i : Nat} {d : Int} (h : cluster ≤ i) : Arrives g t cluster i d ⟨0, i, d⟩
  | limit {i : Nat} {d : Int} (h : i < cluster) (hlimit : g.limit < i) :
      Arrives g t cluster i d ⟨-eio, i, d⟩
  | broken {i : Nat} {d : Int} {err : Err} (h : i < cluster) (hlimit : i ≤ g.limit)
      (hlink : link g t d = .error err) :
      Arrives g t cluster i d ⟨-eio, i, d⟩
  | free {i : Nat} {d : Int} (h : i < cluster) (hlimit : i ≤ g.limit)
      (hlink : link g t d = .ok FAT_ENT_FREE) :
      Arrives g t cluster i d ⟨-eio, i, d⟩
  | eof {i : Nat} {d : Int} (h : i < cluster) (hlimit : i ≤ g.limit)
      (hlink : link g t d = .ok FAT_ENT_EOF) :
      Arrives g t cluster i d ⟨FAT_ENT_EOF, i, d⟩
  | step {i : Nat} {d d' : Int} {out : Outcome} (h : i < cluster) (hlimit : i ≤ g.limit)
      (hfollow : follow (link g t d) = some d') (hnext : Arrives g t cluster (i + 1) d' out) :
      Arrives g t cluster i d out

/-- At each place of a walk before the cluster, a call that holds such buffers reads the link in the
table, and is then at the next place with such buffers. -/
def ReadsAlong (g : Geometry) (t : Table) (seq : Nat → Option Int) (cluster : Int)
    (Held : Nat → FatEntry → Prop) : Prop :=
  ∀ i d fe, seq i = some d → Held i fe → i < cluster → i ≤ g.limit →
    (entRead g t fe d).map (·.1) = link g t d ∧
      ∀ nr w d', entRead g t fe d = .ok (nr, w) → follow (.ok nr) = some d' →
        seq (i + 1) = some d' ∧ Held (i + 1) w

section

variable {Held : Nat → FatEntry → Prop} (hreads : ReadsAlong g t seq cluster Held)

include hreads

lemma getClusterLoop_arrives (fuel : Nat) (hd : seq i = some d) (hheld : Held i fe)
    (hcid : Ends seq i cid ∨ cid.Runs seq ∧ cluster ≤ i) (hlru : Valid seq lru)
    (hfuel : g.limit + 2 ≤ fuel + i) (hpos : 0 < fuel) :
    ∃ out lru', getClusterLoop g t cluster fuel fe i d cid lru = .ok (out, lru') ∧
      Arrives g t cluster i d out ∧ Valid seq lru' := by
  induction fuel generalizing i d fe cid with
  | zero => exact absurd hpos (lt_irrefl 0)
  | succ fuel ih =>
    have hnew : cid = cacheInit (-1) (-1) ∨ cid.Runs seq := by
      rcases hcid with (⟨rfl, -⟩ | ⟨hruns, -⟩) | ⟨hruns, -⟩
      · exact .inl rfl
      · exact .inr hruns
      · exact .inr hruns
    obtain ⟨lru', hadd, hlru'⟩ := hlru.add hnew
    rw [getClusterLoop]
    by_cases hlt : (i : Int) < cluster
    swap
    · rw [if_neg hlt, hadd]
      exact ⟨_, lru', rfl, .here (not_lt.mp hlt), hlru'⟩
    rw [if_pos hlt]
    by_cases hlimit : g.limit < i
    · rw [if_pos (by exact_mod_cast hlimit)]
      exact ⟨_, lru, rfl, .limit hlt hlimit, hlru⟩
    rw [if_neg (by exact_mod_cast hlimit)]
    have hle := not_lt.mp hlimit
    obtain ⟨hlink, hstep⟩ := hreads i d fe hd hheld hlt hle
    cases hread : entRead g t fe d with
    | error err =>
      rw [hread] at hlink
      exact ⟨_, lru, rfl, .broken hlt hle hlink.symm, hlru⟩
    | ok result =>
      obtain ⟨nr, w⟩ := result
      rw [hread] at hlink
      have hok : link g t d = .ok nr := hlink.symm
      dsimp only
      by_cases hfree : nr = FAT_ENT_FREE
      · rw [if_pos hfree]
        exact ⟨_, lru, rfl, .free hlt hle (hfree ▸ hok), hlru⟩
      rw [if_neg hfree]
      by_cases heof : nr = FAT_ENT_EOF
      · rw [hadd, heof]
        exact ⟨_, lru', rfl, .eof hlt hle (heof ▸ hok), hlru'⟩
      rw [if_neg heof]
      have hfollow : follow (.ok nr) = some (nr : Int) := by simp [follow, hfree, heof]
      obtain ⟨hnext, hheld'⟩ := hstep nr w nr hread hfollow
      have hends : Ends seq i cid := hcid.resolve_right fun h => by omega
      have hne : (nr : Int) ≠ 0 := by exact_mod_cast hfree
      obtain ⟨out, lru'', hloop, harrives, hvalid⟩ :=
        ih hnext hheld' (.inl (hends.step hnext hne)) (by omega) (by omega)
      exact ⟨out, lru'', hloop, .step hlt hle (hok ▸ hfollow) harrives, hvalid⟩

/-- One call with a cache of extents of the walk goes on from one of its places. -/
lemma fatGetCluster_arrives (hinit : ∀ i d, seq i = some d → Held i fatentInit)
    (hzero : seq 0 = some start) (hstart : start ≠ 0) (hlru : Valid seq lru) :
    ∃ out lru' i d, fatGetCluster g t start lru cluster = .ok (out, lru') ∧ seq i = some d ∧
      (i ≤ cluster ∨ i = 0) ∧ Arrives g t cluster i d out ∧ Valid seq lru' := by
  by_cases hcluster : cluster = 0
  · rw [fatGetCluster, if_neg hstart, if_pos hcluster]
    exact ⟨_, lru, 0, start, rfl, hzero, .inr rfl, .here (by simp [hcluster]), hlru⟩
  obtain hnone | ⟨c, offset, hsome, hc, hoffset, hle, hplace, hends⟩ :=
    lookupLoop_spec cluster hlru (.inl ⟨rfl, rfl⟩)
  · rw [fatGetCluster_miss hstart hcluster hnone]
    obtain ⟨out, lru', hloop, harrives, hvalid⟩ := getClusterLoop_arrives hreads (g.limit + 2) hzero
      (hinit 0 start hzero) (.inl (.inl ⟨rfl, rfl⟩)) hlru (by omega) (by omega)
    exact ⟨out, lru', 0, start, hloop, hzero, .inr rfl, harrives, hvalid⟩
  · rw [fatGetCluster_hit hstart hcluster hsome hoffset]
    obtain ⟨f, n, hf, hn, hpos, hrun⟩ := id hc
    obtain ⟨k, rfl⟩ := Int.eq_ofNat_of_zero_le hoffset
    have hd := hrun k (by omega)
    have hplace' : c.fcluster + (k : Int) = ((f + k : Nat) : Int) := by omega
    have hcid : Ends seq (f + k) c ∨ c.Runs seq ∧ cluster ≤ (f + k : Nat) := by
      rcases hends with hend | hend
      · exact .inl (.inr ⟨hc, by omega⟩)
      · exact .inr ⟨hc, by omega⟩
    rw [hplace']
    obtain ⟨out, lru', hloop, harrives, hvalid⟩ := getClusterLoop_arrives hreads (g.limit + 2) hd
      (hinit _ _ hd) hcid (hlru.update hc) (by omega) (by omega)
    exact ⟨out, lru', f + k, _, hloop, hd, .inl (by omega), harrives, hvalid⟩

end

end ClusterCache

end R0Kernel.Fat
