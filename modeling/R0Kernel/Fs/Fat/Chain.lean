import R0Kernel.Fs.Fat.ClusterCache

/-!
# Cluster chains of a volume

`fat_chain_add`, `fat_add_cluster` and `fat_free` on the inodes of a volume. A volume is consistent
when its inodes have chains of clusters with nothing in common and the count of free clusters is
right. It stays so under the operations on chains that can be walked: those that are not longer than
the limit of `fat_get_cluster` and in which no entry across two blocks of a twelve-bit table is
followed by one inside the first of the blocks.
-/

namespace R0Kernel.Fat

open LinkChain Function List Option ClusterCache

/-- The table, and the first cluster and the cache of every inode. -/
structure Volume (Ino : Type) extends Vol where
  start : Ino → Nat
  caches : Ino → List FatCache

variable {Ino : Type} [DecidableEq Ino] (g : Geometry)

def Volume.setCaches (v : Volume Ino) (i : Ino) (caches : List FatCache) : Volume Ino :=
  { v with caches := Function.update v.caches i caches }

@[simp]
lemma Volume.setCaches_table (v : Volume Ino) (i : Ino) (caches : List FatCache) :
    (v.setCaches i caches).table = v.table := rfl

@[simp]
lemma Volume.setCaches_start (v : Volume Ino) (i : Ino) (caches : List FatCache) :
    (v.setCaches i caches).start = v.start := rfl

def Volume.setStart (v : Volume Ino) (i : Ino) (start : Nat) : Volume Ino :=
  { v with start := Function.update v.start i start }

def Volume.setTable (v : Volume Ino) (table : Table) : Volume Ino := { v with table := table }

def Volume.setVol (v : Volume Ino) (vol : Vol) : Volume Ino := { v with toVol := vol }

def fatChainAdd (i : Ino) (newDclus : Nat) (v : Volume Ino) : Except Err Unit × Volume Ino :=
  if v.start i = 0 then (.ok (), v.setStart i newDclus)
  else
    match fatGetCluster g v.table (v.start i) (v.caches i) FAT_ENT_EOF with
    | .error err => (.error err, v)
    | .ok (found, caches) =>
      let v := v.setCaches i caches
      if found.ret < 0 then (.error .io, v)
      else
        match entRead g v.table fatentInit found.dclus with
        | .error err => (.error err, v)
        | .ok (_, fe) => (.ok (), v.setTable (entPutAt g v.table fe newDclus))

def fatAddCluster (i : Ino) (v : Volume Ino) : Except Err Unit × Volume Ino :=
  match fatAllocClusters g 1 v.toVol with
  | (.error err, vol) => (.error err, v.setVol vol)
  | (.ok clusters, vol) =>
    let cluster := clusters.headD 0
    match fatChainAdd g i cluster (v.setVol vol) with
    | (.ok (), v) => (.ok (), v)
    | (.error err, v) => (.error err, v.setVol (fatFreeClusters g cluster v.toVol).2)

def freeRest (v : Volume Ino) (freeStart : Nat) : Except Err Unit × Volume Ino :=
  let (result, vol) := fatFreeClusters g freeStart v.toVol
  (result, v.setVol vol)

/-- `fat_free` for `skip` other than zero: write a new end mark, and get the remaining chain. -/
def freeBehind (i : Ino) (skip : Nat) (v : Volume Ino) : Except Err Unit × Volume Ino :=
  match fatGetCluster g v.table (v.start i) (v.caches i) (skip - 1 : Nat) with
  | .error err => (.error err, v)
  | .ok (found, caches) =>
    let v := v.setCaches i caches
    if found.ret < 0 then (.error .io, v)
    else if found.ret = FAT_ENT_EOF then (.ok (), v)
    else
      match entRead g v.table fatentInit found.dclus with
      | .error err => (.error err, v)
      | .ok (ret, fe) =>
        if ret = FAT_ENT_EOF then (.ok (), v)
        else if ret = FAT_ENT_FREE then (.error .io, v)
        else freeRest g (v.setTable (entPutAt g v.table fe FAT_ENT_EOF)) ret

def fatFree (i : Ino) (skip : Nat) (v : Volume Ino) : Except Err Unit × Volume Ino :=
  if v.start i = 0 then (.ok (), v)
  else
    let freeStart := v.start i
    let v := v.setCaches i []
    if skip = 0 then freeRest g (v.setStart i 0) freeStart else freeBehind g i skip v

/-! ### Consistent volumes -/

/-- The clusters of a chain by their numbers in the file. -/
def places (l : List Nat) (i : Nat) : Option Int := l[i]?.map Nat.cast

/-- The chains of the inodes of a volume: each is a chain of clusters from `i_start` to an end mark,
no two have a cluster in common, and the superblock and the caches are right about them. -/
structure Consistent (v : Volume Ino) (chains : Ino → List Nat) : Prop where
  chain : ∀ i, IsClusterChain g v.table (chains i)
  start : ∀ i, v.start i = (chains i).headD 0
  disjoint : ∀ i j, i ≠ j → (chains i).Disjoint (chains j)
  counted : Counted g v.toVol
  caches : ∀ i, Valid (places (chains i)) (v.caches i)

structure Walkable (l : List Nat) : Prop where
  uncrossed : Uncrossed g l
  length_le : l.length ≤ g.limit + 1

variable {g} {v : Volume Ino} {chains : Ino → List Nat} {i : Ino}

variable {l : List Nat} {c d skip : Nat} {t : Table} {vol : Vol} {caches : List FatCache}
  {start : Nat} {v' : Volume Ino} {r : List Nat}

/-! ### Finding a cluster -/

lemma places_eq_some {k : Nat} {x : Int} : places l k = some x ↔ ∃ c, l[k]? = some c ∧ x = c := by
  simp [places, eq_comm]

lemma places_append (r : List Nat) {k : Nat} {x : Int} (h : places l k = some x) :
    places (l ++ r) k = some x := by
  obtain ⟨c, hc, rfl⟩ := places_eq_some.mp h
  obtain ⟨hlt, -⟩ := List.getElem?_eq_some_iff.mp hc
  exact places_eq_some.mpr ⟨c, by rw [getElem?_append_left hlt, hc], rfl⟩

lemma Uncrossed.of_getElem? (h : Uncrossed g l) {i a b : Nat} (ha : l[i]? = some a)
    (hb : l[i + 1]? = some b) : ¬Crossed g a b := by
  obtain ⟨hi, rfl⟩ := List.getElem?_eq_some_iff.mp ha
  obtain ⟨hi', rfl⟩ := List.getElem?_eq_some_iff.mp hb
  exact List.IsChain.getElem h i hi'

lemma link_of_getElem? (hchain : IsClusterChain g t l) {k : Nat} (hk : l[k]? = some c) :
    link g t c = .ok (l[k + 1]?.getD FAT_ENT_EOF) := by
  obtain ⟨hlow, hhigh⟩ := hchain.range c (mem_of_getElem? hk)
  rw [link, if_neg (by omega), Int.toNat_natCast, hchain.linked.next_of_getElem? hk]

/-- The place that a link leads to is the next of the chain. -/
lemma follow_of_getElem? (hchain : IsClusterChain g t l) {k : Nat} {x : Int} (hk : l[k]? = some c)
    (hfollow : follow (link g t c) = some x) : places l (k + 1) = some x := by
  rw [link_of_getElem? hchain hk] at hfollow
  obtain ⟨nr, hnr, -, heof, rfl⟩ := follow_eq_some.mp hfollow
  cases hnext : l[k + 1]? with
  | none => simp_all
  | some c' => simp_all [places]

/-- A walk of a chain that is not longer than the limit finds the cluster, or the end of the chain
where the chain is shorter. -/
lemma ClusterCache.Arrives.of_chain (hchain : IsClusterChain g t l)
    (hbad : g.maxCluster ≤ g.bits.bad)
    (hlimit : l.length ≤ g.limit + 1) {cluster k : Nat} {x : Int} {out : Outcome}
    (h : Arrives g t cluster k x out) (hx : places l k = some x) (hk : k ≤ cluster) :
    ∃ d : Nat, l[min cluster (l.length - 1)]? = some d ∧ out =
      ⟨if cluster < l.length then 0 else FAT_ENT_EOF, (min cluster (l.length - 1) : Nat), d⟩ := by
  induction h with
  | @here k x hle =>
    obtain ⟨d, hd, rfl⟩ := places_eq_some.mp hx
    obtain ⟨hlt, -⟩ := List.getElem?_eq_some_iff.mp hd
    obtain rfl : k = cluster := by omega
    have hmin : min k (l.length - 1) = k := by omega
    exact ⟨d, hmin.symm ▸ hd, by rw [hmin, if_pos hlt]⟩
  | @limit k x hlt hbeyond =>
    obtain ⟨d, hd, -⟩ := places_eq_some.mp hx
    have := (List.getElem?_eq_some_iff.mp hd).1
    omega
  | broken hlt hle hlink =>
    obtain ⟨d, hd, rfl⟩ := places_eq_some.mp hx
    rw [link_of_getElem? hchain hd] at hlink
    cases hlink
  | free hlt hle hlink =>
    obtain ⟨d, hd, rfl⟩ := places_eq_some.mp hx
    rw [link_of_getElem? hchain hd, ← hchain.linked.next_of_getElem? hd] at hlink
    exact absurd (Except.ok.inj hlink) (links_ne_free hchain (mem_of_getElem? hd))
  | @eof k x hlt hle hlink =>
    obtain ⟨d, hd, rfl⟩ := places_eq_some.mp hx
    obtain ⟨hk', -⟩ := List.getElem?_eq_some_iff.mp hd
    rw [link_of_getElem? hchain hd] at hlink
    cases hnext : l[k + 1]? with
    | none =>
      have hend := getElem?_eq_none_iff.mp hnext
      have hmin : min cluster (l.length - 1) = k := by omega
      exact ⟨d, hmin.symm ▸ hd, by rw [hmin, if_neg (by omega)]⟩
    | some c =>
      rw [hnext, getD_some] at hlink
      have := lt_eof hbad (hchain.range c (mem_of_getElem? hnext)).2
      exact absurd (Except.ok.inj hlink) (ne_of_lt this)
  | step hlt hle hfollow _ ih =>
    obtain ⟨d, hd, rfl⟩ := places_eq_some.mp hx
    exact ih (follow_of_getElem? hchain hd hfollow) (by omega)

/-- What is added to the cache are runs of the part that was walked. -/
lemma fatGetCluster_spec (hbad : g.maxCluster ≤ g.bits.bad) {cluster n : Nat}
    (hchain : IsClusterChain g t l) (hwalk : Walkable g l) (hn : cluster < n)
    (hcaches : Valid (places (l.take n)) caches) (hstart : l.head? = some start) :
    ∃ (d : Nat) (caches' : List FatCache), fatGetCluster g t start caches cluster =
        .ok (⟨if cluster < l.length then 0 else FAT_ENT_EOF, (min cluster (l.length - 1) : Nat), d⟩,
          caches') ∧
      l[min cluster (l.length - 1)]? = some d ∧ Valid (places (l.take n)) caches' := by
  have hzero : l[0]? = some start := by rwa [← head?_eq_getElem?]
  have hpos := (hchain.range start (mem_of_getElem? hzero)).1
  -- the buffers that a walk of the chain holds
  have hreads : ReadsAlong g t (places (l.take n)) cluster fun k fe => fe.Ready g ∧
      ∀ c, l[k]? = some c → fe.bhs ≠ .none → ¬Crossed g fe.entry c := by
    intro k x fe hx hheld hlt _
    obtain ⟨c, hc, rfl⟩ := places_eq_some.mp hx
    rw [getElem?_take_of_lt (by omega)] at hc
    obtain ⟨hlink, hgood⟩ := entRead_of_uncrossed (t := t) (d := c) hheld.1 (hheld.2 c hc)
    refine ⟨hlink, fun nr w x' hread hfollow => ?_⟩
    rw [hread] at hlink
    obtain ⟨hw, hentry⟩ := hgood nr w hread
    have hnext := follow_of_getElem? hchain hc ((congrArg follow hlink).symm.trans hfollow)
    obtain ⟨c', hc', rfl⟩ := places_eq_some.mp hnext
    refine ⟨places_eq_some.mpr ⟨c', by rwa [getElem?_take_of_lt (by omega)], rfl⟩,
      .inr hw.framed, fun b hb _ => ?_⟩
    rw [hentry, Int.toNat_natCast]
    exact hwalk.uncrossed.of_getElem? hc hb
  obtain ⟨out, caches', k, x, hget, hx, hk, harrives, hvalid⟩ := fatGetCluster_arrives hreads
    (fun _ _ _ => ⟨.inl rfl, fun _ _ hbhs => absurd rfl hbhs⟩)
    (places_eq_some.mpr ⟨start, by rwa [getElem?_take_of_lt (by omega)], rfl⟩)
    (by exact_mod_cast Nat.ne_of_gt (lt_of_lt_of_le (by decide) hpos)) hcaches
  obtain ⟨c, hc, rfl⟩ := places_eq_some.mp hx
  have hplace : places l k = some (c : Int) :=
    places_eq_some.mpr ⟨c, by rwa [getElem?_take_of_lt (by omega)] at hc, rfl⟩
  obtain ⟨d, hd, rfl⟩ := harrives.of_chain hchain hbad hwalk.length_le hplace (by omega)
  exact ⟨d, caches', hget, hd, hvalid⟩

lemma head?_eq (h : start = l.headD 0) (hne : start ≠ 0) :
    l.head? = some start := by
  cases l with
  | nil => exact absurd h hne
  | cons c l => rw [h]; rfl

omit [DecidableEq Ino] in
lemma Consistent.start_eq_zero_iff (h : Consistent g v chains) : v.start i = 0 ↔ chains i = [] := by
  rw [h.start i]
  cases hl : chains i with
  | nil => simp
  | cons c l =>
    have hlow := ((h.chain i).range c (by simp [hl])).1
    simp only [headD_cons, reduceCtorEq, iff_false]
    exact Nat.ne_of_gt (lt_of_lt_of_le (by decide) hlow)

/-- A change of the chain of one inode, with no other chain touched. -/
lemma Consistent.update (h : Consistent g v chains) {es : List Nat}
    (hframes : Frames g.bits v.table v'.table es) (hes : ∀ j, j ≠ i → (chains j).Disjoint es)
    (hchain : IsClusterChain g v'.table l) (hl : ∀ c ∈ l, c ∈ es ∨ c ∈ chains i)
    (hstart : v'.start = Function.update v.start i (l.headD 0)) (hcounted : Counted g v'.toVol)
    (hcaches : ∀ j, j ≠ i → v'.caches j = v.caches j) (hcache : Valid (places l) (v'.caches i)) :
    Consistent g v' (Function.update chains i l) := by
  have hdisjoint : ∀ j, j ≠ i → (chains j).Disjoint l := fun j hj c hc hcl =>
    (hl c hcl).elim (fun hin => hes j hj hc hin) fun hin => h.disjoint j i hj hc hin
  refine ⟨fun j => ?_, fun j => ?_, fun j k hjk => ?_, hcounted, fun j => ?_⟩
  · by_cases hj : j = i
    · rw [hj, update_self]
      exact hchain
    · rw [Function.update_of_ne hj]
      exact (h.chain j).congr fun c hc => hframes.entGet fun hin => hes j hj hc hin
  · rw [hstart]
    by_cases hj : j = i
    · rw [hj, update_self, update_self]
    · rw [Function.update_of_ne hj, Function.update_of_ne hj, h.start j]
  · by_cases hj : j = i
    · have hk : k ≠ i := fun hk => hjk (hj.trans hk.symm)
      rw [hj, update_self, Function.update_of_ne hk]
      exact fun c hc hck => hdisjoint k hk hck hc
    · by_cases hk : k = i
      · rw [hk, update_self, Function.update_of_ne hj]
        exact hdisjoint j hj
      · rw [Function.update_of_ne hj, Function.update_of_ne hk]
        exact h.disjoint j k hjk
  · by_cases hj : j = i
    · rw [hj, update_self]
      exact hcache
    · rw [Function.update_of_ne hj, hcaches j hj]
      exact h.caches j

omit [DecidableEq Ino] in
lemma Consistent.not_mem_of_free (h : Consistent g v chains)
    (hc : entGet g.bits v.table c = FAT_ENT_FREE) (j : Ino) : c ∉ chains j :=
  fun hin => links_ne_free (h.chain j) hin hc

/-! ### Adding a cluster -/

lemma chain_concat (hbad : g.maxCluster ≤ g.bits.bad) (hchain : IsClusterChain g t (l ++ [d]))
    (hc : FAT_START_ENT ≤ c ∧ c < g.maxCluster) (hout : c ∉ l ++ [d])
    (heof : entGet g.bits t c = FAT_ENT_EOF) :
    IsClusterChain g (entPut g.bits t d c) (l ++ [d] ++ [c]) := by
  have hstorable : g.bits.Storable c := .inl (hc.2.trans_le hbad)
  refine ⟨?_, fun e he => ?_, ?_⟩
  · rw [entGet_entPut _ _ hstorable]
    refine linked_append.mpr ⟨hchain.linked.update_last hchain.nodup c, ?_, trivial⟩
    rw [Function.update_of_ne (fun heq => hout (by simp [heq])), heof]
    rfl
  · obtain he | he := mem_append.mp he
    · exact hchain.range e he
    · rw [mem_singleton.mp he]
      exact hc
  · exact nodup_append'.mpr ⟨hchain.nodup, nodup_singleton c,
      fun e he he' => hout (mem_singleton.mp he' ▸ he)⟩

lemma Counted.entPut (h : Counted g vol) {new : Nat} (hnew : g.bits.Storable new)
    (hfree : new ≠ FAT_ENT_FREE) (hold : entGet g.bits vol.table d ≠ FAT_ENT_FREE) :
    Counted g { vol with table := entPut g.bits vol.table d new } := by
  refine ⟨h.prevFree, fun n hn => (h.count n hn).trans (freeCount_congr fun e => ?_).symm⟩
  by_cases he : e = d
  · rw [he, entGet_entPut_self _ _ hnew]
    exact ⟨fun heq => absurd heq hfree, fun heq => absurd heq hold⟩
  · rw [entGet_entPut_of_ne _ he hnew]

lemma fatGetCluster_last (hbad : g.maxCluster ≤ g.bits.bad)
    (hchain : IsClusterChain g t (l ++ [d])) (hwalk : Walkable g (l ++ [d]))
    (hcaches : Valid (places (l ++ [d])) caches) (hstart : (l ++ [d]).head? = some start) :
    ∃ ret fclus caches', fatGetCluster g t start caches FAT_ENT_EOF =
      .ok (⟨ret, fclus, d⟩, caches') ∧ 0 ≤ ret ∧ Valid (places (l ++ [d])) caches' := by
  have hlength := hchain.length_le
  rw [length_append] at hlength
  have heof := le_trans hbad g.bits.bad_le_eof
  have htake : (l ++ [d]).take (FAT_ENT_EOF + 1) = l ++ [d] := by
    apply take_of_length_le
    rw [length_append, length_singleton]
    omega
  obtain ⟨d', caches', hget, hd', hvalid⟩ := fatGetCluster_spec hbad hchain hwalk
    (Nat.lt_succ_self FAT_ENT_EOF) (htake.symm ▸ hcaches) hstart
  rw [length_append, length_singleton, Nat.add_sub_cancel, min_eq_right (by omega),
    getElem?_concat_length] at hd'
  obtain rfl := some.inj hd'
  exact ⟨_, _, caches', hget, by split <;> decide, htake ▸ hvalid⟩

lemma entRead_cluster (t : Table) {e : Nat} (he : FAT_START_ENT ≤ e ∧ e < g.maxCluster) :
    ∃ fe, entRead g t fatentInit e = .ok (entGet g.bits t e, fe) ∧ fe.Good g ∧ fe.entry = e := by
  simp only [entRead, not_lt.mpr (Int.natCast_nonneg e), if_false, Int.toNat_natCast]
  exact fatEntRead_spec (.inl rfl) he.1 he.2 fun hne => absurd rfl hne

section

variable (hbad : g.maxCluster ≤ g.bits.bad) (h : Consistent g v chains)

include hbad h

lemma fatChainAdd_spec (hwalk : Walkable g (chains i)) (halloc : Allocated g v.toVol vol [c]) :
    ∃ v', fatChainAdd g i c (v.setVol vol) = (.ok (), v') ∧
      Consistent g v' (Function.update chains i (chains i ++ [c])) ∧
      Frames g.bits v.table v'.table (chains i ++ [c]) := by
  have hfree : ∀ j, c ∉ chains j := h.not_mem_of_free (halloc.free c (by simp))
  have hc := halloc.chain.range c (by simp)
  have hes : ∀ j, (chains j).Disjoint [c] := fun j e he he' =>
    hfree j (mem_singleton.mp he' ▸ he)
  rw [fatChainAdd]
  by_cases hstart : v.start i = 0
  · have hnil := h.start_eq_zero_iff.mp hstart
    rw [if_pos (show (v.setVol vol).start i = 0 from hstart), hnil]
    refine ⟨_, rfl, ?_, halloc.frames⟩
    refine h.update halloc.frames (fun j _ => hes j) halloc.chain (fun e he => .inl he) rfl
      halloc.counted (fun _ _ => rfl) fun run hrun => ?_
    have hvalid := h.caches i run hrun
    rw [hnil] at hvalid
    obtain ⟨f, n, -, -, -, hruns⟩ := hvalid
    simpa [places] using hruns 0 (Nat.zero_le _)
  · obtain ⟨l, d, hl⟩ := eq_nil_or_concat (chains i) |>.resolve_left
      fun hnil => hstart (h.start_eq_zero_iff.mpr hnil)
    rw [concat_eq_append] at hl
    have hchain : IsClusterChain g vol.table (l ++ [d]) :=
      hl ▸ (h.chain i).congr fun e he => halloc.frames.entGet fun hin => hes i he hin
    have hhead : (chains i).head? = some (v.start i) := head?_eq (h.start i) hstart
    obtain ⟨ret, fclus, caches', hget, hret, hvalid⟩ := fatGetCluster_last hbad hchain (hl ▸ hwalk)
      (hl ▸ h.caches i) (hl ▸ hhead)
    have hd := hchain.range d (by simp)
    obtain ⟨fe, hread, hgood, hentry⟩ := entRead_cluster vol.table hd
    have hstorable : g.bits.Storable c := .inl (hc.2.trans_le hbad)
    have hframes : Frames g.bits v.table (entPut g.bits vol.table d c) ([c] ++ [d]) :=
      halloc.frames.trans (frames_entPut _ _ hstorable)
    rw [if_neg (show ¬(v.setVol vol).start i = 0 from hstart)]
    simp only [Volume.setVol, Volume.setCaches, Volume.setTable, hget, not_lt.mpr hret, if_false,
      hread, entPutAt_eq hgood.at_entry, hentry]
    refine ⟨_, rfl, ?_, fun e he => hframes e ?_⟩
    · refine h.update hframes (fun j hj e he hin => ?_) (hl ▸ chain_concat hbad hchain hc
        (hl ▸ hfree i) halloc.chain.linked.1) (fun e he => ?_) ?_ ?_ (fun j hj => ?_) ?_
      · obtain hin | hin := mem_append.mp hin
        · exact hes j he hin
        · rw [mem_singleton.mp hin] at he
          exact h.disjoint j i hj he (by simp [hl])
      · obtain he | he := mem_append.mp he
        · exact .inr he
        · exact .inl (mem_append_left _ he)
      · have hkeep : (chains i ++ [c]).headD 0 = v.start i := by
          rw [headD_eq_head?_getD, head?_append_of_ne_nil _ (by simp [hl]), hhead]
          rfl
        rw [hkeep, update_eq_self]
      · exact halloc.counted.entPut hstorable (Nat.ne_of_gt (lt_of_lt_of_le (by decide) hc.1))
          (links_ne_free hchain (by simp))
      · exact Function.update_of_ne hj ..
      · intro run hrun
        dsimp only at hrun
        rw [update_self] at hrun
        exact hl ▸ hvalid.mono (fun _ _ => places_append [c]) run hrun
    · simp only [hl, mem_append, mem_singleton, not_or] at he ⊢
      exact ⟨he.2, he.1.2⟩

lemma fatAddCluster_ok (hwalk : Walkable g (chains i)) (hfree : 0 < freeCount g v.table) :
    ∃ c v', fatAddCluster g i v = (.ok (), v') ∧ entGet g.bits v.table c = FAT_ENT_FREE ∧
      Consistent g v' (Function.update chains i (chains i ++ [c])) ∧
      Frames g.bits v.table v'.table (chains i ++ [c]) := by
  obtain ⟨cs, vol, halloc, hlength, hcs⟩ := fatAllocClusters_ok hbad h.counted Nat.one_pos hfree
  obtain ⟨c, rfl⟩ := length_eq_one_iff.mp hlength
  obtain ⟨v', hadd, hv', hframes⟩ := fatChainAdd_spec hbad h hwalk hcs
  refine ⟨c, v', ?_, hcs.free c (by simp), hv', hframes⟩
  simp only [fatAddCluster, halloc, headD_cons, hadd]

lemma fatAddCluster_nospc (hfull : freeCount g v.table = 0) :
    ∃ v', fatAddCluster g i v = (.error .nospc, v') ∧ Consistent g v' chains ∧
      ∀ e, entRaw g.bits v'.table e = entRaw g.bits v.table e := by
  obtain ⟨vol, halloc, hrestore⟩ := fatAllocClusters_nospc hbad h.counted Nat.one_pos (by omega)
  have hnil : freeFrom g v.toVol = [] :=
    eq_nil_of_length_eq_zero ((length_freeFrom h.counted.prevFree).trans hfull)
  have hrestored : Restored g v.toVol vol := hrestore (hnil ▸ isChain_nil)
  refine ⟨v.setVol vol, ?_, ⟨fun j => (h.chain j).congr fun c _ => ?_, h.start, h.disjoint,
    hrestored.counted, h.caches⟩, hrestored.entries⟩
  · simp only [fatAddCluster, halloc]
  · simp only [Volume.setVol, entGet, hrestored.entries c]

end

/-! ### Freeing the end of a chain -/

lemma Freed.counted {vol' : Vol} (h : Freed g vol vol' l) (hchain : IsClusterChain g vol.table l)
    (hcounted : Counted g vol) : Counted g vol' := by
  refine ⟨h.prevFree ▸ hcounted.prevFree, fun n hn => ?_⟩
  rw [h.count] at hn
  obtain ⟨k, hk, rfl⟩ := map_eq_some_iff.mp hn
  rw [hcounted.count k hk]
  exact (freeCount_of_taken hchain.nodup hchain.range (fun e he => (h.frames e he).symm) h.free
    fun c hc => links_ne_free hchain hc).symm

/-- The freeing of what comes behind the clusters that stay, once these are a chain of their own. -/
lemma freeRest_spec (hbad : g.maxCluster ≤ g.bits.bad) (h : Consistent g v chains)
    (v₁ : Volume Ino) (hl : chains i = l ++ c :: r) (hcrossed : Uncrossed g (c :: r))
    (hchain : IsClusterChain g v₁.table l) (hframes : Frames g.bits v.table v₁.table l)
    (hstart : v₁.start = Function.update v.start i (l.headD 0)) (hcounted : Counted g v₁.toVol)
    (hcaches : ∀ j, j ≠ i → v₁.caches j = v.caches j) (hcache : Valid (places l) (v₁.caches i)) :
    ∃ v', freeRest g v₁ c = (.ok (), v') ∧ Consistent g v' (Function.update chains i l) ∧
      (∀ e ∈ c :: r, entGet g.bits v'.table e = FAT_ENT_FREE) ∧
      Frames g.bits v.table v'.table (chains i) := by
  have hwhole := hl ▸ h.chain i
  have hapart := (nodup_append'.mp hwhole.nodup).2.2
  have hrest : IsClusterChain g v.table (c :: r) := by simpa using hwhole.drop l.length
  have hrest₁ : IsClusterChain g v₁.table (c :: r) :=
    hrest.congr fun e he => hframes.entGet fun hin => hapart hin he
  obtain ⟨vol', hfree, hfreed⟩ := fatFreeClusters_spec hbad hrest₁ hcrossed
  have hframes' : Frames g.bits v.table vol'.table (chains i) := hl ▸ hframes.trans hfreed.frames
  refine ⟨v₁.setVol vol', by simp only [freeRest, hfree], ?_, hfreed.free, hframes'⟩
  exact h.update hframes' (fun j hj => h.disjoint j i hj)
    (hchain.congr fun e he => hfreed.frames.entGet fun hin => hapart he hin)
    (fun e he => .inr (hl ▸ mem_append_left _ he)) hstart (hfreed.counted hrest₁ hcounted)
    hcaches hcache

lemma chain_cut (hchain : IsClusterChain g t (l ++ [d] ++ r)) :
    IsClusterChain g (entPut g.bits t d FAT_ENT_EOF) (l ++ [d]) := by
  have hnodup := (nodup_append'.mp hchain.nodup).1
  refine ⟨?_, fun e he => hchain.range e (mem_append_left r he), hnodup⟩
  rw [entGet_entPut _ _ (storable_eof _)]
  exact (linked_append.mp hchain.linked).1.update_last hnodup FAT_ENT_EOF

lemma Consistent.setCaches (h : Consistent g v chains)
    (hcaches : Valid (places (chains i)) caches) : Consistent g (v.setCaches i caches) chains := by
  have hstart : v.start = Function.update v.start i ((chains i).headD 0) := by
    rw [← h.start i, update_eq_self]
  have hupdate : Consistent g (v.setCaches i caches) (Function.update chains i (chains i)) :=
    h.update (fun _ _ => rfl) (fun _ _ => disjoint_nil_right _) (h.chain i) (fun _ => .inr)
      hstart h.counted (fun j hj => Function.update_of_ne hj ..)
      (by simpa [Volume.setCaches] using hcaches)
  rwa [update_eq_self] at hupdate

/-- What `fat_free` leaves: the first clusters are the chain, the others are free. -/
structure Cut (g : Geometry) (v v' : Volume Ino) (chains : Ino → List Nat) (i : Ino) (skip : Nat) :
    Prop where
  consistent : Consistent g v' (Function.update chains i ((chains i).take skip))
  free : ∀ c ∈ (chains i).drop skip, entGet g.bits v'.table c = FAT_ENT_FREE
  frames : Frames g.bits v.table v'.table (chains i)

lemma Consistent.cut_all (hv' : Consistent g v' chains) (htable : v'.table = v.table)
    (hskip : (chains i).length ≤ skip) :
    Cut g v v' chains i skip := by
  refine ⟨?_, ?_, fun e _ => by rw [htable]⟩
  · rwa [take_of_length_le hskip, update_eq_self]
  · simp [drop_of_length_le hskip]

lemma take_eq_concat {k : Nat} (hk : 0 < k) (hd : l[k - 1]? = some d) :
    l.take k = l.take (k - 1) ++ [d] := by
  obtain ⟨k, rfl⟩ := Nat.exists_eq_add_of_lt hk
  simp_all [take_add_one]

section

variable (hbad : g.maxCluster ≤ g.bits.bad) (h : Consistent g v chains)
  (hwalk : Walkable g (chains i))

include hbad h hwalk

/-- The end mark is written, and what comes behind it is freed. -/
lemma freeRest_cut (hskip : 0 < skip) (hd : (chains i)[skip - 1]? = some d)
    (hc : (chains i)[skip]? = some c) (hvalid : Valid (places ((chains i).take skip)) caches) :
    ∃ v', freeRest g ((v.setCaches i caches).setTable (entPut g.bits v.table d FAT_ENT_EOF)) c =
      (.ok (), v') ∧ Cut g v v' chains i skip := by
  have htake := take_eq_concat hskip hd
  have hdrop : (chains i).drop skip = c :: (chains i).drop (skip + 1) := by
    obtain ⟨hlt, rfl⟩ := List.getElem?_eq_some_iff.mp hc
    exact drop_eq_getElem_cons hlt
  have hsplit : chains i = (chains i).take skip ++ c :: (chains i).drop (skip + 1) := by
    rw [← hdrop, take_append_drop]
  have hcut : IsClusterChain g (entPut g.bits v.table d FAT_ENT_EOF) ((chains i).take skip) := by
    have hwhole := h.chain i
    rw [hsplit, htake] at hwhole
    exact htake ▸ chain_cut hwhole
  have hframes : Frames g.bits v.table (entPut g.bits v.table d FAT_ENT_EOF)
      ((chains i).take skip) :=
    fun e he => frames_entPut _ _ (storable_eof _) e fun hin =>
      he (by rw [htake]; exact mem_append_right _ hin)
  have hstart : v.start = Function.update v.start i (((chains i).take skip).headD 0) := by
    have hhead : ((chains i).take skip).headD 0 = v.start i := by
      rw [h.start i]
      nth_rewrite 2 [hsplit]
      rw [htake]
      cases (chains i).take (skip - 1) <;> rfl
    rw [hhead, update_eq_self]
  have hcounted : Counted g { v.toVol with table := entPut g.bits v.table d FAT_ENT_EOF } :=
    h.counted.entPut (storable_eof _) (by decide) (links_ne_free (h.chain i) (mem_of_getElem? hd))
  have huncrossed : Uncrossed g (c :: (chains i).drop (skip + 1)) :=
    hwalk.uncrossed.suffix ⟨_, hsplit.symm⟩
  obtain ⟨v', hfree, hv', hfreed, hframes'⟩ :=
    freeRest_spec hbad h ((v.setCaches i caches).setTable _)
    hsplit huncrossed hcut hframes hstart hcounted (fun j hj => Function.update_of_ne hj ..)
    (by simpa [Volume.setCaches, Volume.setTable] using hvalid)
  exact ⟨v', hfree, hv', hdrop ▸ hfreed, hframes'⟩

lemma freeBehind_spec (hhead : (chains i).head? = some (v.start i)) (hskip : 0 < skip) :
    ∃ v', freeBehind g i skip (v.setCaches i []) = (.ok (), v') ∧ Cut g v v' chains i skip := by
  have hnil : (v.setCaches i []).caches i = [] := update_self ..
  have hempty : Valid (places ((chains i).take skip)) [] := fun _ hc => absurd hc not_mem_nil
  obtain ⟨d, caches', hget, hd, hvalid⟩ := fatGetCluster_spec hbad (h.chain i) hwalk
    (Nat.sub_lt hskip Nat.one_pos) hempty hhead
  have htwice : (v.setCaches i []).setCaches i caches' = v.setCaches i caches' := by
    simp [Volume.setCaches]
  -- the chain ends before or with the clusters that stay
  have hall (hle : (chains i).length ≤ skip) : Cut g v (v.setCaches i caches') chains i skip :=
    (h.setCaches (by rwa [take_of_length_le hle] at hvalid)).cut_all rfl hle
  simp only [freeBehind, hnil, Volume.setCaches_table, Volume.setCaches_start, hget, htwice]
  by_cases hlt : skip - 1 < (chains i).length
  · rw [if_pos hlt, if_neg (by decide)]
    rw [min_eq_left (by omega)] at hd
    obtain ⟨fe, hread, hgood, hentry⟩ := entRead_cluster v.table
      ((h.chain i).range d (mem_of_getElem? hd))
    rw [hread]
    dsimp only
    rw [(h.chain i).linked.next_of_getElem? hd, Nat.sub_add_cancel hskip]
    cases hc : (chains i)[skip]? with
    | none =>
      rw [getD_none, if_pos rfl]
      exact ⟨_, rfl, hall (getElem?_eq_none_iff.mp hc)⟩
    | some c =>
      have hrange := (h.chain i).range c (mem_of_getElem? hc)
      rw [getD_some, if_neg (ne_of_lt (lt_eof hbad hrange.2)),
        if_neg (Nat.ne_of_gt (lt_of_lt_of_le (by decide) hrange.1)),
          entPutAt_eq hgood.at_entry, hentry]
      exact freeRest_cut hbad h hwalk hskip hd hc hvalid
  · rw [if_neg hlt, if_pos rfl]
    exact ⟨_, rfl, hall (by omega)⟩

lemma fatFree_spec (skip : Nat) :
    ∃ v', fatFree g i skip v = (.ok (), v') ∧ Cut g v v' chains i skip := by
  rw [fatFree]
  by_cases hstart : v.start i = 0
  · rw [if_pos hstart]
    exact ⟨v, rfl, h.cut_all rfl (by simp [h.start_eq_zero_iff.mp hstart])⟩
  have hhead := head?_eq (h.start i) hstart
  rw [if_neg hstart]
  by_cases hskip : skip = 0
  · obtain ⟨r, hr⟩ : ∃ r, chains i = [] ++ v.start i :: r := by
      cases hl : chains i with
      | nil => simp [hl] at hhead
      | cons c r => exact ⟨r, by simp_all⟩
    obtain ⟨v', hfree, hv', hfreed, hframes⟩ :=
      freeRest_spec hbad h ((v.setCaches i []).setStart i 0)
      hr (by simpa [hr] using hwalk.uncrossed) ⟨trivial, by simp, nodup_nil⟩ (fun _ _ => rfl) rfl
      h.counted (fun j hj => Function.update_of_ne hj ..)
      (by simp [Valid, Volume.setCaches, Volume.setStart])
    rw [hskip]
    refine ⟨v', hfree, by simpa using hv', ?_, hframes⟩
    rwa [hr]
  · rw [if_neg hskip]
    exact freeBehind_spec hbad h hwalk hhead (Nat.pos_of_ne_zero hskip)

end

end R0Kernel.Fat
