import R0Kernel.Fs.Fat.Integrity

/-!
# What the cluster cache changes

A walk that starts at a cached cluster holds no buffers yet, while the walk from the start of the
file comes there with those of the clusters before. The two see the same chain as long as the
buffers of the latter are never those that mislead it, and this is the only thing that can tell a
call with a cache from one without.
-/

namespace R0Kernel.Fat.ClusterCache

open List Option Prod Except

variable {g : Geometry} {t : Table} {start cluster d : Int} {fe fe' : FatEntry} {entry nr i : Nat}
  {cid c : FatCache} {lru : List FatCache} {w' : FatEntry} {offset : Int}

/-! ### Reading through held buffers -/

/-- The buffers after a read of an entry across two blocks. -/
lemma bhs_of_straddles (hread : fatEntRead g t fe entry = .ok (nr, fe'))
    (hstraddle : Straddles g entry) :
    ∃ b, fe'.bhs = .two b (b + 1) ∧ b = g.bits.entOffset entry / g.blocksize := by
  have hneeds : needsNext g (g.bits.entOffset entry % g.blocksize) = true := hstraddle
  simp only [fatEntRead, entBlocknr_eq] at hread
  split at hread
  · simp at hread
  obtain ⟨-, rfl⟩ := mk.inj (ok.inj hread)
  obtain ⟨e, bhs, ptr⟩ := fe
  cases bhs with
  | none => simp [fatEntUpdatePtr, entBread, entSetPtr, hneeds]
  | one b => simp [fatEntUpdatePtr, entBread, entSetPtr, hneeds]
  | two b b' =>
    by_cases hblock : b = g.bits.entOffset entry / g.blocksize
    · by_cases hblock' : b' = b + 1
      · simp [fatEntUpdatePtr, entSetPtr, hneeds, hblock, hblock']
      · simp [fatEntUpdatePtr, entBread, entSetPtr, hneeds, ← hblock, hblock']
    · simp [fatEntUpdatePtr, entBread, entSetPtr, hneeds, hblock]

/-- A single buffer is as good as none. -/
lemma fatEntRead_of_ne_two (hbhs : ∀ b b', fe.bhs ≠ .two b b') :
    fatEntRead g t fe entry = fatEntRead g t fatentInit entry := by
  obtain ⟨e, bhs, ptr⟩ := fe
  unfold fatEntRead
  split
  · rfl
  by_cases hneeds : needsNext g (entBlocknr g entry).1 = true
  · cases bhs with
    | none => simp [fatentInit, fatEntUpdatePtr, entBread, entSetPtr, hneeds]
    | one b => simp [fatentInit, fatEntUpdatePtr, entBread, entSetPtr, hneeds]
    | two b b' => exact absurd rfl (hbhs b b')
  · cases bhs with
    | none => simp [fatentInit, fatEntUpdatePtr, entBread, entSetPtr, hneeds]
    | one b =>
      by_cases hblock : b = (entBlocknr g entry).2 <;>
        simp [fatentInit, fatEntUpdatePtr, entBread, entSetPtr, hneeds, hblock]
    | two b b' => exact absurd rfl (hbhs b b')

lemma fatEntRead_congr (hbhs : fe.bhs = fe'.bhs) :
    fatEntRead g t fe entry = fatEntRead g t fe' entry := by
  obtain ⟨e, bhs, ptr⟩ := fe
  obtain ⟨e', bhs', ptr'⟩ := fe'
  obtain rfl : bhs = bhs' := hbhs
  by_cases htwo : ∀ b b', bhs ≠ .two b b'
  · exact (fatEntRead_of_ne_two htwo).trans (fatEntRead_of_ne_two htwo).symm
  push Not at htwo
  obtain ⟨b, b', rfl⟩ := htwo
  unfold fatEntRead
  split
  · rfl
  by_cases hneeds : needsNext g (entBlocknr g entry).1 = true <;>
    simp only [fatEntUpdatePtr, entBread, entSetPtr, hneeds] <;> split_ifs <;> rfl

/-- The buffers held are those of the other walk, or no two. -/
def Alike (fe fe' : FatEntry) : Prop := fe.bhs = fe'.bhs ∨ ∀ b b', fe.bhs ≠ .two b b'

/-- Where the other walk reads the true link, so does a walk with alike buffers. -/
lemma Alike.entRead (h : Alike fe fe') (hread : entRead g t fe' d = .ok (nr, w'))
    (htrue : link g t d = .ok nr) :
    ∃ w, entRead g t fe d = .ok (nr, w) ∧ Alike w w' := by
  have hd : ¬d < 0 := fun hneg => by simp [ClusterCache.entRead, hneg] at hread
  rcases h with heq | htwo
  · refine ⟨w', ?_, .inl rfl⟩
    rw [← hread, ClusterCache.entRead, if_neg hd, fatEntRead_congr heq, ClusterCache.entRead,
      if_neg hd]
  · obtain ⟨⟨nr', w⟩, hfresh, rfl⟩ := R0Kernel.Outcome.map_eq_ok (entRead_init.1.trans htrue)
    obtain ⟨hgood, hentry⟩ := entRead_init.2 nr' w hfresh
    refine ⟨w, ?_, ?_⟩
    · rw [← hfresh, ClusterCache.entRead, if_neg hd, fatEntRead_of_ne_two htwo,
        ClusterCache.entRead, if_neg hd]
    rw [ClusterCache.entRead, if_neg hd] at hread hfresh
    by_cases hstraddle : Straddles g d.toNat
    · obtain ⟨b, hb, rfl⟩ := bhs_of_straddles hfresh hstraddle
      obtain ⟨b', hb', rfl⟩ := bhs_of_straddles hread hstraddle
      exact .inl (hb.trans hb'.symm)
    · right
      intro b b' hw
      have hframed := hgood.framed
      rw [FatEntry.Framed, hw, hentry] at hframed
      exact hstraddle hframed.2.2

/-! ### The walk without a cache -/

lemma walked_succ {d' : Int} :
    walked g t start (i + 1) = some (w', d') ↔
      ∃ w d nr, walked g t start i = some (w, d) ∧ i ≤ g.limit ∧ entRead g t w d = .ok (nr, w') ∧
        follow (.ok nr) = some d' := by
  rw [walked]
  cases walked g t start i with
  | none => simp
  | some at_i =>
    obtain ⟨w, d⟩ := at_i
    dsimp only
    by_cases hlimit : g.limit < i
    · simp [hlimit]
    · cases hread : entRead g t w d with
      | error err => simp [hread, hlimit]
      | ok result =>
        obtain ⟨nr, w''⟩ := result
        simp only [if_neg hlimit, map_eq_some_iff, mk.injEq, some.injEq]
        constructor
        · rintro ⟨d'', hfollow, rfl, rfl⟩
          exact ⟨w, d, nr, ⟨rfl, rfl⟩, not_lt.mp hlimit, hread, hfollow⟩
        · rintro ⟨w₁, d₁, nr₁, ⟨rfl, rfl⟩, -, hread₁, hfollow⟩
          obtain ⟨rfl, rfl⟩ := mk.inj (ok.inj (hread.symm.trans hread₁))
          exact ⟨d', hfollow, rfl, rfl⟩

variable {w : FatEntry} {out : Outcome} {lru' : List FatCache}

lemma ReadsTrue.chain (htrue : ReadsTrue g t start) (h : walked g t start i = some (w, d)) :
    chain g t start i = some d := by
  induction i generalizing w d with
  | zero =>
    obtain ⟨-, rfl⟩ := mk.inj (some.inj h)
    rfl
  | succ i ih =>
    obtain ⟨w', d', nr, hprev, hlimit, hread, hfollow⟩ := walked_succ.mp h
    have hlink := htrue i hlimit w' d' hprev
    rw [hread] at hlink
    rw [ClusterCache.chain, ih hprev, bind_some, ← hlink]
    exact hfollow

/-! ### Calls with a cache -/

/-- The clusters of the walk without a cache. -/
def visited (g : Geometry) (t : Table) (start : Int) (i : Nat) : Option Int :=
  (walked g t start i).map (·.2)

lemma visited_eq_some : visited g t start i = some d ↔ ∃ w, walked g t start i = some (w, d) := by
  simp [visited]

lemma FatCache.Runs.isExtent (htrue : ReadsTrue g t start) (h : c.Runs (visited g t start)) :
    c.IsExtent g t start := by
  obtain ⟨f, n, hf, hn, hpos, hrun⟩ := h
  refine ⟨by omega, by omega, fun k hk hle => ?_⟩
  obtain ⟨k, rfl⟩ := Int.eq_ofNat_of_zero_le hk
  obtain ⟨w, hw⟩ := visited_eq_some.mp (hrun k (by omega))
  have hplace : (c.fcluster + k).toNat = f + k := by omega
  rw [hplace]
  exact htrue.chain hw

lemma Arrives.unique {out' : Outcome} (h : Arrives g t cluster i d out)
    (h' : Arrives g t cluster i d out') : out = out' := by
  induction h with
  | here h => cases h' <;> first | rfl | omega
  | limit h hlimit => cases h' <;> first | rfl | omega
  | broken h hlimit hlink => cases h' <;> first | rfl | omega | simp_all [follow]
  | free h hlimit hlink =>
    cases h' <;> first | rfl | omega | simp_all [follow, FAT_ENT_FREE, FAT_ENT_EOF]
  | eof h hlimit hlink =>
    cases h' <;> first | rfl | omega | simp_all [follow, FAT_ENT_FREE, FAT_ENT_EOF]
  | step h hlimit hfollow hnext ih =>
    obtain ⟨nr, hlink, hfree, heof, hd⟩ := follow_eq_some.mp hfollow
    cases h' with
    | here | limit => omega
    | broken _ _ hlink' | free _ _ hlink' | eof _ _ hlink' => simp_all
    | step _ _ hfollow' hnext' =>
      obtain rfl := some.inj (hfollow.symm.trans hfollow')
      exact ih hnext'

section

variable (htrue : ReadsTrue g t start)

include htrue

/-- A place on the walk without a cache is one that the chain leads to. -/
lemma Arrives.from_start (hwalk : walked g t start i = some (w, d)) (hi : i ≤ cluster ∨ i = 0)
    (h : Arrives g t cluster i d out) :
    Arrives g t cluster 0 start out := by
  induction i generalizing w d with
  | zero =>
    obtain ⟨-, rfl⟩ := mk.inj (some.inj hwalk)
    exact h
  | succ i ih =>
    obtain ⟨w', d', nr, hprev, hlimit, hread, hfollow⟩ := walked_succ.mp hwalk
    have hlink := htrue i hlimit w' d' hprev
    rw [hread] at hlink
    refine ih hprev (.inl (by omega)) (.step (by omega) hlimit ?_ h)
    rw [← hlink]
    exact hfollow

/-- A call with a cache holds buffers like those of the walk without one. -/
lemma ReadsTrue.readsAlong (cluster : Int) : ReadsAlong g t (visited g t start) cluster fun i fe =>
    ∃ w d, walked g t start i = some (w, d) ∧ Alike fe w := by
  rintro i d fe hd ⟨feU, d', hwalk, halike⟩ - hlimit
  obtain ⟨w, hw⟩ := visited_eq_some.mp hd
  obtain ⟨rfl, rfl⟩ := mk.inj (some.inj (hw.symm.trans hwalk))
  have hlink := htrue i hlimit w d hwalk
  cases hread : entRead g t w d with
  | error err =>
    obtain ⟨hbroken, hread'⟩ | ⟨nr, -, -, hok, -⟩ := entRead_cases (g := g) (t := t) fe d
    · exact ⟨by rw [hbroken, hread']; rfl, fun _ _ _ h => by simp [hread'] at h⟩
    · rw [hread, hok] at hlink
      simp [Except.map] at hlink
  | ok result =>
    obtain ⟨nr, w'⟩ := result
    rw [hread] at hlink
    obtain ⟨fe', hread', halike'⟩ := halike.entRead hread hlink.symm
    refine ⟨by rw [hread', ← hlink]; rfl, fun nr' fe'' d' h hfollow => ?_⟩
    obtain ⟨rfl, rfl⟩ := mk.inj (ok.inj (hread'.symm.trans h))
    have hnext := walked_succ.mpr ⟨w, d, nr, hwalk, hlimit, hread, hfollow⟩
    exact ⟨visited_eq_some.mpr ⟨w', hnext⟩, w', d', hnext, halike'⟩

/-- One call with a cache of extents of the walk. -/
lemma fatGetCluster_valid (hstart : start ≠ 0) (hlru : Valid (visited g t start) lru)
    (cluster : Int) : ∃ out lru', fatGetCluster g t start lru cluster = .ok (out, lru') ∧
      Arrives g t cluster 0 start out ∧ Valid (visited g t start) lru' := by
  have hinit : ∀ i d, visited g t start i = some d →
      ∃ w d, walked g t start i = some (w, d) ∧ Alike fatentInit w := by
    intro i d hd
    obtain ⟨w, hw⟩ := visited_eq_some.mp hd
    exact ⟨w, d, hw, .inr (by simp [fatentInit])⟩
  obtain ⟨out, lru', i, d, hcall, hd, hi, harrives, hlru'⟩ :=
    fatGetCluster_arrives (htrue.readsAlong cluster) hinit rfl hstart hlru
  obtain ⟨w, hw⟩ := visited_eq_some.mp hd
  exact ⟨out, lru', hcall, harrives.from_start htrue hw hi, hlru'⟩

lemma run_valid (hstart : start ≠ 0) (calls : List Int) (hlru : Valid (visited g t start) lru) :
    ∃ lru', run g t start calls lru = .ok lru' ∧ Valid (visited g t start) lru' := by
  induction calls generalizing lru with
  | nil => exact ⟨lru, rfl, hlru⟩
  | cons cluster calls ih =>
    obtain ⟨out, lru', hcall, -, hlru'⟩ := fatGetCluster_valid htrue hstart hlru cluster
    obtain ⟨lru'', hrun, hlru''⟩ := ih hlru'
    refine ⟨lru'', ?_, hlru''⟩
    rw [run, foldlM_cons, hcall]
    exact hrun

lemma ReadsTrue.transparent (hstart : start ≠ 0) :
    Transparent g t start := by
  intro calls
  have hempty : Valid (visited g t start) [] := by simp [Valid]
  obtain ⟨lru, hrun, hlru⟩ := run_valid htrue hstart calls hempty
  refine ⟨lru, hrun, fun c hc => (hlru c hc).isExtent htrue, fun cluster => ?_⟩
  obtain ⟨out, lru', hcall, harrives, -⟩ := fatGetCluster_valid htrue hstart hlru cluster
  obtain ⟨out₀, lru₀, hcall₀, harrives₀, -⟩ := fatGetCluster_valid htrue hstart hempty cluster
  obtain rfl := harrives.unique harrives₀
  exact ⟨out, lru', lru₀, hcall, hcall₀⟩

end

/-! ### The cache gives a misread link away -/

/-- The walk without a cache gets to each of its places, with an extent that ends there. -/
lemma getClusterLoop_reaches (cluster : Int) (hwalk : walked g t start i = some (w, d))
    (hi : i ≤ cluster) :
    ∃ cid, Ends (visited g t start) i cid ∧ ∀ fuel lru,
      getClusterLoop g t cluster (fuel + i) fatentInit 0 start (cacheInit (-1) (-1)) lru =
        getClusterLoop g t cluster fuel w i d cid lru := by
  induction i generalizing w d with
  | zero =>
    obtain ⟨rfl, rfl⟩ := mk.inj (some.inj hwalk)
    exact ⟨_, .inl ⟨rfl, rfl⟩, fun fuel lru => rfl⟩
  | succ i ih =>
    obtain ⟨w', d', nr, hprev, hlimit, hread, hfollow⟩ := walked_succ.mp hwalk
    obtain ⟨nr', heq, hfree, heof, rfl⟩ := follow_eq_some.mp hfollow
    obtain rfl := ok.inj heq
    obtain ⟨cid, hends, hreach⟩ := ih hprev (by omega)
    refine ⟨_, hends.step (visited_eq_some.mpr ⟨w, hwalk⟩) (by exact_mod_cast hfree),
      fun fuel lru => ?_⟩
    have hfuel : fuel + (i + 1) = fuel + 1 + i := by omega
    rw [hfuel, hreach, getClusterLoop, if_pos (by omega), if_neg (by omega), hread]
    dsimp only
    rw [if_neg hfree, if_neg heof]
    rfl

/-- What the last step of a walk returns, by the link it reads. -/
def lastOutcome (i : Nat) (d : Int) : Except Err Nat → Outcome
  | .error _ => ⟨-eio, i, d⟩
  | .ok nr =>
    if nr = FAT_ENT_FREE then ⟨-eio, i, d⟩
    else if nr = FAT_ENT_EOF then ⟨nr, i, d⟩ else ⟨0, i + 1, nr⟩

lemma outcome_of_add {o : Outcome}
    (h : (fatCacheAdd lru cid).map (fun lru => (o, lru)) = .ok (out, lru')) : out = o := by
  obtain ⟨lru'', -, hout⟩ := R0Kernel.Outcome.map_eq_ok h
  exact (mk.inj hout).1.symm

lemma getClusterLoop_last {fuel : Nat} (hlimit : i ≤ g.limit)
    (h : getClusterLoop g t (i + 1) (fuel + 2) fe i d cid lru = .ok (out, lru')) :
    out = lastOutcome i d ((entRead g t fe d).map (·.1)) := by
  rw [getClusterLoop, if_pos (by omega), if_neg (by omega)] at h
  cases hread : entRead g t fe d with
  | error err =>
    simp only [hread] at h
    exact (mk.inj (ok.inj h)).1.symm
  | ok result =>
    obtain ⟨nr, w⟩ := result
    simp only [hread] at h
    simp only [Except.map, lastOutcome]
    by_cases hfree : nr = FAT_ENT_FREE
    · rw [if_pos hfree] at h ⊢
      exact (mk.inj (ok.inj h)).1.symm
    rw [if_neg hfree] at h ⊢
    by_cases heof : nr = FAT_ENT_EOF
    · rw [if_pos heof] at h ⊢
      exact outcome_of_add h
    rw [if_neg heof] at h ⊢
    rw [getClusterLoop, if_neg (lt_irrefl _)] at h
    exact outcome_of_add h

/-- The last step tells links apart. -/
lemma lastOutcome_inj {a b : Nat} (h : lastOutcome i d (.ok a) = lastOutcome i d (.ok b)) :
    a = b := by
  have hret : -eio ≠ (FAT_ENT_EOF : Int) := by decide
  simp only [lastOutcome] at h
  split_ifs at h <;> simp_all

/-- A misread link shows when the cluster before it has been looked up first. -/
lemma Transparent.readsTrue (h : Transparent g t start) (hstart : start ≠ 0) :
    ReadsTrue g t start := by
  intro i hlimit w d hwalk
  rcases Nat.eq_zero_or_pos i with rfl | hpos
  · obtain ⟨rfl, rfl⟩ := mk.inj (some.inj hwalk)
    exact entRead_init.1
  -- the first call leaves the one extent that ends at the place
  obtain ⟨cid, hends, hreach⟩ := getClusterLoop_reaches i hwalk le_rfl
  obtain ⟨hruns, hend⟩ := hends.resolve_left fun hdummy => by omega
  obtain ⟨f, n, hf, hn, hfpos, hrun⟩ := id hruns
  have hfirst : fatGetCluster g t start [] i = .ok (⟨0, i, d⟩, [cid]) := by
    have hfuel : g.limit + 2 = g.limit + 1 - i + 1 + i := by omega
    rw [fatGetCluster_miss hstart (by omega) rfl, hfuel, hreach, getClusterLoop,
      if_neg (lt_irrefl _), fatCacheAdd, if_neg (by omega)]
    rfl
  have hd : cid.dcluster + cid.nrContig = d := by
    obtain ⟨w', hw'⟩ := visited_eq_some.mp (hrun n le_rfl)
    have hplace : f + n = i := by omega
    rw [hplace] at hw'
    rw [hn]
    exact (mk.inj (some.inj (hw'.symm.trans hwalk))).2
  obtain ⟨lru, hrun₁, -, hcalls⟩ := h [(i : Int)]
  obtain rfl : lru = [cid] := by
    rw [run, foldlM_cons, hfirst] at hrun₁
    exact (ok.inj hrun₁).symm
  -- the second call starts there without buffers
  obtain ⟨out, lru', lru₀, hcached, hplain⟩ := hcalls (i + 1)
  have hlookup : lookupLoop (i + 1) [cid] none (-1) = (some cid, cid.nrContig) := by
    rw [lookupLoop, if_pos ⟨by omega, by simp; omega⟩, if_pos (by omega)]
    rfl
  rw [fatGetCluster_hit hstart (by omega) hlookup (by omega), hend, hd] at hcached
  obtain ⟨cid', -, hreach'⟩ := getClusterLoop_reaches (i + 1) hwalk (by omega)
  have hfuel : g.limit + 2 = g.limit - i + 2 + i := by omega
  rw [fatGetCluster_miss hstart (by omega) rfl, hfuel, hreach'] at hplain
  have hsame := (getClusterLoop_last hlimit hplain).symm.trans (getClusterLoop_last hlimit hcached)
  rw [entRead_init.1] at hsame
  obtain ⟨hlink, hread⟩ | ⟨nr, nr', w', hlink, hread⟩ := entRead_cases (g := g) (t := t) w d
  · rw [hlink, hread]
    rfl
  · rw [hlink, hread] at hsame ⊢
    exact congrArg ok (lastOutcome_inj hsame)

/-! ### When the links are read as they are -/

/-- The walk misreads no link unless it goes from an entry across two blocks to one inside the first
of them. -/
lemma readsTrue_of_uncrossed
    (h : ∀ i w d w' d', walked g t start i = some (w, d) → walked g t start (i + 1) =
      some (w', d') → ¬Crossed g d.toNat d'.toNat) : ReadsTrue g t start := by
  have hready : ∀ i w d, walked g t start i = some (w, d) → w.Ready g ∧
      (w.bhs ≠ .none → ¬Crossed g w.entry d.toNat) := by
    intro i
    induction i with
    | zero =>
      intro w d hwalk
      obtain ⟨rfl, rfl⟩ := mk.inj (some.inj hwalk)
      exact ⟨.inl rfl, fun hbhs => absurd rfl hbhs⟩
    | succ i ih =>
      intro w d hwalk
      obtain ⟨w', d', nr, hprev, hlimit, hread, hfollow⟩ := walked_succ.mp hwalk
      obtain ⟨hready, hcrossed⟩ := ih w' d' hprev
      obtain ⟨hgood, hentry⟩ := (entRead_of_uncrossed hready hcrossed).2 nr w hread
      refine ⟨.inr hgood.framed, fun _ => ?_⟩
      rw [hentry]
      exact h i w' d' w d hprev hwalk
  intro i hlimit w d hwalk
  obtain ⟨hready, hcrossed⟩ := hready i w d hwalk
  exact (entRead_of_uncrossed hready hcrossed).1

/-- Entries of sixteen and thirty-two bits never lie across two blocks. -/
lemma readsTrue_of_ne_fat12 (hbits : g.bits ≠ .fat12) : ReadsTrue g t start :=
  readsTrue_of_uncrossed fun _ _ _ _ _ _ _ hcrossed => hbits (straddles_iff.mp hcrossed.1).1

/-- The cluster cache cannot be told from its absence exactly if the walk without it reads every
link as the table holds it. -/
theorem fat_cache_transparent_iff (g : Geometry) (t : Table) (start : Int) (hstart : start ≠ 0) :
    Transparent g t start ↔ ReadsTrue g t start :=
  ⟨fun h => h.readsTrue hstart, fun h => h.transparent hstart⟩

theorem fat_cache_transparent_iff_fat16 :
    (2 : Int) ≠ 0 ∧ ∀ t, Transparent threeClusters t 2 :=
  ⟨by decide, fun t => (fat_cache_transparent_iff threeClusters t 2 (by decide)).mpr
    (readsTrue_of_ne_fat12 (by decide))⟩

/-- When cluster 1 of the file has been looked up, cluster 2 is behind the end of the file; from the
start of the file it is read through the second buffer of the entry before, as cluster 1535. -/
theorem fat_cache_shows :
    run twoBlocks backwards.table 341 [1] [] = .ok [⟨0, 1, 340⟩] ∧
      (fatGetCluster twoBlocks backwards.table 341 [⟨0, 1, 340⟩] 2).map (·.1) =
        .ok ⟨FAT_ENT_EOF, 1, 340⟩ ∧
      (fatGetCluster twoBlocks backwards.table 341 [] 2).map (·.1) = .ok ⟨0, 2, 1535⟩ ∧
      ¬Transparent twoBlocks backwards.table 341 := by
  have hrun : run twoBlocks backwards.table 341 [1] [] = .ok [⟨0, 1, 340⟩] := by
    decide
  have hcached : (fatGetCluster twoBlocks backwards.table 341 [⟨0, 1, 340⟩] 2).map (·.1) =
      .ok ⟨FAT_ENT_EOF, 1, 340⟩ := by decide
  have hplain : (fatGetCluster twoBlocks backwards.table 341 [] 2).map (·.1) =
      .ok ⟨0, 2, 1535⟩ := by decide
  refine ⟨hrun, hcached, hplain, fun h => ?_⟩
  obtain ⟨lru, hlru, -, hcalls⟩ := h [1]
  obtain rfl := ok.inj (hlru.symm.trans hrun)
  obtain ⟨out, lru', lru₀, h₁, h₂⟩ := hcalls 2
  rw [h₁] at hcached
  rw [h₂] at hplain
  have heq : out = ⟨FAT_ENT_EOF, 1, 340⟩ := ok.inj hcached
  have heq' : out = ⟨0, 2, 1535⟩ := ok.inj hplain
  exact absurd (heq.symm.trans heq') (by decide)

end R0Kernel.Fat.ClusterCache
