import R0Kernel.Foundation.LinkChain
import R0Kernel.Fs.Fat.Window

/-!
# Allocating and freeing clusters

`fat_alloc_clusters` goes once round the table from behind the cluster that was taken last, block by
block, and links the free entries it finds; `fat_free_clusters` walks a chain and frees its entries.
What they do is said over the numbers that `ent_get` reads: which entries change, that the new ones
are a chain, and how the count of free clusters moves.
-/

namespace R0Kernel.Fat

open LinkChain Function List

/-- The table and what the superblock keeps about it. `freeClusters` is `none` for `-1`. -/
structure Vol where
  table : Table
  prevFree : Nat
  freeClusters : Option Nat

variable (g : Geometry)

/-! ### `fat_free_clusters` -/

/-- The loop of `fat_free_clusters`. The number of steps is bounded by the fuel. -/
def freeLoop : (fuel : Nat) → FatEntry → (cluster : Nat) → Vol → Except Err Unit × Vol
  | 0, _, _, vol => (.error .fuel, vol)
  | fuel + 1, fe, cluster, vol =>
    match fatEntRead g vol.table fe cluster with
    | .error err => (.error err, vol)
    | .ok (next, fe) =>
      -- deleting FAT entry beyond EOF
      if next = FAT_ENT_FREE then (.error .io, vol)
      else
        let vol := { vol with
          table := entPutAt g vol.table fe FAT_ENT_FREE,
          freeClusters := vol.freeClusters.map (· + 1) }
        if next = FAT_ENT_EOF then (.ok (), vol) else freeLoop fuel fe next vol

/-- `fat_free_clusters`: no chain is longer than the table. -/
def fatFreeClusters (cluster : Nat) (vol : Vol) : Except Err Unit × Vol :=
  freeLoop g g.maxCluster fatentInit cluster vol

/-! ### `fat_alloc_clusters` -/

/-- A free entry is made the end of the new chain. -/
def takeEntry (fe : FatEntry) (prev : Option FatEntry) (vol : Vol) : Vol :=
  let table := entPutAt g vol.table fe FAT_ENT_EOF
  { table :=
      match prev with
      | none => table
      | some prev => entPutAt g table prev fe.entry
    prevFree := fe.entry
    freeClusters := vol.freeClusters.map (· - 1) }

/-- The two loops of `fat_alloc_clusters`, with `left` entries still to be seen. The block of the
entry has to be read where the outer loop comes round. The result is the clusters that were taken,
and whether they are enough. -/
def allocScan (nr : Nat) : (left : Nat) → FatEntry → (readBlock : Bool) → (prev : Option FatEntry) →
    (clusters : List Nat) → Vol → List Nat × Vol × Bool
  | 0, _, _, _, clusters, vol => (clusters, vol, false)
  | left + 1, fe, readBlock, prev, clusters, vol =>
    let fe :=
      if readBlock then
        fatEntReadBlock g
          { fe with entry := if g.maxCluster ≤ fe.entry then FAT_START_ENT else fe.entry }
      else fe
    let (fe', more) := fatEntNext g fe
    if entGetAt g vol.table fe = FAT_ENT_FREE then
      let vol := takeEntry g fe prev vol
      let clusters := clusters ++ [fe.entry]
      if clusters.length = nr then (clusters, vol, true)
      else allocScan nr left fe' (!more) (some fe) clusters vol
    else allocScan nr left fe' (!more) prev clusters vol

def fatAllocClusters (nr : Nat) (vol : Vol) : Except Err (List Nat) × Vol :=
  if vol.freeClusters.any (· < nr) then (.error .nospc, vol)
  else
    match allocScan g nr (g.maxCluster - FAT_START_ENT)
        { fatentInit with entry := vol.prevFree + 1 } true none [] vol with
    | (clusters, vol, true) => (.ok clusters, vol)
    | (clusters, vol, false) =>
      -- couldn't allocate the free entries
      let vol := { vol with freeClusters := some 0 }
      match clusters with
      | [] => (.error .nospc, vol)
      | cluster :: _ => (.error .nospc, (fatFreeClusters g cluster vol).2)

/-! ### Entries as links -/

abbrev links (vol : Vol) : Nat → Nat := entGet g.bits vol.table

variable {bits : FatBits} {e c n nr : Nat} {prev : Option FatEntry} {cs : List Nat}
  {new : Nat} {es : List Nat} {readBlock : Bool}

lemma entGet_entPut (t : Table) (e : Nat) (h : bits.Storable new) :
    entGet bits (entPut bits t e new) = update (entGet bits t) e new := by
  funext e'
  by_cases heq : e' = e
  · rw [heq, entGet_entPut_self t e h, update_self]
  · rw [entGet_entPut_of_ne t heq h, update_of_ne heq]

/-- Only the given entries have changed. -/
def Frames (bits : FatBits) (t t' : Table) (es : List Nat) : Prop :=
  ∀ e, e ∉ es → entRaw bits t' e = entRaw bits t e

lemma Frames.entGet {t t' : Table} (h : Frames bits t t' es) (he : e ∉ es) :
    entGet bits t' e = entGet bits t e := by
  simp only [Fat.entGet, h e he]

lemma Frames.trans {t t' t'' : Table} {es' : List Nat} (h : Frames bits t t' es)
    (h' : Frames bits t' t'' es') : Frames bits t t'' (es ++ es') := by
  intro e he
  simp only [mem_append, not_or] at he
  rw [h' e he.2, h e he.1]

lemma frames_entPut (t : Table) (e : Nat) (h : bits.Storable new) :
    Frames bits t (entPut bits t e new) [e] := by
  intro e' he'
  exact entRaw_entPutRaw_of_ne bits t (by simpa using he') h.lt_limit

lemma storable_free (bits : FatBits) : bits.Storable FAT_ENT_FREE := by
  left
  cases bits <;> decide

lemma storable_eof (bits : FatBits) : bits.Storable FAT_ENT_EOF := .inr rfl

/-! ### A chain in the table -/

/-- No step of a walk along the list goes from an entry across two blocks to one inside the
first. -/
def Uncrossed (l : List Nat) : Prop := l.IsChain fun e e' => ¬Crossed g e e'

structure IsClusterChain (t : Table) (l : List Nat) : Prop where
  linked : Linked (entGet g.bits t) FAT_ENT_EOF l
  range : ∀ c ∈ l, FAT_START_ENT ≤ c ∧ c < g.maxCluster
  nodup : l.Nodup

variable {g} {l : List Nat} {t t' : Table}

lemma IsClusterChain.congr (h : IsClusterChain g t l)
    (hagree : ∀ c ∈ l, entGet g.bits t' c = entGet g.bits t c) : IsClusterChain g t' l :=
  ⟨h.linked.congr hagree, h.range, h.nodup⟩

lemma IsClusterChain.drop (h : IsClusterChain g t l) (n : Nat) : IsClusterChain g t (l.drop n) :=
  ⟨h.linked.drop n, fun c hc => h.range c (mem_of_mem_drop hc), h.nodup.sublist (drop_sublist n l)⟩

/-- Clusters of a volume are below the bad mark and so no end marks. -/
lemma lt_eof (hbad : g.maxCluster ≤ g.bits.bad) (hc : c < g.maxCluster) :
    c < FAT_ENT_EOF :=
  lt_of_lt_of_le (hc.trans_le hbad) g.bits.bad_le_eof

lemma IsClusterChain.length_le (h : IsClusterChain g t l) :
    l.length ≤ g.maxCluster - FAT_START_ENT := by
  have hsubset : l.toFinset ⊆ Finset.Ico FAT_START_ENT g.maxCluster := fun e he =>
    Finset.mem_Ico.mpr (h.range e (mem_toFinset.mp he))
  have hcard := Finset.card_le_card hsubset
  rwa [toFinset_card_of_nodup h.nodup, Nat.card_Ico] at hcard

/-! ### What `fat_free_clusters` does -/

variable {vol vol' : Vol} {fe : FatEntry}

/-- The entries of the list have been freed, and no others have changed. -/
structure Freed (g : Geometry) (vol vol' : Vol) (l : List Nat) : Prop where
  free : ∀ c ∈ l, entGet g.bits vol'.table c = FAT_ENT_FREE
  frames : Frames g.bits vol.table vol'.table l
  count : vol'.freeClusters = vol.freeClusters.map (· + l.length)
  prevFree : vol'.prevFree = vol.prevFree

def freeEntry (g : Geometry) (c : Nat) (vol : Vol) : Vol :=
  { vol with
    table := entPut g.bits vol.table c FAT_ENT_FREE,
    freeClusters := vol.freeClusters.map (· + 1) }

lemma freed_nil (vol : Vol) : Freed g vol vol [] :=
  ⟨by simp, fun _ _ => rfl, by cases vol.freeClusters <;> rfl, rfl⟩

lemma Freed.cons (h : Freed g (freeEntry g c vol) vol' l) (hc : c ∉ l) :
    Freed g vol vol' (c :: l) := by
  refine ⟨fun e he => ?_, ?_, ?_, h.prevFree⟩
  · obtain rfl | he := mem_cons.mp he
    · rw [h.frames.entGet hc]
      exact entGet_entPut_self _ _ (storable_free _)
    · exact h.free e he
  · exact (frames_entPut vol.table c (storable_free _)).trans h.frames
  · rw [h.count, freeEntry, Option.map_map]
    congr 1
    funext n
    exact add_right_comm n 1 l.length

lemma freeLoop_succ (fuel : Nat) (hready : fe.Ready g)
    (hrange : FAT_START_ENT ≤ c ∧ c < g.maxCluster)
    (hfirst : fe.bhs ≠ .none → ¬Crossed g fe.entry c)
    (hfree : entGet g.bits vol.table c ≠ FAT_ENT_FREE) :
    ∃ fe', fe'.Good g ∧ fe'.entry = c ∧ freeLoop g (fuel + 1) fe c vol =
      if entGet g.bits vol.table c = FAT_ENT_EOF then (.ok (), freeEntry g c vol)
      else freeLoop g fuel fe' (entGet g.bits vol.table c) (freeEntry g c vol) := by
  obtain ⟨fe', hread, hgood, hentry⟩ :=
    fatEntRead_spec (t := vol.table) hready hrange.1 hrange.2 hfirst
  refine ⟨fe', hgood, hentry, ?_⟩
  simp only [freeLoop, hread, if_neg hfree, entPutAt_eq hgood.at_entry, hentry]
  rfl

section

variable (hbad : g.maxCluster ≤ g.bits.bad) (hchain : IsClusterChain g vol.table (c :: l))
  (hcrossed : Uncrossed g (c :: l))

include hbad hchain hcrossed

/-- A chain that can be walked is freed as a whole. -/
lemma freeLoop_spec {fuel : Nat} (hready : fe.Ready g)
    (hfirst : fe.bhs ≠ .none → ¬Crossed g fe.entry c) (hfuel : l.length < fuel) :
    ∃ vol', freeLoop g fuel fe c vol = (.ok (), vol') ∧ Freed g vol vol' (c :: l) := by
  obtain _ | fuel := fuel
  · omega
  have hnext := hchain.linked.1
  have hrange := hchain.range c mem_cons_self
  obtain ⟨hc, -⟩ := nodup_cons.mp hchain.nodup
  induction l generalizing fuel fe c vol with
  | nil =>
    have hnext : entGet g.bits vol.table c = FAT_ENT_EOF := hnext
    obtain ⟨fe', -, -, hstep⟩ := freeLoop_succ fuel hready hrange hfirst (by rw [hnext]; decide)
    rw [if_pos hnext] at hstep
    exact ⟨_, hstep, (freed_nil _).cons hc⟩
  | cons c' l ih =>
    have hnext : entGet g.bits vol.table c = c' := hnext
    have hfuel : l.length < fuel := by simpa using hfuel
    obtain _ | fuel := fuel
    · omega
    obtain ⟨hlow', hhigh'⟩ := hchain.range c' (by simp)
    have hfree : entGet g.bits vol.table c ≠ FAT_ENT_FREE := by
      rw [hnext]
      exact Nat.ne_of_gt (lt_of_lt_of_le (by decide) hlow')
    obtain ⟨fe', hgood, hentry, hstep⟩ := freeLoop_succ (fuel + 1) hready hrange hfirst hfree
    rw [hnext, if_neg (ne_of_lt (lt_eof hbad hhigh'))] at hstep
    -- the rest of the chain is as it was
    have hrest : IsClusterChain g (freeEntry g c vol).table (c' :: l) := by
      refine (hchain.drop 1).congr fun e he => ?_
      exact (frames_entPut vol.table c (storable_free _)).entGet (by
        simp only [mem_singleton]
        rintro rfl
        exact hc he)
    obtain ⟨hcross, hcrossed'⟩ := isChain_cons_cons.mp hcrossed
    obtain ⟨vol', hloop, hfreed⟩ := ih hrest hcrossed' (.inr hgood.framed)
      (fun _ => hentry ▸ hcross) _ hfuel hrest.linked.1 ⟨hlow', hhigh'⟩
      (nodup_cons.mp hrest.nodup).1
    exact ⟨vol', hstep.trans hloop, hfreed.cons hc⟩

lemma fatFreeClusters_spec :
    ∃ vol', fatFreeClusters g c vol = (.ok (), vol') ∧ Freed g vol vol' (c :: l) := by
  refine freeLoop_spec hbad hchain hcrossed (.inl rfl) (fun h => absurd rfl h) ?_
  have hlength := hchain.length_le
  rw [length_cons] at hlength
  omega

end

/-! ### Once round the table -/

/-- The next `n` entries from `e` on, with the first behind the last. -/
def cycle (g : Geometry) : (e n : Nat) → List Nat
  | _, 0 => []
  | e, n + 1 =>
    let e := if g.maxCluster ≤ e then FAT_START_ENT else e
    e :: cycle g (e + 1) n

lemma cycle_of_le (h : e + n ≤ g.maxCluster) : cycle g e n = range' e n := by
  induction n generalizing e with
  | zero => rfl
  | succ n ih => rw [cycle, if_neg (by omega), ih (by omega), range'_succ]

lemma cycle_wrap (he : e ≤ g.maxCluster) (hn : FAT_START_ENT + n ≤ g.maxCluster) :
    cycle g e (g.maxCluster - e + n) =
      range' e (g.maxCluster - e) ++ range' FAT_START_ENT n := by
  induction hk : g.maxCluster - e generalizing e with
  | zero =>
    rw [zero_add, range'_zero, nil_append, ← cycle_of_le hn]
    cases n with
    | zero => rfl
    | succ n => rw [cycle, cycle, if_pos (by omega), if_neg (by omega)]
  | succ k ih =>
    rw [add_right_comm, cycle, if_neg (by omega), ih (by omega) (by omega), range'_succ,
      cons_append]

/-- Starting anywhere, each entry is seen once. -/
lemma cycle_perm (hlow : FAT_START_ENT ≤ e) (hhigh : e ≤ g.maxCluster) :
    (cycle g e (g.maxCluster - FAT_START_ENT)).Perm
      (range' FAT_START_ENT (g.maxCluster - FAT_START_ENT)) := by
  have hwrap := cycle_wrap (n := e - FAT_START_ENT) hhigh (by omega)
  have happend := range'_append_1 (s := FAT_START_ENT) (m := e - FAT_START_ENT)
    (n := g.maxCluster - e)
  rw [show g.maxCluster - e + (e - FAT_START_ENT) = g.maxCluster - FAT_START_ENT by omega] at hwrap
  rw [Nat.add_sub_cancel' hlow,
    show e - FAT_START_ENT + (g.maxCluster - e) = g.maxCluster - FAT_START_ENT by omega] at happend
  rw [hwrap, ← happend]
  exact perm_append_comm

/-! ### What `fat_alloc_clusters` does -/

/-- The clusters that have been taken are a chain, and no other entries have changed. -/
structure Taken (g : Geometry) (vol vol' : Vol) (cs : List Nat) : Prop where
  linked : Linked (links g vol') FAT_ENT_EOF cs
  frames : Frames g.bits vol.table vol'.table cs
  count : vol'.freeClusters = vol.freeClusters.map (· - cs.length)
  prevFree : vol'.prevFree = cs.getLast?.getD vol.prevFree

/-- `prev_ent` is the window of the cluster that was taken last. -/
def IsPrev (g : Geometry) (prev : Option FatEntry) (cs : List Nat) : Prop :=
  match prev with
  | none => cs = []
  | some p => p.At g ∧ ∃ cs', cs = cs' ++ [p.entry]

lemma taken_nil (vol : Vol) : Taken g vol vol [] :=
  ⟨trivial, fun _ _ => rfl, by cases vol.freeClusters <;> rfl, rfl⟩

lemma Taken.take (h : Taken g vol vol' cs) (hprev : IsPrev g prev cs) (hat : fe.At g)
    (hnodup : (cs ++ [fe.entry]).Nodup) (hbad : fe.entry < g.bits.bad) :
    Taken g vol (takeEntry g fe prev vol') (cs ++ [fe.entry]) := by
  have heof := frames_entPut vol'.table fe.entry (storable_eof g.bits)
  have hcount : (takeEntry g fe prev vol').freeClusters =
      vol.freeClusters.map (· - (cs ++ [fe.entry]).length) := by
    change vol'.freeClusters.map _ = _
    rw [h.count, Option.map_map, length_append]
    rfl
  have hlast : (takeEntry g fe prev vol').prevFree =
      (cs ++ [fe.entry]).getLast?.getD vol.prevFree := by
    rw [getLast?_append]
    rfl
  cases prev with
  | none =>
    obtain rfl : cs = [] := hprev
    have htable : (takeEntry g fe none vol').table =
        entPut g.bits vol'.table fe.entry FAT_ENT_EOF :=
      entPutAt_eq hat _
    refine ⟨?_, ?_, hcount, hlast⟩
    · rw [links, htable]
      exact ⟨entGet_entPut_self _ _ (storable_eof _), trivial⟩
    · rw [htable]
      exact h.frames.trans heof
  | some p =>
    obtain ⟨hp, cs', rfl⟩ := hprev
    have hstorable : g.bits.Storable fe.entry := .inl hbad
    have hout := (nodup_append'.mp hnodup).2.2
    have htable : (takeEntry g fe (some p) vol').table =
        entPut g.bits (entPut g.bits vol'.table fe.entry FAT_ENT_EOF) p.entry fe.entry := by
      rw [takeEntry]
      rw [entPutAt_eq hat, entPutAt_eq hp]
    refine ⟨?_, ?_, hcount, hlast⟩
    · rw [links, htable, entGet_entPut _ _ hstorable, entGet_entPut _ _ (storable_eof _)]
      have hrelinked := h.linked.update_last (nodup_append'.mp hnodup).1 fe.entry
      have hne : fe.entry ≠ p.entry := fun heq => hout (a := p.entry) (by simp) (by simp [heq])
      refine linked_append.mpr ⟨hrelinked.congr fun c hc => ?_, ?_, trivial⟩
      · have hc' : c ≠ fe.entry := fun heq => hout hc (by simp [heq])
        simp only [update_apply, if_neg hc']
      · rw [update_of_ne hne, update_self]
        rfl
    · rw [htable]
      intro e he
      simp only [mem_append, mem_singleton, not_or] at he
      rw [frames_entPut _ _ hstorable e (by simpa using he.1.2), heof e (by simpa using he.2),
        h.frames e (by simp [he.1])]

lemma scan_window (hwindow : readBlock = true ∨ fe.Good g ∧ fe.entry < g.maxCluster) :
    ∃ fe', fe'.Good g ∧
      fe'.entry = (if g.maxCluster ≤ fe.entry then FAT_START_ENT else fe.entry) ∧
      (if readBlock then
        fatEntReadBlock g
          { fe with entry := if g.maxCluster ≤ fe.entry then FAT_START_ENT else fe.entry }
      else fe) = fe' := by
  cases readBlock with
  | true =>
    obtain ⟨hgood, hentry⟩ := good_fatEntReadBlock (g := g)
      { fe with entry := if g.maxCluster ≤ fe.entry then FAT_START_ENT else fe.entry }
    exact ⟨_, hgood, hentry, rfl⟩
  | false =>
    obtain ⟨hgood, hlt⟩ := hwindow.resolve_left Bool.false_ne_true
    exact ⟨fe, hgood, (if_neg (not_le.mpr hlt)).symm, rfl⟩

lemma scan_next (hgood : fe.Good g) : (fatEntNext g fe).1.entry = fe.entry + 1 ∧
    ((!(fatEntNext g fe).2) = true ∨
      (fatEntNext g fe).1.Good g ∧ (fatEntNext g fe).1.entry < g.maxCluster) := by
  refine ⟨entry_entNext fe, ?_⟩
  cases hmore : (fatEntNext g fe).2 with
  | false => exact .inl rfl
  | true =>
    simp only [fatEntNext, Bool.and_eq_true, decide_eq_true_eq] at hmore
    exact .inr ⟨good_entNext hgood hmore.1, hmore.2⟩

/-- The free entries among the next `left`, in the order in which they are seen. -/
def freeAhead (g : Geometry) (vol : Vol) (e left : Nat) : List Nat :=
  (cycle g e left).filter fun e => entGet g.bits vol.table e = FAT_ENT_FREE

lemma allocScan_spec (hbad : g.maxCluster ≤ g.bits.bad) {left : Nat} (hnr : cs.length < nr)
    (hwindow : readBlock = true ∨ fe.Good g ∧ fe.entry < g.maxCluster) (h : Taken g vol vol' cs)
    (hprev : IsPrev g prev cs) (hnodup : (cs ++ cycle g fe.entry left).Nodup)
    (hrange : ∀ e ∈ cycle g fe.entry left, e < g.maxCluster) :
    ∃ vol'', allocScan g nr left fe readBlock prev cs vol' =
        (cs ++ (freeAhead g vol fe.entry left).take (nr - cs.length), vol'',
          decide (nr - cs.length ≤ (freeAhead g vol fe.entry left).length)) ∧
      Taken g vol vol'' (cs ++ (freeAhead g vol fe.entry left).take (nr - cs.length)) := by
  induction left generalizing fe readBlock prev cs vol' with
  | zero =>
    refine ⟨vol', ?_, by simpa [freeAhead, cycle] using h⟩
    simp only [allocScan, freeAhead, cycle, filter_nil, take_nil, append_nil,
      length_nil, Nat.le_zero, Nat.sub_eq_zero_iff_le]
    rw [decide_eq_false (by omega)]
  | succ left ih =>
    obtain ⟨fe₁, hgood, hentry, hfe₁⟩ := scan_window hwindow
    obtain ⟨hentry', hwindow'⟩ := scan_next hgood
    rw [cycle, ← hentry, ← hentry'] at hnodup hrange
    have hahead : freeAhead g vol fe.entry (left + 1) =
        if entGet g.bits vol.table fe₁.entry = FAT_ENT_FREE then
          fe₁.entry :: freeAhead g vol (fatEntNext g fe₁).1.entry left
        else freeAhead g vol (fatEntNext g fe₁).1.entry left := by
      simp only [freeAhead, cycle, ← hentry, ← hentry', filter_cons, decide_eq_true_eq]
    have hout : fe₁.entry ∉ cs := fun hin =>
      (nodup_append'.mp hnodup).2.2 hin mem_cons_self
    have hnodup' : (cs ++ [fe₁.entry] ++ cycle g (fatEntNext g fe₁).1.entry left).Nodup := by
      rwa [append_assoc]
    have hrange' : ∀ e ∈ cycle g (fatEntNext g fe₁).1.entry left, e < g.maxCluster :=
      fun e he => hrange e (mem_cons_of_mem _ he)
    simp only [allocScan, hfe₁, entGetAt_eq hgood.at_entry, h.frames.entGet hout, hahead]
    by_cases hfree : entGet g.bits vol.table fe₁.entry = FAT_ENT_FREE
    · simp only [if_pos hfree, length_append, length_cons, length_nil, zero_add]
      have htaken := h.take hprev hgood.at_entry (nodup_append'.mp hnodup').1
        ((hrange _ mem_cons_self).trans_le hbad)
      by_cases henough : cs.length + 1 = nr
      · rw [if_pos henough, show nr - cs.length = 1 by omega]
        exact ⟨takeEntry g fe₁ prev vol', by simp, by simpa using htaken⟩
      · have hprev' : IsPrev g (some fe₁) (cs ++ [fe₁.entry]) := ⟨hgood.at_entry, cs, rfl⟩
        have hnr' : (cs ++ [fe₁.entry]).length < nr := by
          rw [length_append, length_singleton]
          omega
        obtain ⟨vol'', hscan, htaken'⟩ := ih hnr' hwindow' htaken hprev' hnodup' hrange'
        rw [length_append, append_assoc] at hscan htaken'
        rw [show nr - cs.length = nr - (cs.length + 1) + 1 by omega,
          if_neg henough]
        simp only [Nat.add_le_add_iff_right]
        exact ⟨vol'', hscan, htaken'⟩
    · simp only [if_neg hfree]
      refine ih hnr hwindow' h hprev ?_ hrange'
      exact hnodup.sublist (Sublist.append_left (sublist_cons_self ..) cs)

def freeCount (g : Geometry) (t : Table) : Nat :=
  {e ∈ Finset.Ico FAT_START_ENT g.maxCluster | entGet g.bits t e = FAT_ENT_FREE}.card

lemma freeCount_of_taken (hnodup : cs.Nodup)
    (hrange : ∀ c ∈ cs, FAT_START_ENT ≤ c ∧ c < g.maxCluster) (hframes : Frames g.bits t t' cs)
    (hfree : ∀ c ∈ cs, entGet g.bits t c = FAT_ENT_FREE)
    (htaken : ∀ c ∈ cs, entGet g.bits t' c ≠ FAT_ENT_FREE) :
    freeCount g t = freeCount g t' + cs.length := by
  rw [← toFinset_card_of_nodup hnodup, freeCount, freeCount, ← Finset.card_union_of_disjoint]
  · congr 1
    ext e
    by_cases he : e ∈ cs
    · simp [he, hfree e he, hrange e he]
    · simp [he, hframes.entGet he]
  · refine Finset.disjoint_left.mpr fun e he hcs => ?_
    exact htaken e (mem_toFinset.mp hcs) (Finset.mem_filter.mp he).2

/-- The free entries that a scan from `prev_free` on meets. -/
def freeFrom (g : Geometry) (vol : Vol) : List Nat :=
  freeAhead g vol (vol.prevFree + 1) (g.maxCluster - FAT_START_ENT)

section FreeFrom

variable (hprev : FAT_START_ENT ≤ vol.prevFree ∧ vol.prevFree < g.maxCluster)

include hprev

lemma cycle_prevFree_perm : (cycle g (vol.prevFree + 1) (g.maxCluster - FAT_START_ENT)).Perm
    (range' FAT_START_ENT (g.maxCluster - FAT_START_ENT)) :=
  cycle_perm (by omega) (by omega)

lemma length_freeFrom : (freeFrom g vol).length = freeCount g vol.table :=
  ((cycle_prevFree_perm hprev).filter _).length_eq

lemma nodup_freeFrom : (freeFrom g vol).Nodup :=
  ((cycle_prevFree_perm hprev).nodup_iff.mpr nodup_range').filter _

lemma mem_freeFrom {c : Nat} (hc : c ∈ freeFrom g vol) :
    (FAT_START_ENT ≤ c ∧ c < g.maxCluster) ∧ entGet g.bits vol.table c = FAT_ENT_FREE := by
  obtain ⟨hmem, hfree⟩ := mem_filter.mp hc
  have hmem := (cycle_prevFree_perm hprev).mem_iff.mp hmem
  exact ⟨by rw [mem_range'_1] at hmem; omega, by simpa using hfree⟩

end FreeFrom

/-- What the superblock says about the free clusters. -/
structure Counted (g : Geometry) (vol : Vol) : Prop where
  prevFree : FAT_START_ENT ≤ vol.prevFree ∧ vol.prevFree < g.maxCluster
  count : ∀ n, vol.freeClusters = some n → n = freeCount g vol.table

/-- The clusters that an allocation hands out. -/
structure Allocated (g : Geometry) (vol vol' : Vol) (cs : List Nat) : Prop where
  chain : IsClusterChain g vol'.table cs
  free : ∀ c ∈ cs, entGet g.bits vol.table c = FAT_ENT_FREE
  frames : Frames g.bits vol.table vol'.table cs
  counted : Counted g vol'

lemma links_ne_free (hchain : IsClusterChain g t l) (hc : c ∈ l) :
    entGet g.bits t c ≠ FAT_ENT_FREE := by
  obtain ⟨l₁, l₂, rfl⟩ := append_of_mem hc
  have hnext : entGet g.bits t c = l₂.headD FAT_ENT_EOF := (linked_append.mp hchain.linked).2.1
  rw [hnext]
  cases l₂ with
  | nil => decide
  | cons c' l₂ =>
    have hlow := (hchain.range c' (by simp)).1
    exact Nat.ne_of_gt (lt_of_lt_of_le (by decide) hlow)

lemma Taken.allocated (h : Counted g vol) (htaken : Taken g vol vol' ((freeFrom g vol).take n)) :
    Allocated g vol vol' ((freeFrom g vol).take n) := by
  have hmem : ∀ c ∈ (freeFrom g vol).take n, _ := fun c hc =>
    mem_freeFrom h.prevFree (mem_of_mem_take hc)
  have hnodup : ((freeFrom g vol).take n).Nodup :=
    (nodup_freeFrom h.prevFree).sublist (take_sublist ..)
  have hchain : IsClusterChain g vol'.table ((freeFrom g vol).take n) :=
    ⟨htaken.linked, fun c hc => (hmem c hc).1, hnodup⟩
  have hcount := freeCount_of_taken hnodup hchain.range htaken.frames (fun c hc => (hmem c hc).2)
    fun c hc => links_ne_free hchain hc
  refine ⟨hchain, fun c hc => (hmem c hc).2, htaken.frames, ?_, fun k hk => ?_⟩
  · rw [htaken.prevFree]
    cases hlast : ((freeFrom g vol).take n).getLast? with
    | none => exact h.prevFree
    | some c => exact (hmem c (mem_of_getLast? hlast)).1
  · rw [htaken.count] at hk
    obtain ⟨k', hk', rfl⟩ := Option.map_eq_some_iff.mp hk
    have := h.count k' hk'
    omega

lemma entRaw_of_free {t : Table} (h : entGet bits t e = FAT_ENT_FREE) :
    entRaw bits t e = 0 := by
  simp only [entGet] at h
  split_ifs at h
  · exact absurd h (by decide)
  · exact h

structure Restored (g : Geometry) (vol vol' : Vol) : Prop where
  entries : ∀ e, entRaw g.bits vol'.table e = entRaw g.bits vol.table e
  counted : Counted g vol'

lemma freeCount_congr
    (h : ∀ e, entGet g.bits t' e = FAT_ENT_FREE ↔ entGet g.bits t e = FAT_ENT_FREE) :
    freeCount g t' = freeCount g t := by
  simp only [freeCount, h]

lemma Restored.freeCount_eq (h : ∀ e, entRaw g.bits t' e = entRaw g.bits t e) :
    freeCount g t' = freeCount g t :=
  freeCount_congr fun e => by simp only [entGet, h e]

section

variable (hbad : g.maxCluster ≤ g.bits.bad)

include hbad

lemma scan_spec (h : Counted g vol) (hnr : 0 < nr) :
    ∃ vol', allocScan g nr (g.maxCluster - FAT_START_ENT)
        { fatentInit with entry := vol.prevFree + 1 } true none [] vol =
        ((freeFrom g vol).take nr, vol', decide (nr ≤ freeCount g vol.table)) ∧
      Allocated g vol vol' ((freeFrom g vol).take nr) := by
  have hperm := cycle_prevFree_perm h.prevFree
  have hrange : ∀ e ∈ cycle g (vol.prevFree + 1) (g.maxCluster - FAT_START_ENT),
      e < g.maxCluster := by
    intro e he
    have hmem := mem_range'_1.mp (hperm.mem_iff.mp he)
    omega
  obtain ⟨vol', hscan, htaken⟩ : ∃ vol', allocScan g nr (g.maxCluster - FAT_START_ENT)
      { fatentInit with entry := vol.prevFree + 1 } true none [] vol =
      ((freeFrom g vol).take nr, vol', decide (nr ≤ (freeFrom g vol).length)) ∧
        Taken g vol vol' ((freeFrom g vol).take nr) :=
    allocScan_spec hbad hnr (.inl rfl) (taken_nil vol) rfl (hperm.nodup_iff.mpr nodup_range')
      hrange
  exact ⟨vol', length_freeFrom h.prevFree ▸ hscan, htaken.allocated h⟩

lemma Allocated.restore {vol₁ : Vol} (h : Allocated g vol vol₁ (c :: l))
    (hcrossed : Uncrossed g (c :: l)) (hcount : freeCount g vol.table = (c :: l).length) :
    Restored g vol (fatFreeClusters g c { vol₁ with freeClusters := some 0 }).2 := by
  obtain ⟨vol₂, hfree, hfreed⟩ : ∃ vol₂,
      fatFreeClusters g c { vol₁ with freeClusters := some 0 } = (.ok (), vol₂) ∧
        Freed g { vol₁ with freeClusters := some 0 } vol₂ (c :: l) :=
    fatFreeClusters_spec hbad h.chain hcrossed
  have hentries : ∀ e, entRaw g.bits vol₂.table e = entRaw g.bits vol.table e := by
    intro e
    by_cases he : e ∈ c :: l
    · rw [entRaw_of_free (hfreed.free e he), entRaw_of_free (h.free e he)]
    · rw [hfreed.frames e he, h.frames e he]
  rw [hfree]
  refine ⟨hentries, ?_, fun n hn => ?_⟩
  · rw [hfreed.prevFree]
    exact h.counted.prevFree
  · rw [hfreed.count] at hn
    rw [Restored.freeCount_eq hentries, hcount, ← Option.some.inj hn]
    exact zero_add _

lemma fatAllocClusters_ok (h : Counted g vol) (hnr : 0 < nr)
    (henough : nr ≤ freeCount g vol.table) :
    ∃ cs vol', fatAllocClusters g nr vol = (.ok cs, vol') ∧ cs.length = nr ∧
      Allocated g vol vol' cs := by
  obtain ⟨vol', hscan, halloc⟩ := scan_spec hbad h hnr
  have hcheck : vol.freeClusters.any (· < nr) = false := by
    cases hn : vol.freeClusters with
    | none => rfl
    | some n => simpa [h.count n hn] using henough
  refine ⟨_, vol', ?_, ?_, halloc⟩
  · rw [fatAllocClusters, hcheck, hscan, decide_eq_true henough]
    rfl
  · rw [length_take, length_freeFrom h.prevFree, min_eq_left henough]

lemma fatAllocClusters_nospc (h : Counted g vol) (hnr : 0 < nr)
    (hfew : freeCount g vol.table < nr) :
    ∃ vol', fatAllocClusters g nr vol = (.error .nospc, vol') ∧
      (Uncrossed g (freeFrom g vol) → Restored g vol vol') := by
  by_cases hcheck : vol.freeClusters.any (· < nr) = true
  · refine ⟨vol, ?_, fun _ => ⟨fun _ => rfl, h⟩⟩
    rw [fatAllocClusters, if_pos hcheck]
  · obtain ⟨vol', hscan, halloc⟩ := scan_spec hbad h hnr
    have hlength := length_freeFrom h.prevFree
    rw [take_of_length_le (by omega), decide_eq_false (by omega)] at hscan
    rw [take_of_length_le (by omega)] at halloc
    rw [fatAllocClusters, if_neg hcheck, hscan]
    cases hfree : freeFrom g vol with
    | nil =>
      rw [hfree] at halloc hlength
      have hentries := fun e => halloc.frames e not_mem_nil
      refine ⟨_, rfl, fun _ => ⟨hentries, halloc.counted.prevFree, fun n hn => ?_⟩⟩
      rw [Restored.freeCount_eq hentries, ← hlength, ← Option.some.inj hn]
      rfl
    | cons c l =>
      rw [hfree] at halloc hlength
      exact ⟨_, rfl, fun hcrossed => halloc.restore hbad hcrossed hlength.symm⟩

end

end R0Kernel.Fat
