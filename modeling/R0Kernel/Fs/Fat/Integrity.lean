import R0Kernel.Fs.Fat.Chain
import R0Kernel.Fs.Fat.EntryArray

/-!
# Integrity of a volume

Sequences of `fat_add_cluster` and `fat_free` on the inodes of a volume. A consistent volume stays
consistent along every sequence whose operations meet chains that can be walked. On a table of
twelve bits with a chain that steps back from an entry across two blocks, `fat_free` loses a
cluster.
-/

namespace R0Kernel.Fat

variable {Ino : Type} [DecidableEq Ino] (g : Geometry)

inductive Op (Ino : Type) where
  | addCluster (i : Ino)
  | free (i : Ino) (skip : Nat)

def Op.ino : Op Ino → Ino
  | addCluster i => i
  | free i _ => i

def Op.exec (v : Volume Ino) : Op Ino → Except Err Unit × Volume Ino
  | addCluster i => fatAddCluster g i v
  | free i skip => fatFree g i skip v

def WalkableAt (v : Volume Ino) (i : Ino) : Prop :=
  ∀ l, IsClusterChain g v.table l → v.start i = l.headD 0 → Walkable g l

/-- One call, on an inode whose chain can be walked. -/
def Step (v v' : Volume Ino) : Prop :=
  ∃ op : Op Ino, WalkableAt g v op.ino ∧ v' = (op.exec g v).2

/-- What `fat_add_cluster` does: one cluster that was free comes behind the chain of the inode, or
no cluster is free and no entry changes. -/
inductive Added (v : Volume Ino) (chains : Ino → List Nat) (i : Ino) :
    Except Err Unit × Volume Ino → Prop where
  | ok {c : Nat} {v' : Volume Ino} (free : entGet g.bits v.table c = FAT_ENT_FREE)
      (consistent : Consistent g v' (Function.update chains i (chains i ++ [c])))
      (frames : Frames g.bits v.table v'.table (chains i ++ [c])) : Added v chains i (.ok (), v')
  | nospc {v' : Volume Ino} (full : freeCount g v.table = 0) (consistent : Consistent g v' chains)
      (entries : ∀ e, entRaw g.bits v'.table e = entRaw g.bits v.table e) :
      Added v chains i (.error .nospc, v')

variable {g} {v v' : Volume Ino} {chains : Ino → List Nat} {i : Ino}

lemma fatAddCluster_added (hbad : g.maxCluster ≤ g.bits.bad) (h : Consistent g v chains)
    (hwalk : Walkable g (chains i)) : Added g v chains i (fatAddCluster g i v) := by
  obtain hfull | hfree := Nat.eq_zero_or_pos (freeCount g v.table)
  · obtain ⟨v', hadd, hv', hentries⟩ := fatAddCluster_nospc hbad h hfull
    exact hadd ▸ .nospc hfull hv' hentries
  · obtain ⟨c, v', hadd, hc, hv', hframes⟩ := fatAddCluster_ok hbad h hwalk hfree
    exact hadd ▸ .ok hc hv' hframes

lemma Added.exists_consistent {result : Except Err Unit × Volume Ino}
    (h : Added g v chains i result) : ∃ chains', Consistent g result.2 chains' := by
  cases h with
  | ok _ hv' _ => exact ⟨_, hv'⟩
  | nospc _ hv' _ => exact ⟨_, hv'⟩

lemma step_consistent (hbad : g.maxCluster ≤ g.bits.bad) (h : Consistent g v chains)
    (hstep : Step g v v') : ∃ chains', Consistent g v' chains' := by
  obtain ⟨op, hwalk, rfl⟩ := hstep
  have hwalk := hwalk _ (h.chain op.ino) (h.start op.ino)
  cases op with
  | addCluster i => exact (fatAddCluster_added hbad h hwalk).exists_consistent
  | free i skip =>
    obtain ⟨v', hfree, hcut⟩ : ∃ v', fatFree g i skip v = (.ok (), v') ∧ _ :=
      fatFree_spec hbad h hwalk skip
    rw [Op.exec, hfree]
    exact ⟨_, hcut.consistent⟩

lemma run_consistent (hbad : g.maxCluster ≤ g.bits.bad) (h : ∃ chains, Consistent g v chains)
    (hrun : Relation.ReflTransGen (Step g) v v') : ∃ chains', Consistent g v' chains' := by
  induction hrun with
  | refl => exact h
  | tail _ hstep ih =>
    obtain ⟨chains', hchains'⟩ := ih
    exact step_consistent hbad hchains' hstep

/-- A volume that is reached by calls on chains that can be walked is consistent; the next calls on
such chains add one free cluster, or cut the chain after the first ones, and touch no other chain;
and an allocation fails only for lack of free clusters, with every entry as before. -/
theorem fat_chain_integrity (hbad : g.maxCluster ≤ g.bits.bad) (h : ∃ chains, Consistent g v chains)
    (hrun : Relation.ReflTransGen (Step g) v v') :
    ∃ chains, Consistent g v' chains ∧
      (∀ i, Walkable g (chains i) → Added g v' chains i (fatAddCluster g i v') ∧
        ∀ skip, ∃ v'', fatFree g i skip v' = (.ok (), v'') ∧ Cut g v' v'' chains i skip) ∧
      ∀ nr vol, 0 < nr → fatAllocClusters g nr v'.toVol = (.error .nospc, vol) →
        freeCount g v'.table < nr ∧ (Uncrossed g (freeFrom g v'.toVol) →
          ∀ e, entRaw g.bits vol.table e = entRaw g.bits v'.table e) := by
  obtain ⟨chains, hv'⟩ := run_consistent hbad h hrun
  refine ⟨chains, hv', fun i hwalk => ⟨fatAddCluster_added hbad hv' hwalk,
    fatFree_spec hbad hv' hwalk⟩, fun nr vol hnr hfail => ?_⟩
  obtain henough | hfew := lt_or_ge (freeCount g v'.table) nr |>.symm
  · obtain ⟨cs, vol', hok, -⟩ := fatAllocClusters_ok hbad hv'.counted hnr henough
    rw [hok] at hfail
    cases hfail
  · obtain ⟨vol', hnospc, hrestored⟩ := fatAllocClusters_nospc hbad hv'.counted hnr hfew
    rw [hnospc] at hfail
    cases hfail
    exact ⟨hfew, fun huncrossed => (hrestored huncrossed).entries⟩

/-! ### A volume with wider entries -/

lemma uncrossed_of_ne_fat12 (h : g.bits ≠ .fat12) (l : List Nat) : Uncrossed g l := by
  have hall : ∀ e e', ¬Crossed g e e' := by
    intro e e' hcrossed
    simp [Crossed, Straddles, needsNext, h] at hcrossed
  exact (List.pairwise_of_forall hall).isChain

def threeClusters : Geometry where
  bits := .fat16
  blockBits := 9
  maxCluster := 5
  limit := 4
  block_le := largestFat32.block_le
  start_le := by decide
  max_le := by decide

/-- One file of one cluster, with two free clusters behind it. -/
def oneCluster : Volume Unit where
  table := fun p => if p = 4 ∨ p = 5 then 0xff else 0
  prevFree := 2
  freeClusters := some 2
  start := fun _ => 2
  caches := fun _ => []

lemma oneCluster_consistent : Consistent threeClusters oneCluster fun _ => [2] where
  chain := fun _ => ⟨⟨by decide, trivial⟩, by decide, by decide⟩
  start := fun _ => rfl
  disjoint := fun _ _ hne => absurd rfl hne
  counted := ⟨by decide, fun n hn => by cases hn; decide⟩
  caches := fun _ _ hc => absurd hc List.not_mem_nil

lemma oneCluster_walkableAt : WalkableAt threeClusters oneCluster () := fun l hl _ =>
  ⟨uncrossed_of_ne_fat12 (by decide) l, hl.length_le.trans (by decide)⟩

theorem fat_chain_integrity_one_step :
    (∃ chains, Consistent threeClusters oneCluster chains) ∧
      WalkableAt threeClusters oneCluster () ∧
      ∃ chains, Consistent threeClusters (fatAddCluster threeClusters () oneCluster).2 chains := by
  refine ⟨⟨_, oneCluster_consistent⟩, oneCluster_walkableAt, ?_⟩
  obtain ⟨chains, h, -⟩ := fat_chain_integrity (by decide) ⟨_, oneCluster_consistent⟩
    (.single ⟨.addCluster (), oneCluster_walkableAt, rfl⟩)
  exact ⟨chains, h⟩

/-! ### Stepping back from an entry across two blocks -/

/-- A table of twelve bits over two blocks of 512 bytes. -/
def twoBlocks : Geometry where
  bits := .fat12
  blockBits := 9
  maxCluster := 342
  limit := 341
  block_le := largestFat32.block_le
  start_le := by decide
  max_le := by decide

/-- One file, with cluster 341 and then cluster 340. The entry of 341 is the last half byte of the
first block and the first byte of the second. -/
def backwards : Volume Unit where
  table := fun p => if p = 510 then 0xff else if p = 511 then 0x4f else if p = 512 then 0x15 else 0
  prevFree := 2
  freeClusters := some 338
  start := fun _ => 341
  caches := fun _ => []

lemma backwards_consistent : Consistent twoBlocks backwards fun _ => [341, 340] where
  chain := fun _ => ⟨⟨by decide, by decide, trivial⟩, by decide, by decide⟩
  start := fun _ => rfl
  disjoint := fun _ _ hne => absurd rfl hne
  counted := ⟨by decide, fun n hn => by cases hn; decide +kernel⟩
  caches := fun _ _ hc => absurd hc List.not_mem_nil

/-- The whole chain is to be freed. `fat_free` fails, and the count of free clusters is wrong. -/
theorem fat_free_backwards :
    (∃ chains, Consistent twoBlocks backwards chains) ∧
      (fatFree twoBlocks () 0 backwards).1 = .error .io ∧
      ¬∃ chains, Consistent twoBlocks (fatFree twoBlocks () 0 backwards).2 chains := by
  refine ⟨⟨_, backwards_consistent⟩, by decide, fun ⟨_, h⟩ => ?_⟩
  have hfree : (fatFree twoBlocks () 0 backwards).2.freeClusters = some 340 := by decide
  exact absurd (h.counted.count 340 hfree) (by decide +kernel)

end R0Kernel.Fat
