import R0Kernel.Mm.PageAlloc.Lists

/-! # The buddy invariant and the steps that keep it

The counters of a zone follow its lists up to an error that no step changes
except where it updates a counter. With error zero this is the invariant of the
allocator between two calls; inside a call the error measures the block that is
in the hands of the allocator.
-/

namespace R0Kernel.Mm.PageAlloc

open R0Kernel.Dyadic Function FreeLists Finset

def FreeLists.listedPages (cfg : Config) (a : FreeLists) : Nat :=
  ∑ o ∈ range cfg.maxOrder, 2 ^ o * a.listedCount o

def FreeLists.Free (cfg : Config) (a : FreeLists) (u : Nat) : Prop := (a.Listed cfg).Cover u

/-- Consistent lists without a pair of free buddies, whose counters are off by
`d` at each order and by `e` in `NR_FREE_PAGES`. -/
structure Tracked (cfg : Config) (z : Zone) (d : Nat → Int) (e : Int) : Prop where
  consistent : z.Consistent cfg
  coalesced : ∀ p o, o + 1 < cfg.maxOrder → z.Listed cfg p o → ¬ z.Listed cfg (p ^^^ 2 ^ o) o
  nrFree : ∀ o, o < cfg.maxOrder → z.nrFree o = z.listedCount o + d o
  nrFreePages : z.nrFreePages = z.listedPages cfg + e

/-- The invariant of a zone between two calls: listed blocks are aligned disjoint
blocks of the zone, each on one list, and `PG_buddy` and `page_private` mark their
heads and orders (`consistent`); `nr_free` and `NR_FREE_PAGES` count them; and no
two buddies below the last order are both listed at it. -/
structure WellFormed (cfg : Config) (z : Zone) : Prop where
  consistent : z.Consistent cfg
  nrFree : ∀ o, o < cfg.maxOrder → z.nrFree o = z.listedCount o
  nrFreePages : z.nrFreePages = z.listedPages cfg
  coalesced : ∀ p o, o + 1 < cfg.maxOrder → z.Listed cfg p o → ¬ z.Listed cfg (p ^^^ 2 ^ o) o

lemma wellFormed_iff_tracked {cfg : Config} {z : Zone} :
    WellFormed cfg z ↔ Tracked cfg z (fun _ => 0) 0 := by
  constructor
  · intro h
    exact ⟨h.consistent, h.coalesced, by simpa using h.nrFree, by simpa using h.nrFreePages⟩
  · intro h
    exact ⟨h.consistent, by simpa using h.nrFree, by simpa using h.nrFreePages, h.coalesced⟩

lemma FreeLists.listedPages_update (cfg : Config) (a b : FreeLists) {o : Nat}
    (ho : o < cfg.maxOrder)
    (hcount : ∀ r, r < cfg.maxOrder →
      b.listedCount r = a.listedCount r + if r = o then 1 else 0) :
    b.listedPages cfg = a.listedPages cfg + 2 ^ o := by
  unfold listedPages
  have hterm : ∀ r ∈ range cfg.maxOrder,
      2 ^ r * b.listedCount r = 2 ^ r * a.listedCount r + if r = o then 2 ^ o else 0 := by
    intro r hr
    rw [hcount r (mem_range.mp hr)]
    by_cases heq : r = o
    · simp [heq, mul_add]
    · simp [heq]
  rw [sum_congr rfl hterm, sum_add_distrib]
  simp [ho]

namespace Tracked

variable {cfg : Config} {z : Zone} {d : Nat → Int} {e : Int}

variable (htracked : Tracked cfg z d e)

include htracked

lemma canonical : (z.Listed cfg).Canonical cfg.maxOrder :=
  ⟨fun _ _ h => h.1, htracked.consistent.aligned, htracked.consistent.apart, htracked.coalesced⟩

lemma modZonePageState (delta : Int) :
    Tracked cfg (z.modZonePageState delta) d (e + delta) where
  consistent := htracked.consistent
  coalesced := htracked.coalesced
  nrFree := htracked.nrFree
  nrFreePages := by
    have hpages := htracked.nrFreePages
    change z.nrFreePages + delta = _
    rw [hpages]
    exact add_assoc _ _ _

lemma addNrFree (o : Nat) (delta : Int) :
    Tracked cfg (z.addNrFree o delta) (update d o (d o + delta)) e where
  consistent := htracked.consistent
  coalesced := htracked.coalesced
  nrFree r hr := by
    have hcount := htracked.nrFree r hr
    by_cases heq : r = o
    · subst heq
      simp only [Zone.addNrFree, update_self, hcount]
      exact add_assoc _ _ _
    · simpa [Zone.addNrFree, update_of_ne heq] using hcount
  nrFreePages := htracked.nrFreePages

lemma setPageblockMigratetype (page : Nat) (mt : MigrateType) :
    Tracked cfg (z.setPageblockMigratetype cfg page mt) d e :=
  ⟨htracked.consistent, htracked.coalesced, htracked.nrFree, htracked.nrFreePages⟩

lemma sameBlocks {b : FreeLists} (hsame : FreeLists.SameBlocks cfg z.toFreeLists b) :
    Tracked cfg { z with toFreeLists := b } d e where
  consistent := hsame.consistent
  coalesced p o ho hlisted := by
    have hold := htracked.coalesced p o ho ((hsame.listed p o).mp hlisted)
    exact fun hbuddy => hold ((hsame.listed _ o).mp hbuddy)
  nrFree o ho := by
    rw [hsame.count o ho]
    exact htracked.nrFree o ho
  nrFreePages := by
    have hpages : b.listedPages cfg = z.listedPages cfg :=
      sum_congr rfl fun o ho => by rw [hsame.count o (mem_range.mp ho)]
    rw [hpages]
    exact htracked.nrFreePages

lemma unlist {p o : Nat} (hlisted : z.Listed cfg p o) :
    Tracked cfg { z with toFreeLists := z.toFreeLists.unlist p }
      (update d o (d o + 1)) (e + 2 ^ o) where
  consistent := htracked.consistent.unlist hlisted
  coalesced q r hr hq hbuddy := htracked.coalesced q r hr
    ((listed_unlist htracked.consistent hlisted q r).mp hq).1
    ((listed_unlist htracked.consistent hlisted _ r).mp hbuddy).1
  nrFree r hr := by
    have hcount := listedCount_listDel htracked.consistent hlisted r hr
    have hold := htracked.nrFree r hr
    change z.nrFree r = (z.toFreeLists.listDel p).listedCount r + _
    rw [hold, ← hcount]
    by_cases heq : r = o
    · subst heq
      simp only [if_true, update_self]
      push_cast
      ring
    · simp [heq]
  nrFreePages := by
    have hupdate := listedPages_update cfg (z.toFreeLists.unlist p) z.toFreeLists
      hlisted.1 fun r hr => (listedCount_listDel htracked.consistent hlisted r hr).symm
    have hold := htracked.nrFreePages
    rw [hold, hupdate]
    push_cast
    ring

lemma enlist {p o : Nat} (mt : MigrateType) (hblock : z.Unlisted cfg p o)
    (hbuddy : o + 1 < cfg.maxOrder → ¬ z.Listed cfg (p ^^^ 2 ^ o) o) :
    Tracked cfg { z with toFreeLists := z.toFreeLists.enlist o mt p }
      (update d o (d o - 1)) (e - 2 ^ o) where
  consistent := htracked.consistent.enlist mt hblock
  coalesced q r hr hq hpair := by
    have hiff := listed_enlist (a := z.toFreeLists) hblock.bounded mt p
    have hne : ∀ s, s ^^^ 2 ^ o ≠ s := fun s hs => by
      have hpow : 2 ^ o = 0 := by
        rw [← Nat.zero_xor (2 ^ o), ← Nat.xor_self s, Nat.xor_assoc, hs]
      exact absurd hpow (Nat.two_pow_pos o).ne'
    rcases (hiff q r).mp hq with hold | heq
    · rcases (hiff _ r).mp hpair with hold' | heq'
      · exact htracked.coalesced q r hr hold hold'
      · obtain ⟨hp, rfl⟩ := Prod.mk.inj heq'
        rw [← hp, xor_two_pow_involutive] at hbuddy
        exact hbuddy hr hold
    · obtain ⟨rfl, rfl⟩ := Prod.mk.inj heq
      rcases (hiff _ r).mp hpair with hold' | heq'
      · exact hbuddy hr hold'
      · exact hne q (Prod.mk.inj heq').1
  nrFree r hr := by
    have hcount := listedCount_listAdd (a := z.toFreeLists) o mt p r
    have hold := htracked.nrFree r hr
    change z.nrFree r = (z.toFreeLists.listAdd o mt p).listedCount r + _
    rw [hold, hcount]
    by_cases heq : r = o
    · subst heq
      simp only [if_true, update_self]
      push_cast
      ring
    · simp [heq]
  nrFreePages := by
    have hupdate := listedPages_update cfg z.toFreeLists
      (z.toFreeLists.enlist o mt p) hblock.bounded fun r _ =>
        listedCount_listAdd o mt p r
    have hold := htracked.nrFreePages
    rw [hold, hupdate]
    push_cast
    ring

end Tracked

end R0Kernel.Mm.PageAlloc
