import R0Kernel.Mm.PageAlloc.Free

/-! # Runs of the buddy allocator

The invariant holds in every state that allocations and releases can reach, and
the blocks on the lists depend only on which pages are free. -/

namespace R0Kernel.Mm.PageAlloc

open R0Kernel.Dyadic List

variable {cfg : Config} {z z' : Zone} {d : Nat → Int} {e : Int}

/-! ## The invariant along a run -/

inductive Event where
  | rmqueue (order : Nat) (mt : MigrateType) (page : Option Nat)
  | freeOnePage (page order : Nat)

/-- One call under `zone->lock`. Only blocks that no listed block meets may be
freed; `__rmqueue` may be called with any order and type. -/
inductive Step (cfg : Config) (z : Zone) : Event → Zone → Prop where
  | rmqueue {order : Nat} {mt : MigrateType} {page : Nat} {z' : Zone}
      (hfound : rmqueue cfg z order mt = some (page, z')) :
      Step cfg z (.rmqueue order mt (some page)) z'
  | rmqueueFails {order : Nat} {mt : MigrateType} (hnone : rmqueue cfg z order mt = none) :
      Step cfg z (.rmqueue order mt none) z
  | freeOnePage {page order : Nat} (hblock : z.Unlisted cfg page order) :
      Step cfg z (.freeOnePage page order) (freeOnePage cfg z page order)

def Reaches (cfg : Config) : Zone → Zone → Prop :=
  Relation.ReflTransGen fun z z' => ∃ event, Step cfg z event z'

/-- What a call does to the free pages: a page that `__rmqueue` returns heads an
aligned block of the zone that was free and whose pages alone are free no more;
a freed block adds its pages; a failed allocation changes nothing. -/
def Effect (cfg : Config) (z : Zone) : Event → Zone → Prop
  | .rmqueue order _ (some page), z' => FreeLists.Carved cfg z.toFreeLists z'.toFreeLists page order
  | .rmqueue _ _ none, z' => z' = z
  | .freeOnePage page order, z' => ∀ u, z'.Free cfg u ↔ z.Free cfg u ∨ Covers page order u

lemma step_wellFormed {event : Event} (hz : WellFormed cfg z) (hstep : Step cfg z event z') :
    WellFormed cfg z' ∧ Effect cfg z event z' := by
  have htracked := wellFormed_iff_tracked.mp hz
  cases hstep with
  | rmqueue hfound =>
    have hspec := rmqueue_spec htracked _ hfound
    exact ⟨wellFormed_iff_tracked.mpr hspec.tracked, hspec.carved⟩
  | rmqueueFails hnone => exact ⟨hz, rfl⟩
  | freeOnePage hblock =>
    have hspec := freeOnePage_spec htracked hblock
    exact ⟨wellFormed_iff_tracked.mpr hspec.1, hspec.2⟩

/-- The buddy invariant holds in every state a run reaches, and every further
call takes out or puts back exactly the pages of its block. -/
theorem buddy_invariant (hz : WellFormed cfg z) (hrun : Reaches cfg z z') :
    WellFormed cfg z' ∧
      ∀ event z'', Step cfg z' event z'' → WellFormed cfg z'' ∧ Effect cfg z' event z'' := by
  have hreached : WellFormed cfg z' := by
    induction hrun with
    | refl => exact hz
    | tail _ hlast ih =>
      obtain ⟨event, hstep⟩ := hlast
      exact (step_wellFormed ih hstep).1
  exact ⟨hreached, fun _ _ hstep => step_wellFormed hreached hstep⟩

/-- `MAX_ORDER` 11 and page blocks of the last order, as this kernel is built. -/
def defaultConfig : Config := ⟨11, by decide, 10, false⟩

/-- A zone of 4096 frames without a free page. -/
def fullZone : Zone where
  span := {
    zoneStartPfn := 0
    spannedPages := 4096
    zoneId := 1
    pageZoneId := fun pfn => if pfn < 4096 then 1 else 0
    pageZoneId_eq_iff := fun pfn => by split <;> simp <;> omega }
  page := fun _ => ⟨false, 0⟩
  freeList := fun _ _ => []
  nrFree := fun _ => 0
  nrFreePages := 0
  pageblockFlags := fun _ => .movable

lemma fullZone_not_listed (cfg : Config) (p o : Nat) : ¬ fullZone.Listed cfg p o := by
  rintro ⟨_, mt, hmem⟩
  exact not_mem_nil hmem

lemma fullZone_wellFormed (cfg : Config) : WellFormed cfg fullZone where
  consistent := {
    aligned := fun p o h => absurd h (fullZone_not_listed cfg p o)
    inZone := fun p o h => absurd h (fullZone_not_listed cfg p o)
    apart := fun p o _ _ h => absurd h (fullZone_not_listed cfg p o)
    nodup := fun _ _ _ => nodup_nil
    oneList := fun _ _ _ _ _ h => absurd h not_mem_nil
    flagged := fun p _ => ⟨fun h => absurd h Bool.false_ne_true,
      fun ⟨o, h⟩ => absurd h (fullZone_not_listed cfg p o)⟩
    order := fun p o h => absurd h (fullZone_not_listed cfg p o) }
  nrFree _ _ := by simp [FreeLists.listedCount, fullZone]
  nrFreePages := by simp [FreeLists.listedPages, FreeLists.listedCount, fullZone]
  coalesced p o _ h := absurd h (fullZone_not_listed cfg p o)

lemma fullZone_unlisted {p o : Nat} (ho : o < 11) (hp : 2 ^ o ∣ p) (hin : p + 2 ^ o ≤ 4096) :
    fullZone.Unlisted defaultConfig p o :=
  ⟨ho, hp, ⟨Nat.zero_le p, by simpa [fullZone] using hin⟩,
    fun q r h => absurd h (fullZone_not_listed defaultConfig q r)⟩

/-- The fallback path serves an unmovable page from a freed movable block. -/
theorem buddy_invariant_fallback :
    ∃ page z', rmqueue defaultConfig (freeOnePage defaultConfig fullZone 1024 10) 0 .unmovable =
      some (page, z') ∧ WellFormed defaultConfig z' := by
  have hblock := fullZone_unlisted (p := 1024) (o := 10) (by decide) (by decide) (by decide)
  have hstep : Reaches defaultConfig fullZone (freeOnePage defaultConfig fullZone 1024 10) :=
    Relation.ReflTransGen.single ⟨_, Step.freeOnePage hblock⟩
  have hsome : (rmqueue defaultConfig (freeOnePage defaultConfig fullZone 1024 10) 0
      .unmovable).isSome = true := by decide +kernel
  obtain ⟨⟨page, z'⟩, hfound⟩ := Option.isSome_iff_exists.mp hsome
  exact ⟨page, z', hfound,
    ((buddy_invariant (fullZone_wellFormed _) hstep).2 _ _ (Step.rmqueue hfound)).1⟩

/-! ## Coalescing is canonical -/

/-- Consistent lists without a pair of free buddies; nothing about the counters. -/
structure Coalesced (cfg : Config) (a : FreeLists) : Prop where
  consistent : a.Consistent cfg
  coalesced : ∀ p o, o + 1 < cfg.maxOrder → a.Listed cfg p o → ¬ a.Listed cfg (p ^^^ 2 ^ o) o

lemma Coalesced.tracked (hz : Coalesced cfg z.toFreeLists) :
    Tracked cfg z (fun o => z.nrFree o - z.listedCount o) (z.nrFreePages - z.listedPages cfg) :=
  ⟨hz.consistent, hz.coalesced, fun _ _ => by ring, by ring⟩

lemma coalesce_span (rounds : Nat) (z : Zone) (page pageIdx order : Nat) :
    (coalesce rounds z page pageIdx order).1.span = z.span := by
  induction rounds generalizing z page pageIdx order with
  | zero => rfl
  | succ rounds ih =>
    unfold coalesce
    dsimp only
    split
    · rw [ih]
      rfl
    · rfl

lemma freeOnePage_span (cfg : Config) (z : Zone) (page order : Nat) :
    (freeOnePage cfg z page order).span = z.span :=
  coalesce_span _ _ _ _ _

/-- Release the blocks one after the other. -/
def freeAll (cfg : Config) (z : Zone) (blocks : List (Nat × Nat)) : Zone :=
  blocks.foldl (fun z block => freeOnePage cfg z block.1 block.2) z

/-- A block apart from the freed one can still be freed after it. -/
lemma FreeLists.Unlisted.after_free (htracked : Tracked cfg z d e) {page order p o : Nat}
    (hfreed : z.Unlisted cfg page order) (hblock : z.Unlisted cfg p o)
    (hapart : Apart page order p o) : (freeOnePage cfg z page order).Unlisted cfg p o where
  bounded := hblock.bounded
  aligned := hblock.aligned
  inZone := by
    have hzone := hblock.inZone
    unfold FreeLists.InZone at hzone ⊢
    rwa [freeOnePage_span]
  apart q r hq := by
    rw [apart_iff_forall_not_covers]
    intro u hu hcover
    rcases ((freeOnePage_spec htracked hfreed).2 u).mp ⟨q, r, hq, hcover⟩ with hfree | hblockCover
    · obtain ⟨s, t, hst, hcover'⟩ := hfree
      exact (hblock.apart s t hst).not_covers hu hcover'
    · exact hapart.not_covers hblockCover hu

lemma freeAll_spec (blocks : List (Nat × Nat)) {z : Zone} (htracked : Tracked cfg z d e)
    (hblocks : ∀ block ∈ blocks, z.Unlisted cfg block.1 block.2)
    (hapart : blocks.Pairwise fun b c => Apart b.1 b.2 c.1 c.2) :
    Tracked cfg (freeAll cfg z blocks) d e ∧
      ∀ u, (freeAll cfg z blocks).Free cfg u ↔
        z.Free cfg u ∨ ∃ block ∈ blocks, Covers block.1 block.2 u := by
  induction blocks generalizing z with
  | nil => exact ⟨htracked, fun u => by simp [freeAll]⟩
  | cons head rest ih =>
    obtain ⟨hhead, hrest⟩ := pairwise_cons.mp hapart
    have hfreed := hblocks head mem_cons_self
    have hspec := freeOnePage_spec htracked hfreed
    have htail := ih hspec.1 (fun block hmem =>
      hfreed.after_free htracked (hblocks block (mem_cons_of_mem _ hmem))
        (hhead block hmem)) hrest
    refine ⟨htail.1, fun u => (htail.2 u).trans ?_⟩
    rw [hspec.2 u, or_assoc]
    simp only [mem_cons, exists_eq_or_imp]

/-- Zones with the same free pages list the same blocks. -/
lemma listed_iff_of_free_iff {d' : Nat → Int} {e' : Int} (hz : Tracked cfg z d e)
    (hz' : Tracked cfg z' d' e') (hfree : ∀ u, z.Free cfg u ↔ z'.Free cfg u) (p o : Nat) :
    z.Listed cfg p o ↔ z'.Listed cfg p o :=
  hz.canonical.unique hz'.canonical hfree p o

/-- The blocks listed in the end do not depend on the order in which a set of
blocks is released, and releasing the block that `__rmqueue_smallest` has just
returned restores the listed blocks. -/
theorem coalescing_canonical (hz : Coalesced cfg z.toFreeLists) :
    (∀ blocks blocks' : List (Nat × Nat),
      (∀ block ∈ blocks, z.Unlisted cfg block.1 block.2) →
      (blocks.Pairwise fun b c => Apart b.1 b.2 c.1 c.2) → blocks.Perm blocks' →
      ∀ p o, (freeAll cfg z blocks).Listed cfg p o ↔ (freeAll cfg z blocks').Listed cfg p o) ∧
    ∀ order mt page z', rmqueueSmallest cfg z order mt = some (page, z') →
      ∀ p o, (freeOnePage cfg z' page order).Listed cfg p o ↔ z.Listed cfg p o := by
  have htracked := hz.tracked
  constructor
  · intro blocks blocks' hblocks hapart hperm
    have hspec := freeAll_spec blocks htracked hblocks hapart
    have hspec' := freeAll_spec blocks' htracked
      (fun block hmem => hblocks block (hperm.mem_iff.mpr hmem))
      (hperm.pairwise hapart Apart.symm)
    refine listed_iff_of_free_iff hspec.1 hspec'.1 fun u => ?_
    rw [hspec.2 u, hspec'.2 u]
    simp only [hperm.mem_iff]
  · intro order mt page z' hfound
    have halloc := rmqueueSmallest_spec htracked mt hfound
    have hspec := freeOnePage_spec halloc.tracked halloc.carved.unlisted
    refine listed_iff_of_free_iff hspec.1 htracked fun u => ?_
    rw [hspec.2 u, halloc.carved.free_iff u]

/-- Three blocks released in two orders merge into the block of order two. -/
theorem coalescing_canonical_three :
    (freeAll defaultConfig fullZone [(0, 0), (1, 0), (2, 1)]).Listed defaultConfig 0 2 ∧
      (freeAll defaultConfig fullZone [(2, 1), (0, 0), (1, 0)]).Listed defaultConfig 0 2 := by
  have hz := fullZone_wellFormed defaultConfig
  have hblocks : ∀ block ∈ [(0, 0), (1, 0), (2, 1)],
      fullZone.Unlisted defaultConfig block.1 block.2 := by
    intro block hmem
    simp only [mem_cons, not_mem_nil, or_false] at hmem
    rcases hmem with rfl | rfl | rfl
    · exact fullZone_unlisted (by decide) (by decide) (by decide)
    · exact fullZone_unlisted (by decide) (by decide) (by decide)
    · exact fullZone_unlisted (by decide) (by decide) (by decide)
  have hlisted : (freeAll defaultConfig fullZone [(0, 0), (1, 0), (2, 1)]).Listed
      defaultConfig 0 2 := ⟨by decide, .movable, by decide +kernel⟩
  exact ⟨hlisted, ((coalescing_canonical ⟨hz.consistent, hz.coalesced⟩).1 _ _ hblocks
    (by decide) (by decide) 0 2).mp hlisted⟩

end R0Kernel.Mm.PageAlloc
