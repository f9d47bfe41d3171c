import R0Kernel.Mm.PageAlloc.Invariant

/-! # Allocation from the free lists

Taking a block off its list leaves it in the allocator's hands. Splitting keeps
the lower half there and lists the upper one, so every path through `__rmqueue`
ends with a block of the requested order that was free and is listed no more.
-/

namespace R0Kernel.Mm.PageAlloc

open R0Kernel.Dyadic List

variable {cfg : Config} {d' : Nat → Int} {currentOrder o : Nat}

namespace FreeLists

variable {a b : FreeLists}

/-- From `a` to `b` the block has left the free pages and nothing else has. -/
structure Carved (cfg : Config) (a b : FreeLists) (page order : Nat) : Prop where
  unlisted : b.Unlisted cfg page order
  free_iff : ∀ u, a.Free cfg u ↔ b.Free cfg u ∨ Covers page order u

variable {p o page h : Nat}

lemma free_enlist (ho : o < cfg.maxOrder) (mt : MigrateType) (u : Nat) :
    (a.enlist o mt p).Free cfg u ↔ a.Free cfg u ∨ Covers p o u := by
  constructor
  · rintro ⟨q, r, hlisted, hcover⟩
    rcases (listed_enlist ho mt p q r).mp hlisted with hold | heq
    · exact Or.inl ⟨q, r, hold, hcover⟩
    · obtain ⟨rfl, rfl⟩ := Prod.mk.inj heq
      exact Or.inr hcover
  · rintro (⟨q, r, hlisted, hcover⟩ | hcover)
    · exact ⟨q, r, (listed_enlist ho mt p q r).mpr (Or.inl hlisted), hcover⟩
    · exact ⟨p, o, (listed_enlist ho mt p p o).mpr (Or.inr rfl), hcover⟩

lemma free_iff_unlist (hcons : a.Consistent cfg) (hlisted : a.Listed cfg p o) (u : Nat) :
    a.Free cfg u ↔ (a.unlist p).Free cfg u ∨ Covers p o u := by
  constructor
  · rintro ⟨q, r, hq, hcover⟩
    by_cases heq : (q, r) = (p, o)
    · obtain ⟨rfl, rfl⟩ := Prod.mk.inj heq
      exact Or.inr hcover
    · exact Or.inl ⟨q, r, (listed_unlist hcons hlisted q r).mpr ⟨hq, heq⟩, hcover⟩
  · rintro (⟨q, r, hq, hcover⟩ | hcover)
    · exact ⟨q, r, ((listed_unlist hcons hlisted q r).mp hq).1, hcover⟩
    · exact ⟨p, o, hlisted, hcover⟩

lemma Consistent.carved (hcons : a.Consistent cfg) (hlisted : a.Listed cfg p o) :
    Carved cfg a (a.unlist p) p o where
  unlisted := {
    bounded := hlisted.1
    aligned := hcons.aligned p o hlisted
    inZone := hcons.inZone p o hlisted
    apart := fun q r hq => by
      have hmem := (listed_unlist hcons hlisted q r).mp hq
      exact hcons.apart p o q r hlisted hmem.1 (Ne.symm hmem.2) }
  free_iff := free_iff_unlist hcons hlisted

/-- The halves of a block that is not listed are not listed either. -/
lemma Unlisted.half (hblock : a.Unlisted cfg page (h + 1)) (hp : p = page ∨ p = page + 2 ^ h) :
    a.Unlisted cfg p h where
  bounded := by
    have := hblock.bounded
    omega
  aligned := by
    have hdvd := (pow_dvd_pow 2 (Nat.le_succ h)).trans hblock.aligned
    rcases hp with rfl | rfl
    · exact hdvd
    · exact (Nat.dvd_add_right hdvd).mpr (dvd_refl _)
  inZone := by
    obtain ⟨hlow, hhigh⟩ := hblock.inZone
    have hpos := Nat.two_pow_pos h
    exact ⟨by omega, by omega⟩
  apart q r hq := by
    have hapart := hblock.apart q r hq
    rw [apart_iff_forall_not_covers] at hapart ⊢
    refine fun u hu => hapart u ((covers_succ_iff page h u).mpr ?_)
    rcases hp with rfl | rfl
    · exact .inl hu
    · exact .inr hu

lemma Unlisted.upperHalf (hblock : a.Unlisted cfg page (h + 1)) :
    a.Unlisted cfg (page + 2 ^ h) h :=
  hblock.half (.inr rfl)

lemma Unlisted.lowerHalf (hblock : a.Unlisted cfg page (h + 1)) (mt : MigrateType) :
    (a.enlist h mt (page + 2 ^ h)).Unlisted cfg page h := by
  have hlower := hblock.half (.inl rfl)
  refine ⟨hlower.bounded, hlower.aligned, hlower.inZone, fun q r hq => ?_⟩
  rcases (listed_enlist hlower.bounded mt _ q r).mp hq with hold | heq
  · exact hlower.apart q r hold
  · obtain ⟨rfl, rfl⟩ := Prod.mk.inj heq
    exact Or.inl le_rfl

lemma Carved.split (hcarved : Carved cfg a b page (h + 1)) (mt : MigrateType) :
    Carved cfg a (b.enlist h mt (page + 2 ^ h)) page h where
  unlisted := hcarved.unlisted.lowerHalf mt
  free_iff u := by
    rw [hcarved.free_iff, covers_succ_iff,
      free_enlist hcarved.unlisted.upperHalf.bounded mt u, or_assoc, or_comm (a := Covers _ _ _)]

/-- A block the allocator holds has no listed buddy among its halves: the lower
half is part of what it holds. -/
lemma Unlisted.not_listed_lower (hblock : a.Unlisted cfg page (h + 1)) :
    ¬ a.Listed cfg ((page + 2 ^ h) ^^^ 2 ^ h) h := by
  intro hlisted
  rw [← lower_xor hblock.aligned, xor_two_pow_involutive] at hlisted
  exact hblock.apart page h hlisted |>.not_covers (Covers.start page _) (Covers.start page h)

end FreeLists

/-! ## Splitting -/

lemma Tracked.congr {z : Zone} {d : Nat → Int} {e e' : Int} (htracked : Tracked cfg z d e)
    (hd : d' = d) (he : e' = e) : Tracked cfg z d' e' := by
  rw [hd, he]
  exact htracked

/-- `expand` lists the upper halves and keeps a block of order `low`. -/
lemma expand_spec (a : FreeLists) (page low : Nat) (mt : MigrateType) {high : Nat}
    (hle : low ≤ high) {z : Zone} {d : Nat → Int} {e : Int}
    (htracked : Tracked cfg z d (e + 2 ^ high))
    (hcarved : FreeLists.Carved cfg a z.toFreeLists page high) :
    Tracked cfg (expand page low mt high z) d (e + 2 ^ low) ∧
      FreeLists.Carved cfg a (expand page low mt high z).toFreeLists page low := by
  induction high generalizing z with
  | zero =>
    obtain rfl : low = 0 := by omega
    exact ⟨htracked, hcarved⟩
  | succ high ih =>
    unfold expand
    split
    next hlt =>
      rw [Nat.one_shiftLeft]
      have hupper := hcarved.unlisted.upperHalf
      have henlist := htracked.enlist mt hupper fun _ => hcarved.unlisted.not_listed_lower
      have hstep := henlist.addNrFree high 1
      refine ih (by omega) (hstep.congr ?_ ?_) (hcarved.split mt)
      · simp
      · ring
    next hge =>
      obtain rfl : low = high + 1 := by omega
      exact ⟨htracked, hcarved⟩

/-! ## The paths of `__rmqueue` -/

/-- What an allocation leaves behind, with the counters as far off as before. -/
structure Allocated (cfg : Config) (z : Zone) (d : Nat → Int) (e : Int) (order page : Nat)
    (z' : Zone) : Prop where
  tracked : Tracked cfg z' d e
  carved : FreeLists.Carved cfg z.toFreeLists z'.toFreeLists page order

variable {z : Zone} {d : Nat → Int} {e : Int}

variable {order page : Nat} {z' : Zone}

/-- What is left to do once the block is off its list and counted. -/
lemma expand_allocated {w : Zone} (mt : MigrateType) (hle : order ≤ currentOrder)
    (htaken : Tracked cfg w d' (e + 2 ^ currentOrder + -(1 <<< order))) (hd : d = d')
    (hcarved : FreeLists.Carved cfg z.toFreeLists w.toFreeLists page currentOrder) :
    Allocated cfg z d e order page (expand page order mt currentOrder w) := by
  have hready : Tracked cfg w d ((e - 2 ^ order) + 2 ^ currentOrder) := by
    refine htaken.congr hd ?_
    rw [Nat.one_shiftLeft]
    push_cast
    ring
  obtain ⟨hexpand, hresult⟩ := expand_spec z.toFreeLists page order mt hle hready hcarved
  exact ⟨hexpand.congr rfl (by ring), hresult⟩

lemma takeSmallest_spec (htracked : Tracked cfg z d e) (mt : MigrateType)
    (hle : order ≤ currentOrder) (hlisted : z.Listed cfg page currentOrder) :
    Allocated cfg z d e order page (takeSmallest z order mt currentOrder page) := by
  have htaken := ((htracked.unlist hlisted).addNrFree currentOrder (-1)).modZonePageState
    (-(1 <<< order))
  exact expand_allocated mt hle htaken (by simp) (htracked.consistent.carved hlisted)

lemma rmqueueSmallestFrom_spec (htracked : Tracked cfg z d e) (mt : MigrateType)
    {orders : List Nat} (horders : ∀ o ∈ orders, order ≤ o ∧ o < cfg.maxOrder)
    (hfound : rmqueueSmallestFrom z order mt orders = some (page, z')) :
    Allocated cfg z d e order page z' := by
  induction orders with
  | nil => simp [rmqueueSmallestFrom] at hfound
  | cons currentOrder rest ih =>
    unfold rmqueueSmallestFrom at hfound
    split at hfound
    next hempty => exact ih (fun o ho => horders o (mem_cons_of_mem _ ho)) hfound
    next head tail hlist =>
      obtain ⟨rfl, rfl⟩ := Prod.mk.inj (Option.some.inj hfound)
      obtain ⟨hle, hlt⟩ := horders currentOrder mem_cons_self
      exact takeSmallest_spec htracked mt hle ⟨hlt, mt, hlist ▸ mem_cons_self⟩

lemma mem_orders {cfg : Config} (ho : o ∈ List.range' order (cfg.maxOrder - order)) :
    order ≤ o ∧ o < cfg.maxOrder := by
  rw [mem_range'_1] at ho
  omega

lemma rmqueueSmallest_spec (htracked : Tracked cfg z d e) (mt : MigrateType)
    (hfound : rmqueueSmallest cfg z order mt = some (page, z')) :
    Allocated cfg z d e order page z' :=
  rmqueueSmallestFrom_spec htracked mt (fun _ => mem_orders) hfound

/-- Claiming a page block moves blocks between lists and nothing else. -/
lemma claimPageblock_spec (htracked : Tracked cfg z d e) (hlisted : z.Listed cfg page o)
    (mt : MigrateType) :
    Tracked cfg (claimPageblock cfg z page mt) d e ∧
      ∀ q r, (claimPageblock cfg z page mt).Listed cfg q r ↔ z.Listed cfg q r := by
  have hsame := FreeLists.SameBlocks.moveFreepagesBlock htracked.consistent
    (htracked.consistent.inZone page o hlisted).1 mt
  have hmoved := htracked.sameBlocks hsame
  unfold claimPageblock
  dsimp only
  split
  · exact ⟨hmoved.setPageblockMigratetype page mt, hsame.listed⟩
  · exact ⟨hmoved, hsame.listed⟩

lemma FreeLists.Carved.of_listed_iff {a a' b : FreeLists}
    (hcarved : FreeLists.Carved cfg a' b page order)
    (hlisted : ∀ q r, a'.Listed cfg q r ↔ a.Listed cfg q r) :
    FreeLists.Carved cfg a b page order where
  unlisted := hcarved.unlisted
  free_iff u := by
    rw [← hcarved.free_iff]
    simp only [FreeLists.Free, Family.Cover, hlisted]

section

variable (htracked : Tracked cfg z d e)

include htracked

lemma takeFallback_spec {currentOrder : Nat} (startMt mt : MigrateType)
    (hle : order ≤ currentOrder) (hlisted : z.Listed cfg page currentOrder) :
    Allocated cfg z d e order page
      (takeFallback cfg z order startMt mt currentOrder page) := by
  -- the lists may have changed before the page leaves its own, but not the blocks on them
  have hclaim : ∀ claim : Bool, ∃ w : Zone,
      (if claim then claimPageblock cfg (z.addNrFree currentOrder (-1)) page startMt
        else z.addNrFree currentOrder (-1)) = w ∧
      Tracked cfg w (Function.update d currentOrder (d currentOrder + -1)) e ∧
      ∀ q r, w.Listed cfg q r ↔ z.Listed cfg q r := by
    intro claim
    have hcount := htracked.addNrFree currentOrder (-1)
    cases claim with
    | true => exact ⟨_, rfl, claimPageblock_spec hcount hlisted startMt⟩
    | false => exact ⟨_, rfl, hcount, fun _ _ => Iff.rfl⟩
  unfold takeFallback
  dsimp only
  obtain ⟨w, hw, htrackedW, hlistedW⟩ := hclaim
    (decide (cfg.pageblockOrder >>> 1 ≤ currentOrder) || startMt == .reclaimable)
  rw [hw]
  have hpage := (hlistedW page currentOrder).mpr hlisted
  have htaken := (htrackedW.unlist hpage).modZonePageState (-(1 <<< order))
  have hcarved := (htrackedW.consistent.carved hpage).of_listed_iff hlistedW
  have hmark : ∀ (v : Zone) d e, Tracked cfg v d e → Tracked cfg
      (if currentOrder = cfg.pageblockOrder then
        v.setPageblockMigratetype cfg page startMt else v) d e := by
    intro v d e hv
    split
    · exact hv.setPageblockMigratetype page startMt
    · exact hv
  have hsame : ∀ v : Zone, (if currentOrder = cfg.pageblockOrder then
      v.setPageblockMigratetype cfg page startMt else v).toFreeLists = v.toFreeLists := by
    intro v
    split <;> rfl
  exact expand_allocated _ hle (hmark _ _ _ htaken) (by simp) (by rw [hsame]; exact hcarved)

lemma rmqueueFallbackFrom_spec (startMt : MigrateType) {tries : List (Nat × MigrateType)}
    (htries : ∀ t ∈ tries, order ≤ t.1 ∧ t.1 < cfg.maxOrder)
    (hfound : rmqueueFallbackFrom cfg z order startMt tries = some (page, z')) :
    Allocated cfg z d e order page z' := by
  induction tries with
  | nil => exact rmqueueSmallest_spec htracked .reserve hfound
  | cons head rest ih =>
    have hrest := ih fun t ht => htries t (mem_cons_of_mem _ ht)
    obtain ⟨currentOrder, mt⟩ := head
    unfold rmqueueFallbackFrom at hfound
    split at hfound
    next hreserve => exact hrest hfound
    next hother =>
      split at hfound
      next hempty => exact hrest hfound
      next head tail hlist =>
        obtain ⟨rfl, rfl⟩ := Prod.mk.inj (Option.some.inj hfound)
        obtain ⟨hle, hlt⟩ := htries (currentOrder, mt) mem_cons_self
        exact takeFallback_spec htracked startMt mt hle ⟨hlt, mt, hlist ▸ mem_cons_self⟩

/-- Whatever path `__rmqueue` takes, the page it returns heads a block of the
requested order that it took out of the free pages. -/
lemma rmqueue_spec (mt : MigrateType) (hfound : rmqueue cfg z order mt = some (page, z')) :
    Allocated cfg z d e order page z' := by
  unfold rmqueue at hfound
  split at hfound
  next found hsmallest =>
    rw [hfound] at hsmallest
    exact rmqueueSmallest_spec htracked mt hsmallest
  next hnone =>
    refine rmqueueFallbackFrom_spec htracked mt ?_ hfound
    intro t ht
    obtain ⟨o, ho, hmap⟩ := mem_flatMap.mp ht
    obtain ⟨_, _, rfl⟩ := mem_map.mp hmap
    exact mem_orders (mem_reverse.mp ho)

end

end R0Kernel.Mm.PageAlloc
