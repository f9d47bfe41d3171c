import R0Kernel.Mm.PageAlloc.Alloc

/-! # Freeing and coalescing

The loop of `__free_one_page` holds a block that no listed block meets. While
the buddy is listed at the same order the pair replaces the block; when the loop
ends the block can be listed without creating a pair of free buddies.
-/

namespace R0Kernel.Mm.PageAlloc

open R0Kernel.Dyadic

variable {cfg : Config} {z : Zone} {d : Nat → Int} {e : Int}

variable {page order : Nat} {a : FreeLists}

/-- The index arithmetic below `MAX_ORDER` agrees with the frame numbers. -/
lemma index_arithmetic {pageIdx top : Nat} (haligned : 2 ^ order ∣ page) (htop : order < top)
    (hidx : pageIdx = page % 2 ^ top) :
    pageFindBuddy page pageIdx order = page ^^^ 2 ^ order ∧
      page + findCombinedIndex pageIdx order - pageIdx = andNot page (2 ^ order) ∧
      findCombinedIndex pageIdx order = andNot page (2 ^ order) % 2 ^ top := by
  obtain ⟨k, hk⟩ : ∃ k, page = 2 ^ top * k + pageIdx :=
    ⟨page / 2 ^ top, by rw [hidx, Nat.div_add_mod]⟩
  have hbase : 2 ^ (order + 1) ∣ 2 ^ top * k := (pow_dvd_pow 2 htop).mul_right k
  have hidxAligned : 2 ^ order ∣ pageIdx := by
    have hdvd : 2 ^ order ∣ 2 ^ top * k := (pow_dvd_pow 2 htop.le).mul_right k
    exact (Nat.dvd_add_right hdvd).mp (hk ▸ haligned)
  unfold pageFindBuddy findCombinedIndex
  rw [Nat.one_shiftLeft]
  rcases buddy_cases hidxAligned with ⟨heven, hbuddy, hcomb⟩ | ⟨q, hq, hsplit, hbuddy, hcomb⟩
  · have hpage : 2 ^ (order + 1) ∣ page := hk ▸ (Nat.dvd_add_right hbase).mpr heven
    obtain ⟨m, hm⟩ := hpage
    rw [hm, even_xor, even_andNot, ← hm]
    omega
  · have hpage : 2 ^ (order + 1) ∣ 2 ^ top * k + q := (Nat.dvd_add_right hbase).mpr hq
    have hodd : page = (2 ^ top * k + q) + 2 ^ order := by omega
    have hmod : (2 ^ top * k + q) % 2 ^ top = q := by
      rw [Nat.mul_add_mod]
      exact Nat.mod_eq_of_lt (by omega)
    rw [hodd]
    obtain ⟨m, hm⟩ := hpage
    rw [hm, odd_xor, odd_andNot, ← hm]
    omega

lemma pageIsBuddy_iff (hcons : a.Consistent cfg) {buddy : Nat}
    (hblock : a.Unlisted cfg page order) :
    a.pageIsBuddy page buddy order = true ↔ a.Listed cfg buddy order := by
  have hzone : ∀ q, a.InZone q 0 ↔ a.span.pageZoneId q = a.span.zoneId := by
    intro q
    rw [a.span.pageZoneId_eq_iff]
    simp only [FreeLists.InZone, pow_zero, Nat.add_one_le_iff]
  have hpage : a.span.pageZoneId page = a.span.zoneId := by
    refine (hzone page).mp ⟨hblock.inZone.1, ?_⟩
    have hsize := Nat.one_le_two_pow (n := order)
    have hhigh := hblock.inZone.2
    omega
  simp only [FreeLists.pageIsBuddy, Bool.and_eq_true, beq_iff_eq, hpage]
  constructor
  · rintro ⟨hid, hbuddy, horder⟩
    exact horder ▸ hcons.listed_of_buddy ((hzone buddy).mpr hid.symm) hbuddy
  · intro hlisted
    have hin : a.InZone buddy 0 := by
      obtain ⟨hlow, hhigh⟩ := hcons.inZone buddy order hlisted
      have hsize := Nat.one_le_two_pow (n := order)
      exact ⟨hlow, by omega⟩
    exact ⟨((hzone buddy).mp hin).symm, (hcons.flagged buddy hin).mpr ⟨order, hlisted⟩,
      hcons.order buddy order hlisted⟩

/-- With its buddy off the lists the block grows to the pair. -/
lemma FreeLists.Unlisted.merge (hcons : a.Consistent cfg) (hblock : a.Unlisted cfg page order)
    (hbound : order + 1 < cfg.maxOrder) (hbuddy : a.Listed cfg (page ^^^ 2 ^ order) order) :
    (a.unlist (page ^^^ 2 ^ order)).Unlisted cfg (andNot page (2 ^ order)) (order + 1) where
  bounded := hbound
  aligned := andNot_aligned hblock.aligned
  inZone := by
    have hlow := hblock.inZone
    have hhigh := hcons.inZone _ _ hbuddy
    change a.InZone (andNot page (2 ^ order)) (order + 1)
    unfold FreeLists.InZone at hlow hhigh ⊢
    rcases buddy_cases hblock.aligned with ⟨_, hxor, hcomb⟩ | ⟨q, _, hpage, hxor, hcomb⟩
    · omega
    · omega
  apart q r hq := by
    have hmem := (FreeLists.listed_unlist hcons hbuddy q r).mp hq
    rw [apart_iff_forall_not_covers]
    intro u hu
    rcases (covers_andNot_iff hblock.aligned u).mp hu with hu | hu
    · exact (hblock.apart q r hmem.1).not_covers hu
    · exact (hcons.apart _ _ q r hbuddy hmem.1 (Ne.symm hmem.2)).not_covers hu

/-- The block the loop ends with can be listed, and together with the lists it
covers what the freed block and the old lists covered. -/
lemma coalesce_spec {rounds pageIdx : Nat} (hrounds : rounds = cfg.maxOrder - 1 - order)
    {z : Zone} (htracked : Tracked cfg z d (e + 2 ^ order)) (hblock : z.Unlisted cfg page order)
    (hidx : pageIdx = page % 2 ^ cfg.maxOrder) :
    ∀ z' page' order', coalesce rounds z page pageIdx order = (z', page', order') →
      Tracked cfg z' d (e + 2 ^ order') ∧ z'.Unlisted cfg page' order' ∧
      (order' + 1 < cfg.maxOrder → ¬ z'.Listed cfg (page' ^^^ 2 ^ order') order') ∧
      ∀ u, z'.Free cfg u ∨ Covers page' order' u ↔ z.Free cfg u ∨ Covers page order u := by
  have hbound := hblock.bounded
  induction rounds generalizing z page pageIdx order with
  | zero =>
    intro z' page' order' hresult
    obtain ⟨rfl, rfl, rfl⟩ := hresult
    exact ⟨htracked, hblock, fun hlt => by omega, fun _ => Iff.rfl⟩
  | succ rounds ih =>
    intro z' page' order' hresult
    obtain ⟨hbuddyEq, hpageEq, hidxEq⟩ := index_arithmetic hblock.aligned hbound hidx
    simp only [coalesce, hbuddyEq] at hresult
    split at hresult
    next hbuddy =>
      have hlisted := (pageIsBuddy_iff htracked.consistent hblock).mp hbuddy
      have hunlist := (htracked.unlist hlisted).addNrFree order (-1)
      have hmerge := hblock.merge htracked.consistent (by omega) hlisted
      have hspec := ih (z := ((z.listDel (page ^^^ 2 ^ order)).addNrFree order (-1)).rmvPageOrder
          (page ^^^ 2 ^ order)) (by omega) (hunlist.congr ?_ ?_)
        (hpageEq ▸ hmerge) (hpageEq ▸ hidxEq) (by omega) z' page' order' hresult
      · refine ⟨hspec.1, hspec.2.1, hspec.2.2.1, fun u => ?_⟩
        rw [hspec.2.2.2, hpageEq, covers_andNot_iff hblock.aligned,
          FreeLists.free_iff_unlist htracked.consistent hlisted u, or_assoc,
          or_comm (a := Covers page order u)]
        exact Iff.rfl
      · simp
      · ring
    next hbuddy =>
      obtain ⟨rfl, rfl, rfl⟩ := hresult
      refine ⟨htracked, hblock, fun _ hlisted => hbuddy ?_, fun _ => Iff.rfl⟩
      exact (pageIsBuddy_iff htracked.consistent hblock).mpr hlisted

/-- Freeing adds the pages of the block to the free pages and keeps the books. -/
lemma freeOnePage_spec (htracked : Tracked cfg z d e) (hblock : z.Unlisted cfg page order) :
    Tracked cfg (freeOnePage cfg z page order) d e ∧
      ∀ u, (freeOnePage cfg z page order).Free cfg u ↔ z.Free cfg u ∨ Covers page order u := by
  have hidx : page &&& (1 <<< cfg.maxOrder - 1) = page % 2 ^ cfg.maxOrder := by
    rw [Nat.one_shiftLeft, Nat.and_two_pow_sub_one_eq_mod]
  have hstart : Tracked cfg (z.modZonePageState (1 <<< order : Nat)) d (e + 2 ^ order) := by
    refine (htracked.modZonePageState (1 <<< order : Nat)).congr rfl ?_
    rw [Nat.one_shiftLeft]
    rfl
  have hspec := coalesce_spec rfl hstart hblock hidx _ _ _ rfl
  obtain ⟨hmerged, hready, hbuddy, hfree⟩ := hspec
  have hlisted := (hmerged.enlist (z.getPageblockMigratetype cfg page) hready hbuddy).addNrFree
    (coalesce (cfg.maxOrder - 1 - order) (z.modZonePageState (1 <<< order : Nat)) page
      (page &&& (1 <<< cfg.maxOrder - 1)) order).2.2 1
  constructor
  · refine hlisted.congr ?_ ?_
    · simp
    · ring
  · intro u
    exact (FreeLists.free_enlist hready.bounded _ u).trans (hfree u)

end R0Kernel.Mm.PageAlloc
