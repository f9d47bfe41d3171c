import R0Kernel.Mm.PageAlloc.Zone

/-! # Consistency of the free lists and the page marks

The allocator only ever takes one block off its list, puts one block on a list
or moves one block between two lists of the same order. Each of these keeps the
lists and the page marks consistent and has an exact effect on the listed blocks
and on their number.
-/

namespace R0Kernel.Mm.PageAlloc

open R0Kernel.Dyadic Function List Finset

namespace FreeLists

variable {cfg : Config} {a : FreeLists}

def Listed (cfg : Config) (a : FreeLists) : Family :=
  fun p o => o < cfg.maxOrder ∧ ∃ mt, p ∈ a.freeList o mt

def InZone (a : FreeLists) (p o : Nat) : Prop :=
  a.span.zoneStartPfn ≤ p ∧ p + 2 ^ o ≤ a.span.zoneStartPfn + a.span.spannedPages

def listedCount (a : FreeLists) (o : Nat) : Nat := ∑ mt, (a.freeList o mt).length

/-- Listed blocks are aligned disjoint blocks of the zone, each on a single list,
and the marks name exactly their heads and orders. -/
structure Consistent (cfg : Config) (a : FreeLists) : Prop where
  aligned : ∀ p o, a.Listed cfg p o → 2 ^ o ∣ p
  inZone : ∀ p o, a.Listed cfg p o → a.InZone p o
  apart : ∀ p o q r, a.Listed cfg p o → a.Listed cfg q r → (p, o) ≠ (q, r) → Apart p o q r
  nodup : ∀ o mt, o < cfg.maxOrder → (a.freeList o mt).Nodup
  oneList : ∀ p o mt mt', o < cfg.maxOrder → p ∈ a.freeList o mt → p ∈ a.freeList o mt' → mt = mt'
  flagged : ∀ p, a.InZone p 0 → ((a.page p).buddy = true ↔ ∃ o, a.Listed cfg p o)
  order : ∀ p o, a.Listed cfg p o → (a.page p).private' = o

namespace Consistent

lemma order_unique (hcons : a.Consistent cfg) {p o o' : Nat}
    (hlisted : a.Listed cfg p o) (hlisted' : a.Listed cfg p o') : o = o' :=
  (hcons.order p o hlisted).symm.trans (hcons.order p o' hlisted')

/-- A page that is not the head of the block is on no list of another order. -/
lemma notMem_of_ne (hcons : a.Consistent cfg) {p o o' : Nat} {mt : MigrateType}
    (hlisted : a.Listed cfg p o) (ho' : o' < cfg.maxOrder) (hne : o' ≠ o) :
    p ∉ a.freeList o' mt := by
  intro hmem
  exact hne (hcons.order_unique ⟨ho', mt, hmem⟩ hlisted)

end Consistent

/-! ## Taking a block off its list -/

variable {p o : Nat}

lemma listed_listDel (hcons : a.Consistent cfg) (hlisted : a.Listed cfg p o) (q r : Nat) :
    (a.listDel p).Listed cfg q r ↔ a.Listed cfg q r ∧ (q, r) ≠ (p, o) := by
  constructor
  · rintro ⟨hr, mt, hmem⟩
    have hmem' := (Nodup.mem_erase_iff (hcons.nodup r mt hr)).mp hmem
    exact ⟨⟨hr, mt, hmem'.2⟩, fun heq => hmem'.1 (Prod.mk.inj heq).1⟩
  · rintro ⟨⟨hr, mt, hmem⟩, hne⟩
    refine ⟨hr, mt, (Nodup.mem_erase_iff (hcons.nodup r mt hr)).mpr ⟨?_, hmem⟩⟩
    rintro rfl
    exact hne (Prod.ext rfl (hcons.order_unique ⟨hr, mt, hmem⟩ hlisted))

/-- `list_del` together with `rmv_page_order`. -/
def unlist (a : FreeLists) (p : Nat) : FreeLists := (a.listDel p).rmvPageOrder p

section

variable (hcons : a.Consistent cfg) (hlisted : a.Listed cfg p o)

include hcons hlisted

lemma listed_unlist (q r : Nat) :
    (a.unlist p).Listed cfg q r ↔ a.Listed cfg q r ∧ (q, r) ≠ (p, o) :=
  listed_listDel hcons hlisted q r

lemma Consistent.unlist :
    (a.unlist p).Consistent cfg := by
  have hiff := listed_unlist hcons hlisted
  have hpage : ∀ q, q ≠ p → (a.unlist p).page q = a.page q := fun q hq =>
    update_of_ne hq _ _
  refine ⟨?_, ?_, ?_, ?_, ?_, ?_, ?_⟩
  · exact fun q r hq => hcons.aligned q r ((hiff q r).mp hq).1
  · exact fun q r hq => hcons.inZone q r ((hiff q r).mp hq).1
  · exact fun q r q' r' hq hq' => hcons.apart q r q' r' ((hiff q r).mp hq).1 ((hiff q' r').mp hq').1
  · exact fun r mt hr => (hcons.nodup r mt hr).erase p
  · exact fun q r mt mt' hr hq hq' => hcons.oneList q r mt mt' hr
      (mem_of_mem_erase hq) (mem_of_mem_erase hq')
  · intro q hq
    by_cases hqp : q = p
    · subst hqp
      have hclear : ((a.unlist q).page q).buddy = false := by
        simp [FreeLists.unlist, rmvPageOrder]
      rw [hclear]
      refine ⟨fun h => absurd h (by simp), ?_⟩
      rintro ⟨r, hr⟩
      have hmem := (hiff q r).mp hr
      exact (hmem.2 (Prod.ext rfl (hcons.order_unique hmem.1 hlisted))).elim
    · rw [hpage q hqp, hcons.flagged q hq]
      refine exists_congr fun r => ?_
      rw [hiff]
      exact ⟨fun h => ⟨h, fun heq => hqp (Prod.mk.inj heq).1⟩, And.left⟩
  · intro q r hq
    have hmem := (hiff q r).mp hq
    have hqp : q ≠ p := by
      rintro rfl
      exact hmem.2 (Prod.ext rfl (hcons.order_unique hmem.1 hlisted))
    rw [hpage q hqp]
    exact hcons.order q r hmem.1

lemma listedCount_listDel (r : Nat) (hr : r < cfg.maxOrder) :
    (a.listDel p).listedCount r + (if r = o then 1 else 0) = a.listedCount r := by
  unfold listedCount
  by_cases hro : r = o
  · subst hro
    obtain ⟨_, mt, hmem⟩ := hlisted
    have hother : ∀ mt' ∈ univ.erase mt,
        ((a.listDel p).freeList r mt').length = (a.freeList r mt').length := by
      intro mt' hmt'
      have hnot : p ∉ a.freeList r mt' := fun h =>
        (ne_of_mem_erase hmt') (hcons.oneList p r mt' mt hr h hmem)
      exact congrArg length (erase_of_not_mem hnot)
    rw [← add_sum_erase _ _ (mem_univ mt),
      ← add_sum_erase _ (fun mt => (a.freeList r mt).length) (mem_univ mt),
      sum_congr rfl hother]
    have hlen : ((a.listDel p).freeList r mt).length + 1 = (a.freeList r mt).length :=
      length_erase_add_one hmem
    simp only [if_true]
    omega
  · simp only [if_neg hro, add_zero]
    refine sum_congr rfl fun mt _ => ?_
    exact congrArg length (erase_of_not_mem (hcons.notMem_of_ne hlisted hr hro))

end

/-! ## Putting a block on a list -/

lemma mem_listAdd {mt : MigrateType} {q r : Nat} {mt' : MigrateType} :
    q ∈ (a.listAdd o mt p).freeList r mt' ↔
      q ∈ a.freeList r mt' ∨ (q = p ∧ r = o ∧ mt' = mt) := by
  simp only [listAdd]
  split
  next h => simp [h.1, h.2, or_comm]
  next h => exact ⟨Or.inl, fun h' => h'.resolve_right fun h'' => h h''.2⟩

lemma listed_listAdd (ho : o < cfg.maxOrder) (mt : MigrateType) (p q r : Nat) :
    (a.listAdd o mt p).Listed cfg q r ↔ a.Listed cfg q r ∨ (q, r) = (p, o) := by
  simp only [Listed, mem_listAdd, Prod.mk.injEq]
  constructor
  · rintro ⟨hr, mt', hmem | ⟨rfl, rfl, _⟩⟩
    · exact Or.inl ⟨hr, mt', hmem⟩
    · exact Or.inr ⟨rfl, rfl⟩
  · rintro (⟨hr, mt', hmem⟩ | ⟨rfl, rfl⟩)
    · exact ⟨hr, mt', Or.inl hmem⟩
    · exact ⟨ho, mt, Or.inr ⟨rfl, rfl, rfl⟩⟩

lemma listedCount_listAdd (o : Nat) (mt : MigrateType) (p r : Nat) :
    (a.listAdd o mt p).listedCount r = a.listedCount r + (if r = o then 1 else 0) := by
  unfold listedCount
  by_cases hro : r = o
  · subst hro
    rw [← add_sum_erase _ _ (mem_univ mt),
      ← add_sum_erase _ (fun mt => (a.freeList r mt).length) (mem_univ mt)]
    have hsame : ((a.listAdd r mt p).freeList r mt).length = (a.freeList r mt).length + 1 := by
      simp [listAdd]
    have hother : ∀ mt' ∈ univ.erase mt,
        ((a.listAdd r mt p).freeList r mt').length = (a.freeList r mt').length := by
      intro mt' hmt'
      simp [listAdd, ne_of_mem_erase hmt']
    rw [sum_congr rfl hother]
    simp only [if_true]
    omega
  · simp [listAdd, hro]

/-- `list_add` together with `set_page_order`. -/
def enlist (a : FreeLists) (o : Nat) (mt : MigrateType) (p : Nat) : FreeLists :=
  (a.listAdd o mt p).setPageOrder p o

lemma listed_enlist (ho : o < cfg.maxOrder) (mt : MigrateType) (p q r : Nat) :
    (a.enlist o mt p).Listed cfg q r ↔ a.Listed cfg q r ∨ (q, r) = (p, o) :=
  listed_listAdd ho mt p q r

/-- The block is a block of the zone that no listed block meets. -/
structure Unlisted (cfg : Config) (a : FreeLists) (p o : Nat) : Prop where
  bounded : o < cfg.maxOrder
  aligned : 2 ^ o ∣ p
  inZone : a.InZone p o
  apart : ∀ q r, a.Listed cfg q r → Apart p o q r

lemma Unlisted.ne_start {q r : Nat} (hblock : a.Unlisted cfg p o) (hlisted : a.Listed cfg q r) :
    q ≠ p := by
  rintro rfl
  exact (hblock.apart q r hlisted).not_covers (Covers.start q o) (Covers.start q r)

lemma Consistent.enlist (hcons : a.Consistent cfg) (mt : MigrateType)
    (hblock : a.Unlisted cfg p o) : (a.enlist o mt p).Consistent cfg := by
  have hiff := listed_enlist (a := a) hblock.bounded mt p
  have hnot : ∀ r mt', r < cfg.maxOrder → p ∉ a.freeList r mt' := fun r mt' hr hmem =>
    hblock.ne_start ⟨hr, mt', hmem⟩ rfl
  have hpage : ∀ q, q ≠ p → (a.enlist o mt p).page q = a.page q := fun q hq =>
    update_of_ne hq _ _
  have hself : (a.enlist o mt p).page p = ⟨true, o⟩ := update_self _ _ _
  refine ⟨?_, ?_, ?_, ?_, ?_, ?_, ?_⟩
  · intro q r hq
    rcases (hiff q r).mp hq with hq | heq
    · exact hcons.aligned q r hq
    · obtain ⟨rfl, rfl⟩ := Prod.mk.inj heq
      exact hblock.aligned
  · intro q r hq
    rcases (hiff q r).mp hq with hq | heq
    · exact hcons.inZone q r hq
    · obtain ⟨rfl, rfl⟩ := Prod.mk.inj heq
      exact hblock.inZone
  · intro q r q' r' hq hq' hne
    rcases (hiff q r).mp hq with hold | heq
    · rcases (hiff q' r').mp hq' with hold' | heq'
      · exact hcons.apart q r q' r' hold hold' hne
      · obtain ⟨rfl, rfl⟩ := Prod.mk.inj heq'
        exact (hblock.apart q r hold).symm
    · obtain ⟨rfl, rfl⟩ := Prod.mk.inj heq
      exact hblock.apart q' r' (((hiff q' r').mp hq').resolve_right fun h => hne h.symm)
  · intro r mt' hr
    simp only [FreeLists.enlist, setPageOrder, listAdd]
    split
    next h => exact nodup_cons.mpr ⟨hnot r mt' hr, hcons.nodup r mt' hr⟩
    next h => exact hcons.nodup r mt' hr
  · intro q r mt₁ mt₂ hr h₁ h₂
    rcases mem_listAdd.mp h₁ with hold₁ | ⟨rfl, _, rfl⟩
    · rcases mem_listAdd.mp h₂ with hold₂ | ⟨rfl, _, _⟩
      · exact hcons.oneList q r mt₁ mt₂ hr hold₁ hold₂
      · exact absurd hold₁ (hnot r mt₁ hr)
    · rcases mem_listAdd.mp h₂ with hold₂ | ⟨_, _, rfl⟩
      · exact absurd hold₂ (hnot r mt₂ hr)
      · rfl
  · intro q hq
    by_cases hqp : q = p
    · subst hqp
      simp only [hself, true_iff]
      exact ⟨o, (hiff q o).mpr (Or.inr rfl)⟩
    · rw [hpage q hqp, hcons.flagged q hq]
      refine exists_congr fun r => ?_
      rw [hiff]
      exact ⟨Or.inl, fun h => h.resolve_right fun heq => hqp (Prod.mk.inj heq).1⟩
  · intro q r hq
    rcases (hiff q r).mp hq with hq | heq
    · rw [hpage q (hblock.ne_start hq)]
      exact hcons.order q r hq
    · obtain ⟨rfl, rfl⟩ := Prod.mk.inj heq
      rw [hself]

/-! ## Moving a block to another list of its order -/

/-- One round of `move_freepages` on a block. -/
def relist (a : FreeLists) (o : Nat) (mt : MigrateType) (p : Nat) : FreeLists :=
  (a.listDel p).listAdd o mt p

section

variable (hcons : a.Consistent cfg) (hlisted : a.Listed cfg p o) (mt : MigrateType)

include hcons hlisted mt

lemma listed_relist (q r : Nat) :
    (a.relist o mt p).Listed cfg q r ↔ a.Listed cfg q r := by
  rw [relist, listed_listAdd hlisted.1, listed_listDel hcons hlisted]
  by_cases heq : (q, r) = (p, o)
  · obtain ⟨rfl, rfl⟩ := Prod.mk.inj heq
    simp [hlisted]
  · simp [heq]

lemma listedCount_relist (r : Nat) (hr : r < cfg.maxOrder) :
    (a.relist o mt p).listedCount r = a.listedCount r := by
  rw [relist, listedCount_listAdd, listedCount_listDel hcons hlisted r hr]

lemma Consistent.relist :
    (a.relist o mt p).Consistent cfg := by
  have hiff := listed_relist hcons hlisted mt
  have hmem : ∀ q r mt', r < cfg.maxOrder → q ∈ (a.relist o mt p).freeList r mt' →
      (q ≠ p ∧ q ∈ a.freeList r mt') ∨ (q = p ∧ r = o ∧ mt' = mt) := by
    intro q r mt' hr hq
    rcases mem_listAdd.mp hq with hq | hq
    · exact Or.inl ((Nodup.mem_erase_iff (hcons.nodup r mt' hr)).mp hq)
    · exact Or.inr hq
  refine ⟨?_, ?_, ?_, ?_, ?_, ?_, ?_⟩
  · exact fun q r hq => hcons.aligned q r ((hiff q r).mp hq)
  · exact fun q r hq => hcons.inZone q r ((hiff q r).mp hq)
  · exact fun q r q' r' hq hq' => hcons.apart q r q' r' ((hiff q r).mp hq) ((hiff q' r').mp hq')
  · intro r mt' hr
    have herase : ((a.listDel p).freeList r mt').Nodup := (hcons.nodup r mt' hr).erase p
    simp only [FreeLists.relist, listAdd]
    split
    next h => exact nodup_cons.mpr ⟨(hcons.nodup r mt' hr).not_mem_erase, herase⟩
    next h => exact herase
  · intro q r mt₁ mt₂ hr h₁ h₂
    rcases hmem q r mt₁ hr h₁ with ⟨hne, h₁⟩ | ⟨rfl, _, rfl⟩
    · rcases hmem q r mt₂ hr h₂ with ⟨_, h₂⟩ | ⟨rfl, _, _⟩
      · exact hcons.oneList q r mt₁ mt₂ hr h₁ h₂
      · exact absurd rfl hne
    · rcases hmem q r mt₂ hr h₂ with ⟨hne, _⟩ | ⟨_, _, rfl⟩
      · exact absurd rfl hne
      · rfl
  · intro q hq
    rw [exists_congr fun r => hiff q r]
    exact hcons.flagged q hq
  · exact fun q r hq => hcons.order q r ((hiff q r).mp hq)

end

/-- The lists hold the same blocks, possibly on other lists of their orders. -/
structure SameBlocks (cfg : Config) (a b : FreeLists) : Prop where
  consistent : b.Consistent cfg
  span : b.span = a.span
  listed : ∀ p o, b.Listed cfg p o ↔ a.Listed cfg p o
  count : ∀ o, o < cfg.maxOrder → b.listedCount o = a.listedCount o

lemma SameBlocks.refl (hcons : a.Consistent cfg) : SameBlocks cfg a a :=
  ⟨hcons, rfl, fun _ _ => Iff.rfl, fun _ _ => rfl⟩

lemma SameBlocks.trans {b c : FreeLists} (hab : SameBlocks cfg a b)
    (hbc : SameBlocks cfg b c) : SameBlocks cfg a c :=
  ⟨hbc.consistent, hbc.span.trans hab.span, fun p o => (hbc.listed p o).trans (hab.listed p o),
    fun o ho => (hbc.count o ho).trans (hab.count o ho)⟩

lemma SameBlocks.relist (hcons : a.Consistent cfg) (hlisted : a.Listed cfg p o) (mt : MigrateType) :
    SameBlocks cfg a (a.relist o mt p) :=
  ⟨hcons.relist hlisted mt, rfl, listed_relist hcons hlisted mt,
    listedCount_relist hcons hlisted mt⟩

/-- A marked page of the zone heads a block of the order it records. -/
lemma Consistent.listed_of_buddy (hcons : a.Consistent cfg) (hzone : a.InZone p 0)
    (hbuddy : (a.page p).buddy = true) : a.Listed cfg p (a.page p).private' := by
  obtain ⟨o, hlisted⟩ := (hcons.flagged p hzone).mp hbuddy
  rwa [hcons.order p o hlisted]

lemma SameBlocks.moveFreepages (mt : MigrateType) (endPage rounds : Nat) {a : FreeLists}
    (hcons : a.Consistent cfg) (page : Nat) (hstart : a.span.zoneStartPfn ≤ page)
    (hend : endPage < a.span.zoneStartPfn + a.span.spannedPages) :
    SameBlocks cfg a (FreeLists.moveFreepages mt endPage rounds a page).1 := by
  induction rounds generalizing a page with
  | zero => exact SameBlocks.refl hcons
  | succ rounds ih =>
    unfold FreeLists.moveFreepages
    split
    next hle =>
      have hzone : a.InZone page 0 := ⟨hstart, by omega⟩
      split
      next hbuddy =>
        have hlisted := hcons.listed_of_buddy hzone hbuddy
        have hstep := SameBlocks.relist hcons hlisted mt
        exact hstep.trans (ih hstep.consistent _ (Nat.le_add_right_of_le hstart) hend)
      next hbuddy => exact ih hcons (page + 1) (by omega) hend
    next hgt => exact SameBlocks.refl hcons

lemma SameBlocks.moveFreepagesBlock (hcons : a.Consistent cfg) {page : Nat}
    (hpage : a.span.zoneStartPfn ≤ page) (mt : MigrateType) :
    SameBlocks cfg a (a.moveFreepagesBlock cfg page mt).1 := by
  unfold FreeLists.moveFreepagesBlock
  dsimp only
  split
  next hout => exact SameBlocks.refl hcons
  next hin =>
    apply SameBlocks.moveFreepages mt _ _ hcons
    · split <;> omega
    · omega

end FreeLists

end R0Kernel.Mm.PageAlloc
