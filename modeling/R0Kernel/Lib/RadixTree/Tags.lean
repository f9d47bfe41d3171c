import R0Kernel.Lib.RadixTree.Update

/-! # Setting and clearing tags

Setting a tag sets its bit on the whole way to the item. Clearing it goes up from
the item for as long as no other bit of the tag is set in a node.
-/

namespace R0Kernel.RadixTree

open SlotTree Function BitVec List

variable {h H : Nat} {b : Marks} {hd hd' : Head NodeInfo Item} {path : List PathEntry} {slot : Slot}
  {i : Index} {root : Root} {tag : Tag} {x : Item} {path' : List PathEntry} {r : NodeInfo}

/-! ## The tags of the root -/

lemma rootTagGet_eq (root : Root) (tag : Tag) :
    root.rootTagGet tag = root.gfpMask.toBitVec.getLsbD (tag.val + 21) := by
  have hbit : (rootTagBit tag).toBitVec = twoPow 32 (tag.val + 21) := by
    fin_cases tag <;> rfl
  have hpow : twoPow 32 (tag.val + 21) ≠ 0#32 := by
    fin_cases tag <;> decide
  have hzero : ∀ v : UInt32, (v != 0) = (v.toBitVec != 0#32) := by
    intro v
    rw [Bool.eq_iff_iff, bne_iff_ne, bne_iff_ne, ne_eq, ← UInt32.toBitVec_inj]
    rfl
  rw [Root.rootTagGet, hzero, UInt32.toBitVec_and, hbit, and_twoPow]
  cases root.gfpMask.toBitVec.getLsbD (tag.val + 21) <;> simp [hpow]

lemma getLsbD_rootTagBit (tag other : Tag) :
    (rootTagBit tag).toBitVec.getLsbD (other.val + 21) = decide (other = tag) := by
  fin_cases tag <;> fin_cases other <;> rfl

lemma marks_rootTagSet : (root.rootTagSet tag).marks = update root.marks tag true := by
  funext other
  change (root.rootTagSet tag).rootTagGet other = update root.rootTagGet tag true other
  rw [rootTagGet_eq, Root.rootTagSet, UInt32.toBitVec_or, getLsbD_or, getLsbD_rootTagBit,
    ← rootTagGet_eq]
  by_cases hother : other = tag <;> simp [hother]

lemma marks_rootTagClear :
    (root.rootTagClear tag).marks = update root.marks tag false := by
  funext other
  have hlt : other.val + 21 < 32 := by omega
  change (root.rootTagClear tag).rootTagGet other = update root.rootTagGet tag false other
  rw [rootTagGet_eq, Root.rootTagClear, UInt32.toBitVec_and, UInt32.toBitVec_not,
    getLsbD_and, getLsbD_not, getLsbD_rootTagBit, ← rootTagGet_eq]
  by_cases hother : other = tag <;> simp [hother, hlt]

lemma marks_rootTagClearAll : root.rootTagClearAll.marks = untagged := by
  funext other
  change root.rootTagClearAll.rootTagGet other = false
  have hmask : gfpBitsMask.toBitVec.getLsbD (other.val + 21) = false := by
    fin_cases other <;> rfl
  rw [rootTagGet_eq, Root.rootTagClearAll, UInt32.toBitVec_and, getLsbD_and, hmask,
    Bool.and_false]

lemma rootTagSet_unset (root : Root) (tag : Tag) : ∃ root' : Root,
    (if !root.rootTagGet tag then root.rootTagSet tag else root) = root' ∧
      root'.height = root.height ∧ root'.rnode = root.rnode ∧
      root'.marks = update root.marks tag true := by
  cases hset : root.rootTagGet tag with
  | false => exact ⟨root.rootTagSet tag, rfl, rfl, rfl, marks_rootTagSet⟩
  | true => exact ⟨root, rfl, rfl, rfl, (update_eq_self_iff.mpr hset.symm).symm⟩

lemma rootTagClear_set (root : Root) (tag : Tag) (top : Bool) : ∃ root' : Root,
    (if top && root.rootTagGet tag then root.rootTagClear tag else root) = root' ∧
      root'.height = root.height ∧ root'.rnode = root.rnode ∧
      root'.marks = if top then update root.marks tag false else root.marks := by
  cases top with
  | false => exact ⟨root, rfl, rfl, rfl, rfl⟩
  | true =>
    cases hset : root.rootTagGet tag with
    | false => exact ⟨root, rfl, rfl, rfl, (update_eq_self_iff.mpr hset.symm).symm⟩
    | true => exact ⟨root.rootTagClear tag, rfl, rfl, rfl, marks_rootTagClear⟩

/-! ## The way down -/

/-- The way down ends at an empty slot or at the item. -/
lemma descend_spec (hway : OnWay H i h path) (hheld : Held H b (plug path slot)) :
    (read slotMarks untagged b (plug path slot) (digits H i)).1 = none ∧
        descend i h path slot = some none ∨
      ∃ path' x, OnWay H i 0 path' ∧ plug path' (.leaf x) = plug path slot ∧
        descend i h path slot = some (some (path', .leaf x)) := by
  induction h generalizing path slot with
  | zero =>
    rcases ((held_plug hway.length).mp hheld).1.cases_zero with rfl | ⟨x, rfl⟩
    · exact .inl ⟨by rw [hway.read]; rfl, rfl⟩
    · exact .inr ⟨path, x, hway, rfl, rfl⟩
  | succ h ih =>
    rcases ((held_plug hway.length).mp hheld).1.cases_succ with rfl | ⟨r, s, rfl⟩
    · refine .inl ⟨?_, rfl⟩
      rw [← hway.key, read_plug, digits, read_null_cons]
    · rw [descend]
      rw [← fill_slot r s (slotOffset i h)] at hheld ⊢
      exact ih (hway.push (forall_like_refl _ _) _ _) hheld

/-- The entry of the path after `radix_tree_tag_set` has passed it. -/
def raise (tag : Tag) (f : PathEntry) : PathEntry :=
  { f with info := if f.info.tagGet tag f.hole then f.info else f.info.tagSet tag f.hole }

lemma tagSetLoop_eq (hway : OnWay H i h path) (hheld : Held H b (plug path slot))
    (hdown : descend i h path slot = some (some (path', .leaf x))) :
    tagSetLoop i tag h (path.map (raise tag)) slot =
      some (relink (path'.map (raise tag)) (.leaf x), .leaf x) := by
  induction h generalizing path slot with
  | zero =>
    rcases ((held_plug hway.length).mp hheld).1.cases_zero with rfl | ⟨y, rfl⟩
    · cases hdown
    · cases hdown
      rfl
  | succ h ih =>
    rcases ((held_plug hway.length).mp hheld).1.cases_succ with rfl | ⟨r, s, rfl⟩
    · cases hdown
    · rw [descend] at hdown
      have hne : (s (slotOffset i h)).isNull = false := by
        rw [← Bool.not_eq_true, isNull_iff]
        intro hnull
        rw [hnull] at hdown
        cases h <;> cases hdown
      rw [← fill_slot r s (slotOffset i h)] at hheld
      have hnext := ih (hway.push (forall_like_refl _ _) _ _) hheld hdown
      simp only [tagSetLoop, hne, Bool.false_eq_true, if_false]
      exact hnext

/-! ## Setting -/

lemma anyTagSet_iff {tag : Tag} :
    r.anyTagSet tag = true ↔ ∃ d, slotMarks r d tag = true := by
  simp [NodeInfo.anyTagSet, slotMarks]

lemma slotMarks_tagSet (r : NodeInfo) (tag : Tag) (d e : Offset) :
    slotMarks (r.tagSet tag d) e =
      if e = d then update (slotMarks r e) tag true else slotMarks r e := by
  funext other
  by_cases he : e = d <;> by_cases hother : other = tag <;>
    simp [slotMarks, NodeInfo.tagSet, he, hother]

lemma slotMarks_tagClear (r : NodeInfo) (tag : Tag) (d e : Offset) :
    slotMarks (r.tagClear tag d) e =
      if e = d then update (slotMarks r e) tag false else slotMarks r e := by
  funext other
  by_cases he : e = d <;> by_cases hother : other = tag <;>
    simp [slotMarks, NodeInfo.tagClear, he, hother]

lemma slotMarks_raise (f : PathEntry) (d : Offset) :
    slotMarks (raise tag f).info d =
      if d = f.hole then update (slotMarks f.info d) tag true else slotMarks f.info d := by
  by_cases hset : f.info.tagGet tag f.hole = true
  · rw [raise, if_pos hset]
    split
    next hd =>
      subst hd
      exact (update_eq_self_iff.mpr hset.symm).symm
    next => rfl
  · rw [raise, if_neg hset, slotMarks_tagSet]

lemma anyTagSet_raise (f : PathEntry) :
    (raise tag f).info.anyTagSet = update f.info.anyTagSet tag true := by
  funext other
  rw [Bool.eq_iff_iff, anyTagSet_iff]
  by_cases hother : other = tag
  · subst hother
    exact iff_of_true ⟨f.hole, by simp [slotMarks_raise]⟩ (by simp)
  · have hsame : ∀ d, slotMarks (raise tag f).info d other = slotMarks f.info d other := by
      intro d
      rw [slotMarks_raise]
      split <;> simp [hother]
    simp only [hsame, update_of_ne hother, anyTagSet_iff]

lemma ctxInv_raise (hctx : CtxInv NodeOk (MarksOk b) h path hd)
    (hturns : Turns (update · tag true) hd hd') :
    CtxInv NodeOk (MarksOk (update b tag true)) h (path.map (raise tag)) hd' := by
  induction path generalizing h hd hd' with
  | nil => exact hturns.marks b hctx
  | cons f path ih =>
    obtain ⟨hok, hslots, hrest⟩ := hctx
    have hheight : (raise tag f).info.height = f.info.height := by
      unfold raise
      split <;> rfl
    have hcount : (raise tag f).info.count = f.info.count := by
      unfold raise
      split <;> rfl
    refine ⟨hok.turn hturns hheight hcount (fun e he => ?_) ?_, hslots,
      ih hrest (.node (anyTagSet_raise f))⟩
    · rw [slotMarks_raise, if_neg he]
    · exact (slotMarks_raise f f.hole).trans (if_pos rfl)

lemma raise_like (path : List PathEntry) :
    Forall₂ (Frame.Like slotMarks) (path.map (raise tag)) path := by
  rw [forall₂_map_left_iff]
  refine forall₂_same.mpr fun f _ => ⟨rfl, rfl, fun d hd => ?_⟩
  rw [slotMarks_raise, if_neg hd]

lemma topMark_raise (path : List PathEntry) :
    topMark slotMarks (update b tag true) (path.map (raise tag)) =
      update (topMark slotMarks b path) tag true := by
  cases path with
  | nil => rfl
  | cons f path => exact (slotMarks_raise f f.hole).trans (if_pos rfl)

/-! ## Clearing -/

lemma anyTagSet_tagClear {d : Offset} (hset : r.tagGet tag d = true) :
    (r.tagClear tag d).anyTagSet = if (r.tagClear tag d).anyTagSet tag then r.anyTagSet
      else update r.anyTagSet tag false := by
  have hsame : ∀ other, other ≠ tag →
      (r.tagClear tag d).anyTagSet other = r.anyTagSet other := by
    intro other hother
    have hbit : ∀ e, slotMarks (r.tagClear tag d) e other = slotMarks r e other := by
      intro e
      rw [slotMarks_tagClear]
      split <;> simp [hother]
    rw [Bool.eq_iff_iff, anyTagSet_iff, anyTagSet_iff]
    simp only [hbit]
  have hany : r.anyTagSet tag = true := anyTagSet_iff.mpr ⟨d, hset⟩
  funext other
  by_cases hother : other = tag
  · subst hother
    split
    next hleft => rw [hleft, hany]
    next hleft => simpa using hleft
  · rw [hsame other hother]
    split <;> simp [hother]

lemma clearTags_spec (hctx : CtxInv NodeOk (MarksOk b) h path hd)
    (hturns : Turns (update · tag false) hd hd') :
    ∃ path' top, clearTags tag path = (path', top) ∧
      CtxInv NodeOk (MarksOk (if top then update b tag false else b)) h path' hd' ∧
      Forall₂ (Frame.Like slotMarks) path' path ∧
      topMark slotMarks (if top then update b tag false else b) path' =
        update (topMark slotMarks b path) tag false := by
  induction path generalizing h hd hd' with
  | nil => exact ⟨[], true, rfl, hturns.marks b hctx, .nil, rfl⟩
  | cons f path ih =>
    obtain ⟨hok, hslots, hrest⟩ := hctx
    by_cases hset : f.info.tagGet tag f.hole = true
    · have hmarks : slotMarks (f.info.tagClear tag f.hole) f.hole =
          update (slotMarks f.info f.hole) tag false := by
        rw [slotMarks_tagClear, if_pos rfl]
      have hother : ∀ e, e ≠ f.hole →
          slotMarks (f.info.tagClear tag f.hole) e = slotMarks f.info e := by
        intro e he
        rw [slotMarks_tagClear, if_neg he]
      have hok' : NodeOk h (f.info.tagClear tag f.hole) _ :=
        hok.turn hturns rfl rfl hother hmarks
      have hany := anyTagSet_tagClear hset
      by_cases hleft : (f.info.tagClear tag f.hole).anyTagSet tag = true
      · rw [if_pos hleft] at hany
        exact ⟨{ f with info := f.info.tagClear tag f.hole } :: path, false,
          by simp [clearTags, hset, hleft], ⟨hok', hslots, ctxInv_congr hrest (.node hany)⟩,
          .cons ⟨rfl, rfl, hother⟩ (forall_like_refl _ _), hmarks⟩
      · rw [if_neg hleft] at hany
        obtain ⟨path', top, hrun, hctx', hlike, _⟩ := ih hrest (.node hany)
        exact ⟨{ f with info := f.info.tagClear tag f.hole } :: path', top,
          by simp [clearTags, hset, hleft, hrun], ⟨hok', hslots, hctx'⟩,
          .cons ⟨rfl, rfl, hother⟩ hlike, hmarks⟩
    · have hoff : slotMarks f.info f.hole tag = false := by
        simpa [NodeInfo.tagGet, slotMarks] using hset
      have hmarks : slotMarks f.info f.hole =
          update (slotMarks f.info f.hole) tag false :=
        (update_eq_self_iff.mpr hoff.symm).symm
      exact ⟨f :: path, false, by simp [clearTags, hset],
        ⟨hok.turn hturns rfl rfl (fun _ _ => rfl) hmarks, hslots, hrest⟩,
        forall_like_refl _ _, hmarks⟩

/-! ## The operations -/

lemma Root.Ok.retag {root' : Root} (hroot : root.Ok)
    (hi : i.toNat ≤ radixTreeMaxindex root.height) (hway : OnWay root.height i 0 path)
    (hptr : plug path (.leaf x) = root.rnode.ptr) (hheight : root'.height = root.height)
    (hrnode : root'.rnode = relink path' (.leaf x))
    (hctx : CtxInv NodeOk (MarksOk root'.marks) 0 path' (.leaf x))
    (hlike : Forall₂ (Frame.Like slotMarks) path' path) :
    root'.Ok ∧ root'.contents =
      update root.contents i (some x, topMark slotMarks root'.marks path') := by
  have hleaf : Inv NodeOk 0 (.leaf x : Slot) := trivial
  have hway' : OnWay root.height i 0 path' :=
    ⟨by rw [hlike.length_eq, hway.length], by rw [route_congr hlike, hway.key]⟩
  have hheld : Held root.height root'.marks (plug path' (.leaf x)) :=
    (held_plug hway'.length).mpr ⟨hleaf, hctx⟩
  have hw : Writes root.height i root.marks root.rnode.ptr root'.marks (plug path' (.leaf x)) := by
    rw [← hptr]
    exact hway.writes hlike
  have hchange := hw.contentsOf hroot.height_le hi
  rw [hway'.read] at hchange
  refine ⟨⟨?_, ?_, ?_, ?_⟩, ?_⟩
  · rw [hheight]
    exact hroot.height_le
  · rw [hheight, hrnode]
    exact hheld
  · rw [hrnode]
    exact relink_indirect (by simp)
  · rw [hheight, hrnode]
    exact hw.keysOk hroot.keys hi
  · rw [Root.contents, hheight, hrnode]
    exact hchange

lemma Root.Ok.way (hroot : root.Ok) (hitem : (root.contents i).1 = some x) :
    i.toNat ≤ radixTreeMaxindex root.height ∧ ∃ path, OnWay root.height i 0 path ∧
      plug path (.leaf x) = root.rnode.ptr ∧
      descend i root.height [] root.rnode.ptr = some (some (path, .leaf x)) ∧
      root.contents i = (some x, topMark slotMarks root.marks path) := by
  have hi : i.toNat ≤ radixTreeMaxindex root.height := by
    by_contra hi
    rw [Root.contents, contentsOf, if_neg hi] at hitem
    cases hitem
  have hcontents : root.contents i =
      read slotMarks untagged root.marks root.rnode.ptr (digits root.height i) := if_pos hi
  refine ⟨hi, ?_⟩
  rcases descend_spec OnWay.start hroot.held with ⟨hnone, _⟩ | ⟨path, y, hway, hptr, hdown⟩
  · rw [hcontents] at hitem
    exact absurd (hitem.symm.trans hnone) (by simp)
  · have hptr : plug path (.leaf y) = root.rnode.ptr := hptr
    rw [hcontents, ← hptr, hway.read] at hitem
    obtain rfl : y = x := by simpa using hitem
    exact ⟨path, hway, hptr, hdown, by rw [hcontents, ← hptr, hway.read, read_leaf_nil]⟩

lemma Root.Ok.descend_absent (hroot : root.Ok) (hi : i.toNat ≤ radixTreeMaxindex root.height)
    (hnone : (root.contents i).1 = none) :
    descend i root.height [] root.rnode.ptr = some none := by
  have hstart : OnWay root.height i root.height [] := OnWay.start
  rcases descend_spec hstart hroot.held with ⟨_, hdown⟩ | ⟨path, y, hway, hptr, _⟩
  · exact hdown
  · have hptr : plug path (.leaf y) = root.rnode.ptr := hptr
    rw [Root.contents, contentsOf, if_pos hi, ← hptr, hway.read] at hnone
    cases hnone

lemma turns_leaf (g : Marks → Marks) : Turns g (.leaf x) (.leaf x) := ⟨rfl, fun _ _ => trivial⟩

lemma radixTreeTagSet_spec {t : Tree} (ht : t.Ok) (hitem : (t.root.contents i).1 = some x)
    (tag : Tag) :
    ∃ t', radixTreeTagSet i tag t = some (some x, t') ∧ t'.Ok ∧ t'.root.contents =
      update t.root.contents i (some x, update (t.root.contents i).2 tag true) := by
  obtain ⟨hi, path, hway, hptr, hdown, hcontents⟩ := ht.root.way hitem
  have hheld := ht.root.held
  rw [← hptr] at hheld
  obtain ⟨_, hctx⟩ := (held_plug hway.length).mp hheld
  have hloop : tagSetLoop i tag t.root.height [] t.root.rnode.ptr =
      some (relink (path.map (raise tag)) (.leaf x), .leaf x) :=
    tagSetLoop_eq OnWay.start ht.root.held hdown
  obtain ⟨root', hroot', hheight, hrnode, hmarks⟩ :=
    rootTagSet_unset { t.root with rnode := relink (path.map (raise tag)) (.leaf x) } tag
  have hmarks : root'.marks = update t.root.marks tag true := hmarks
  have hctx' := ctxInv_raise hctx (turns_leaf (update · tag true))
  rw [← hmarks] at hctx'
  obtain ⟨hok, hnew⟩ := ht.root.retag hi hway hptr hheight hrnode hctx' (raise_like path)
  refine ⟨⟨root', t.freed⟩, ?_, ⟨hok, ht.freed⟩, ?_⟩
  · rw [radixTreeTagSet, if_neg (not_lt.mpr hi), hloop]
    simp [slotItem, isNull, ← hroot']
  · rw [hnew, hmarks, topMark_raise, hcontents]

lemma radixTreeTagClear_spec (hroot : root.Ok) (i : Index) (tag : Tag) :
    ∃ root', radixTreeTagClear i tag root = some ((root.contents i).1, root') ∧ root'.Ok ∧
      root'.height = root.height ∧ root'.contents = update root.contents i
        ((root.contents i).1, update (root.contents i).2 tag false) := by
  cases hitem : (root.contents i).1 with
  | none =>
    have habsent := hroot.contents_absent hitem
    have hsame : update root.contents i
        (none, update (root.contents i).2 tag false) = root.contents := by
      rw [update_eq_self_iff, habsent]
      exact congrArg _ (update_eq_self_iff.mpr rfl)
    refine ⟨root, ?_, hroot, rfl, hsame.symm⟩
    by_cases hi : i.toNat ≤ radixTreeMaxindex root.height
    · rw [radixTreeTagClear, if_neg (not_lt.mpr hi), hroot.descend_absent hi hitem]
      rfl
    · rw [radixTreeTagClear, if_pos (not_le.mp hi)]
  | some x =>
    obtain ⟨hi, path, hway, hptr, hdown, hcontents⟩ := hroot.way hitem
    have hheld := hroot.held
    rw [← hptr] at hheld
    obtain ⟨_, hctx⟩ := (held_plug hway.length).mp hheld
    obtain ⟨path', top, hclear, hctx', hlike, htop⟩ :=
      clearTags_spec hctx (turns_leaf (update · tag false))
    obtain ⟨root', hroot', hheight, hrnode, hmarks⟩ :=
      rootTagClear_set { root with rnode := relink path' (.leaf x) } tag top
    have hmarks : root'.marks = if top then update root.marks tag false
        else root.marks := hmarks
    rw [← hmarks] at hctx' htop
    obtain ⟨hok, hnew⟩ := hroot.retag hi hway hptr hheight hrnode hctx' hlike
    refine ⟨root', ?_, hok, hheight, ?_⟩
    · rw [radixTreeTagClear, if_neg (not_lt.mpr hi), hdown]
      simp [slotItem, hclear, ← hroot']
    · rw [hnew, htop, hcontents]

end R0Kernel.RadixTree
