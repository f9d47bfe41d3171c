import R0Kernel.Lib.RadixTree.Invariant

/-! # Changes at one slot

What a change at the hole of a path does to the invariant of the nodes on the path
and to the contents of the tree.
-/

namespace R0Kernel.RadixTree

open SlotTree Function List

variable {h H : Nat} {b b' : Marks} {r r' : NodeInfo} {hd hd' : Head NodeInfo Item}
  {path path' : List PathEntry} {slot slot' : Slot} {i : Index} {d : Offset}

/-! ## Nodes on the path -/

/-- A loop on its way down to the slot of an index in a tree of height `H`, with `h`
levels to go. -/
structure OnWay (H : Nat) (i : Index) (h : Nat) (path : List PathEntry) : Prop where
  length : h + path.length = H
  key : route path ++ digits h i = digits H i

namespace OnWay

lemma start : OnWay H i H [] := ⟨rfl, rfl⟩

lemma push (hway : OnWay H i (h + 1) path) (hlike : Forall₂ (Frame.Like slotMarks) path' path)
    (r : NodeInfo) (s : Offset → Slot) : OnWay H i h (⟨r, s, slotOffset i h⟩ :: path') := by
  refine ⟨?_, ?_⟩
  · rw [← hway.length, length_cons, hlike.length_eq, add_right_comm, add_assoc]
  · rw [← hway.key, route, route_congr hlike, append_assoc]
    rfl

lemma route_eq (hway : OnWay H i 0 path) : route path = digits H i := by
  simpa [digits] using hway.key

end OnWay

lemma held_plug (hH : h + path.length = H) : Held H b (plug path slot) ↔
    Inv NodeOk h slot ∧ CtxInv NodeOk (MarksOk b) h path slot.head := by
  subst hH
  rw [← inv_plug]
  exact ⟨fun hheld => ⟨hheld.inv, hheld.marks⟩, fun hheld => ⟨hheld.1, hheld.2⟩⟩

variable {heads : Offset → Head NodeInfo Item} {g : Marks → Marks}

lemma NodeOk.change (hok : NodeOk h r (update heads d hd)) (hheight : r'.height = r.height)
    (hcount : r'.count = occupied (update heads d hd'))
    (hother : ∀ e, e ≠ d → slotMarks r' e = slotMarks r e) (hmarks : MarksOk (slotMarks r' d) hd') :
    NodeOk h r' (update heads d hd') := by
  refine ⟨hheight.trans hok.height, hcount, fun e => ?_⟩
  by_cases he : e = d
  · subst he
    simpa using hmarks
  · have hmarks := hok.marks e
    simp only [update_of_ne he] at hmarks ⊢
    rwa [hother e he]

/-- The slot stays empty or not, and its tags have to change by `g`. -/
structure Turns (g : Marks → Marks) (hd hd' : Head NodeInfo Item) : Prop where
  isNull : hd.isNull = hd'.isNull
  marks : ∀ b, MarksOk b hd → MarksOk (g b) hd'

lemma Turns.node (htags : r'.anyTagSet = g r.anyTagSet) :
    Turns g (.node r) (.node r') := by
  refine ⟨rfl, fun b hb => ?_⟩
  obtain rfl : b = r.anyTagSet := hb
  exact htags.symm

lemma occupied_turns (hnull : hd.isNull = hd'.isNull) :
    occupied (update heads d hd) = occupied (update heads d hd') := by
  refine occupied_congr fun e => ?_
  by_cases he : e = d
  · simp [he, hnull]
  · simp [he]

lemma NodeOk.turn (hok : NodeOk h r (update heads d hd)) (hturns : Turns g hd hd')
    (hheight : r'.height = r.height) (hcount : r'.count = r.count)
    (hother : ∀ e, e ≠ d → slotMarks r' e = slotMarks r e)
    (hmarks : slotMarks r' d = g (slotMarks r d)) :
    NodeOk h r' (update heads d hd') := by
  have hhole := hok.marks d
  rw [update_self] at hhole
  refine hok.change hheight ?_ hother ?_
  · rw [hcount, hok.count, occupied_turns hturns.isNull]
  · rw [hmarks]
    exact hturns.marks _ hhole

lemma ctxInv_congr (hctx : CtxInv NodeOk (MarksOk b) h path hd) (hturns : Turns id hd hd') :
    CtxInv NodeOk (MarksOk b) h path hd' := by
  cases path with
  | nil => exact hturns.marks b hctx
  | cons f path =>
    obtain ⟨hok, hslots, hrest⟩ := hctx
    exact ⟨hok.turn hturns rfl rfl (fun _ _ => rfl) rfl, hslots, hrest⟩

lemma topMark_ok (hctx : CtxInv NodeOk (MarksOk b) h path hd) :
    MarksOk (topMark slotMarks b path) hd :=
  hctx.topMark fun _ _ _ d hok => hok.marks d

lemma relink_indirect (hslot : ∀ r, slot.head ≠ .node r) :
    (relink path slot).indirect = ((relink path slot).ptr.head matches .node _) := by
  cases path with
  | nil =>
    split
    next r hr => exact absurd hr (hslot r)
    next => rfl
  | cons f path =>
    obtain ⟨r, hr⟩ := head_plug_cons f path slot
    simp only [relink, hr]
    rfl

lemma Node.Blank.anyTagSet {n : Node} (hblank : n.Blank) : n.info.anyTagSet = untagged := by
  funext tag
  have hoff : ∀ d, n.info.tags tag d = false := fun d => congrFun (hblank.marks d) tag
  simp [NodeInfo.anyTagSet, hoff, untagged]

/-! ## Contents -/

lemma contentsOf_null (h : Nat) (i : Index) : contentsOf h untagged .null i = (none, untagged) := by
  rw [contentsOf, read_zero_null, ite_self]

lemma Held.read_absent (hheld : Held h b slot) {ds : List Offset} (hlen : ds.length = h)
    (hnone : (read slotMarks untagged b slot ds).1 = none) :
    read slotMarks untagged b slot ds = (none, untagged) := by
  induction h generalizing b slot ds with
  | zero =>
    obtain rfl := length_eq_zero_iff.mp hlen
    rcases hheld.inv.cases_zero with rfl | ⟨x, rfl⟩
    · obtain rfl : b = untagged := hheld.marks
      rfl
    · cases hnone
  | succ h ih =>
    obtain ⟨d, ds, rfl⟩ := exists_cons_of_length_eq_add_one hlen
    rcases hheld.inv.cases_succ with rfl | ⟨r, s, rfl⟩
    · rfl
    · obtain ⟨hok, hslots⟩ := hheld.inv
      exact ih ⟨hslots d, hok.marks d⟩ (by simpa using hlen) hnone

lemma Root.Ok.contents_absent {root : Root} (hroot : root.Ok)
    (hnone : (root.contents i).1 = none) : root.contents i = (none, untagged) := by
  unfold Root.contents contentsOf at hnone ⊢
  split
  next hle =>
    rw [if_pos hle] at hnone
    exact hroot.held.read_absent (length_digits _ _) hnone
  next => rfl

/-- Nothing changes but what the index reads. -/
def Writes (H : Nat) (i : Index) (b : Marks) (slot : Slot) (b' : Marks) (slot' : Slot) : Prop :=
  ∀ ds, ds.length = H → ds ≠ digits H i →
    read slotMarks untagged b' slot' ds = read slotMarks untagged b slot ds

lemma Writes.refl : Writes H i b slot b slot := fun _ _ _ => rfl

lemma Writes.keysOk (hw : Writes H i b slot b' slot') (hkeys : KeysOk H b slot)
    (hi : i.toNat ≤ radixTreeMaxindex H) : KeysOk H b' slot' := by
  intro ds hlen hread
  by_cases hds : ds = digits H i
  · exact ⟨i, hi, hds⟩
  · rw [hw ds hlen hds] at hread
    exact hkeys ds hlen hread

lemma Writes.contentsOf (hw : Writes H i b slot b' slot') (hH : H ≤ 6)
    (hi : i.toNat ≤ radixTreeMaxindex H) :
    contentsOf H b' slot' = update (contentsOf H b slot) i
      (read slotMarks untagged b' slot' (digits H i)) := by
  funext j
  by_cases hj : j = i
  · subst hj
    simp [RadixTree.contentsOf, hi]
  · rw [update_of_ne hj, RadixTree.contentsOf, RadixTree.contentsOf]
    split
    next hle => exact hw _ (length_digits H j) fun heq => hj (digits_inj hH hle hi heq)
    next => rfl

def SameReads (H : Nat) (b : Marks) (slot slot' : Slot) : Prop :=
  ∀ ds, ds.length = H → read slotMarks untagged b slot' ds = read slotMarks untagged b slot ds

lemma SameReads.contentsOf (hsame : SameReads H b slot slot') :
    contentsOf H b slot' = contentsOf H b slot := by
  funext i
  rw [RadixTree.contentsOf, RadixTree.contentsOf, hsame _ (length_digits H i)]

lemma SameReads.keysOk (hsame : SameReads H b slot slot') (hkeys : KeysOk H b slot) :
    KeysOk H b slot' := by
  intro ds hlen hread
  rw [hsame ds hlen] at hread
  exact hkeys ds hlen hread

lemma sameReads_plug (hH : h + path.length = H)
    (hlike : Forall₂ (Frame.Like slotMarks) path' path)
    (hread : ∀ es, es.length = h →
      read slotMarks untagged (topMark slotMarks b path') slot' es =
        read slotMarks untagged (topMark slotMarks b path) slot es) :
    SameReads H b (plug path slot) (plug path' slot') := by
  intro ds hlen
  refine read_plug_congr hlike fun es hes => hread es ?_
  rw [hes, length_append, length_route, hlike.length_eq] at hlen
  omega

/-! ## One level more -/

section Level

variable (hread : ∀ d ds, read slotMarks untagged b slot' (d :: ds) =
  if d = 0 then read slotMarks untagged b slot ds else (none, untagged)) (hle : h + 1 ≤ 6)

include hread hle

lemma contentsOf_level : contentsOf (h + 1) b slot' = contentsOf h b slot := by
  funext i
  rw [contentsOf, contentsOf, digits, hread]
  by_cases hi : i.toNat ≤ radixTreeMaxindex (h + 1)
  · simp only [if_pos hi, slotOffset_eq_zero hle hi]
  · rw [if_neg hi, if_neg fun hmax => hi (hmax.trans (maxindex_mono hle))]

lemma keysOk_level : KeysOk (h + 1) b slot' ↔ KeysOk h b slot := by
  constructor
  · intro hkeys ds hlen hitem
    obtain ⟨i, hi, hds⟩ := hkeys (0 :: ds) (by simpa using hlen) (by rwa [hread])
    rw [digits, cons.injEq] at hds
    exact ⟨i, (slotOffset_eq_zero hle hi).mp hds.1.symm, hds.2⟩
  · intro hkeys ds hlen hitem
    obtain ⟨d, ds, rfl⟩ := exists_cons_of_length_eq_add_one hlen
    rw [hread] at hitem
    have hd : d = 0 := by
      by_contra hd
      simp [hd] at hitem
    rw [if_pos hd] at hitem
    obtain ⟨i, hi, rfl⟩ := hkeys ds (by simpa using hlen) hitem
    have hi' := hi.trans (maxindex_mono hle)
    refine ⟨i, hi', ?_⟩
    rw [hd, ← (slotOffset_eq_zero hle hi').mpr hi]
    rfl

end Level

/-! ## The end of the way -/

lemma OnWay.writes (hway : OnWay H i 0 path)
    (hlike : Forall₂ (Frame.Like slotMarks) path' path) :
    Writes H i b (plug path slot) b' (plug path' slot') := by
  intro ds hlen hne
  have hlen' : ds.length = path'.length := by
    rw [hlike.length_eq, hlen, ← hway.length, zero_add]
  refine read_plug_of_ne hlike hlen' ?_
  rw [route_congr hlike, hway.route_eq]
  exact hne

lemma OnWay.read (hway : OnWay H i 0 path) :
    read slotMarks untagged b (plug path slot) (digits H i) =
      SlotTree.read slotMarks untagged (topMark slotMarks b path) slot [] := by
  rw [← hway.route_eq, ← append_nil (route path), read_plug]

end R0Kernel.RadixTree
