import R0Kernel.Lib.RadixTree.Update

/-! # Inserting

Growing the tree and adding the nodes on the way to a slot do not change the
contents, so a failed allocation may leave any part of that work behind.
-/

namespace R0Kernel.RadixTree

open SlotTree Function

variable {h H : Nat} {b : Marks} {hd : Head NodeInfo Item} {path : List PathEntry} {slot : Slot}
  {i : Index} {root : Root} {pool : Pool} {node : Node} {σ : Type} {s : σ}
  {alloc : Root → σ → Option Node × σ} {Good : σ → Prop}

/-! ## Allocation -/

def Pool.Ok (pool : Pool) : Prop := ∀ n ∈ pool.freed, n.Blank

lemma radixTreeNodeCtor_blank : radixTreeNodeCtor.Blank := ⟨rfl, fun _ => rfl, fun _ => rfl⟩

lemma radixTreeNodeAlloc_spec (hpool : pool.Ok) :
    (∀ n ∈ (radixTreeNodeAlloc pool).1, n.Blank) ∧ (radixTreeNodeAlloc pool).2.Ok := by
  unfold radixTreeNodeAlloc
  split
  · exact ⟨by simpa using radixTreeNodeCtor_blank, hpool⟩
  · exact ⟨by simp, hpool⟩
  · exact ⟨by simpa using radixTreeNodeCtor_blank, hpool⟩
  · split
    · exact ⟨by simp, hpool⟩
    next n hn =>
      refine ⟨?_, fun n' hn' => hpool n' (List.eraseIdx_subset hn')⟩
      simpa using hpool n (List.mem_of_getElem? hn)

/-- As long as its state is good, the allocator gives nodes as the constructor leaves them. -/
def GivesBlank (alloc : Root → σ → Option Node × σ) (Good : σ → Prop) : Prop :=
  ∀ root s, Good s → (∀ n ∈ (alloc root s).1, n.Blank) ∧ Good (alloc root s).2

lemma Node.Blank.setHeight (hblank : node.Blank) (h : Nat) : (node.setHeight h).Blank :=
  ⟨hblank.count, hblank.slots, hblank.marks⟩

lemma Node.Blank.inv (hblank : node.Blank) (hheight : node.info.height = h + 1) :
    Inv NodeOk (h + 1) node.slot := by
  have hnull : ∀ d, (node.slots d).head = .null := fun d => by rw [hblank.slots, head_null]
  refine ⟨⟨hheight, ?_, fun d => ?_⟩, fun d => ?_⟩
  · exact hblank.count.trans (occupied_eq_zero.mpr hnull).symm
  · rw [hnull]
    exact hblank.marks d
  · rw [hblank.slots]
    exact inv_null h

/-! ## Growing -/

lemma extendOnce_marks (root : Root) (hblank : node.Blank) :
    ∃ r, (extendOnce root node).rnode.ptr = .node r (update node.slots 0 root.rnode.ptr) ∧
      r.height = root.height + 1 ∧ r.count = 1 ∧
      ∀ d, slotMarks r d = if d = 0 then root.marks else untagged := by
  refine ⟨_, rfl, rfl, rfl, fun d => ?_⟩
  have hoff : ∀ tag d, node.info.tags tag d = false := fun tag d => congrFun (hblank.marks d) tag
  funext tag
  fin_cases tag <;> by_cases hd : d = 0 <;> cases h0 : root.rootTagGet 0 <;>
    cases h1 : root.rootTagGet 1 <;>
    simp [slotMarks, NodeInfo.tagSet, hd, hoff, h0, h1, Root.marks, untagged]

lemma anyTagSet_eq {r : NodeInfo} {f : Offset → Marks} (hmarks : ∀ d, slotMarks r d = f d)
    (tag : Tag) : r.anyTagSet tag = true ↔ ∃ d, f d tag = true := by
  simp [NodeInfo.anyTagSet, ← hmarks, slotMarks]

section

variable (hroot : root.Ok) (hne : root.rnode.ptr ≠ .null) (hblank : node.Blank)

include hroot hne hblank

lemma extendOnce_held :
    Held (root.height + 1) root.marks (extendOnce root node).rnode.ptr := by
  obtain ⟨r, hptr, hheight, hcount, hmarks⟩ := extendOnce_marks root hblank
  have hheads : (fun d => (update node.slots 0 root.rnode.ptr d).head) =
      update (fun _ => .null) 0 root.rnode.ptr.head := by
    funext d
    by_cases hd : d = 0
    · simp [hd]
    · simp [hd, hblank.slots]
  rw [hptr]
  refine ⟨⟨⟨hheight, ?_, fun d => ?_⟩, fun d => ?_⟩, ?_⟩
  · have hnull : (root.rnode.ptr.head).isNull = false := by
      simpa [isNull, ← Bool.not_eq_true] using hne
    have hzero : occupied (update (fun _ : Offset => (.null : Head NodeInfo Item)) 0 .null)
        = 0 := occupied_eq_zero.mpr fun d => by simp
    rw [hheads, hcount, occupied_add_one hnull, hzero]
  · rw [hmarks]
    by_cases hd : d = 0
    · simpa [hd] using hroot.held.marks
    · simp [hd, hblank.slots, MarksOk]
  · by_cases hd : d = 0
    · simpa [hd] using hroot.held.inv
    · simp [hd, hblank.slots]
  · funext tag
    rw [Bool.eq_iff_iff, anyTagSet_eq hmarks]
    constructor
    · exact fun htag => ⟨0, by simpa using htag⟩
    · rintro ⟨d, hd⟩
      split at hd
      · exact hd
      · exact absurd hd (by simp [untagged])

lemma extendOnce_spec (hheight : root.height + 1 ≤ 6) :
    (extendOnce root node).Ok ∧ (extendOnce root node).contents = root.contents := by
  have hheld := extendOnce_held hroot hne hblank
  obtain ⟨r, hptr, _, _, hmarks⟩ := extendOnce_marks root hblank
  have hread : ∀ d ds, read slotMarks untagged root.marks (extendOnce root node).rnode.ptr
      (d :: ds) =
      if d = 0 then read slotMarks untagged root.marks root.rnode.ptr ds else (none, untagged) := by
    intro d ds
    rw [hptr, read_node_cons, hmarks]
    by_cases hd : d = 0
    · simp [hd]
    · simp [hd, hblank.slots, read_zero_null]
  exact ⟨⟨hheight, hheld, by rfl, (keysOk_level hread hheight).mpr hroot.keys⟩,
    contentsOf_level hread hheight⟩

end

lemma extendOnce_ne_null : (extendOnce root node).rnode.ptr ≠ .null := by
  simp [extendOnce]

lemma le_maxindex_six (i : Index) : i.toNat ≤ radixTreeMaxindex 6 := by
  have hi := i.toNat_lt
  have hmax : radixTreeMaxindex 6 = 2 ^ 32 - 1 := by decide
  omega

lemma extendHeight_spec {fuel : Nat} (hle : h ≤ 6) (hfuel : 6 ≤ h + fuel) :
    h ≤ extendHeight i fuel h ∧ extendHeight i fuel h ≤ 6 ∧
      i.toNat ≤ radixTreeMaxindex (extendHeight i fuel h) := by
  induction fuel generalizing h with
  | zero =>
    obtain rfl : h = 6 := by omega
    exact ⟨le_refl 6, le_refl 6, le_maxindex_six i⟩
  | succ fuel ih =>
    rw [extendHeight]
    split
    next hlt =>
      have hne : h ≠ 6 := by
        rintro rfl
        exact absurd (le_maxindex_six i) (not_le.mpr hlt)
      obtain ⟨hge, hle, hmax⟩ := ih (by omega : h + 1 ≤ 6) (by omega)
      exact ⟨by omega, hle, hmax⟩
    next hge => exact ⟨le_refl h, hle, not_lt.mp hge⟩

section Extend

variable (hgives : GivesBlank alloc Good)

include hgives

lemma extendLoop_spec {rounds : Nat} (hroot : root.Ok) (hne : root.rnode.ptr ≠ .null)
    (hs : Good s) (hheight : root.height + rounds ≤ 6) :
    ∃ ok root' s', extendLoop alloc rounds root s = (ok, root', s') ∧ root'.Ok ∧ Good s' ∧
      root'.contents = root.contents ∧ (ok = true → root'.height = root.height + rounds) := by
  induction rounds generalizing root s with
  | zero => exact ⟨true, root, s, rfl, hroot, hs, rfl, fun _ => rfl⟩
  | succ rounds ih =>
    obtain ⟨hblank, hs'⟩ := hgives root s hs
    rw [extendLoop]
    split
    next s' halloc =>
      rw [halloc] at hs'
      exact ⟨false, root, s', rfl, hroot, hs', rfl, by simp⟩
    next node s' halloc =>
      rw [halloc] at hblank hs'
      obtain ⟨hroot₁, hcontents₁⟩ := extendOnce_spec hroot hne (hblank node rfl) (by omega)
      have hheight₁ : (extendOnce root node).height = root.height + 1 := rfl
      obtain ⟨ok, root', s'', hrun, hok, hs'', hcontents, hdone⟩ :=
        ih hroot₁ extendOnce_ne_null hs' (by omega)
      refine ⟨ok, root', s'', hrun, hok, hs'', hcontents.trans hcontents₁, fun h => ?_⟩
      rw [hdone h]
      omega

lemma radixTreeExtend_spec (hroot : root.Ok) (hs : Good s)
    (hi : radixTreeMaxindex root.height < i.toNat) :
    ∃ ok root' s', radixTreeExtend alloc i root s = (ok, root', s') ∧ root'.Ok ∧ Good s' ∧
      root'.contents = root.contents ∧ (ok = true → i.toNat ≤ radixTreeMaxindex root'.height) := by
  have hlt : root.height + 1 ≤ 6 := by
    have hle := hroot.height_le
    have hne : root.height ≠ 6 := fun heq =>
      absurd (le_maxindex_six i) (not_le.mpr (heq ▸ hi))
    omega
  obtain ⟨hge, hle, hmax⟩ := extendHeight_spec (i := i) hlt (Nat.le_add_left 6 _)
  unfold radixTreeExtend radixTreeMaxPath
  by_cases hnull : root.rnode.ptr = .null
  · have hmarks : root.marks = untagged := by
      have hheld := hroot.held.marks
      rwa [hnull] at hheld
    refine ⟨true, { root with height := extendHeight i 6 (root.height + 1) }, s,
      by simp [hnull, isNull], ⟨hle, ?_, hroot.indirect, ?_⟩, hs, ?_, fun _ => hmax⟩
    · refine ⟨?_, hroot.held.marks⟩
      simp [hnull]
    · rintro ds _ hitem
      simp only [hnull] at hitem
      cases ds <;> exact absurd rfl hitem
    · funext j
      change contentsOf _ root.marks root.rnode.ptr j = contentsOf _ root.marks root.rnode.ptr j
      rw [hnull, hmarks, contentsOf_null, contentsOf_null]
  · have hsome : root.rnode.ptr.isNull = false := by
      simpa [← Bool.not_eq_true] using hnull
    have hrounds : root.height + (extendHeight i 6 (root.height + 1) - root.height) ≤ 6 := by omega
    obtain ⟨ok, root', s', hrun, hok, hs', hcontents, hdone⟩ :=
      extendLoop_spec hgives hroot hnull hs hrounds
    refine ⟨ok, root', s', by simp [hsome, hrun], hok, hs', hcontents, fun h => ?_⟩
    rw [hdone h, Nat.add_sub_cancel' (by omega)]
    exact hmax

end Extend

/-! ## The loop -/

lemma bumpCount_like (path : List PathEntry) :
    List.Forall₂ (Frame.Like slotMarks) (bumpCount path) path := by
  cases path with
  | nil => exact .nil
  | cons f path => exact .cons ⟨rfl, rfl, fun _ _ => rfl⟩ (forall_like_refl _ _)

lemma topMark_bumpCount : topMark slotMarks b (bumpCount path) = topMark slotMarks b path := by
  cases path <;> rfl

/-- An empty slot may be filled with anything that has no tags. -/
lemma ctxInv_bumpCount (hctx : CtxInv NodeOk (MarksOk b) h path .null) (hnew : hd.isNull = false)
    (hmarks : MarksOk untagged hd) : CtxInv NodeOk (MarksOk b) h (bumpCount path) hd := by
  have htop : topMark slotMarks b path = untagged := topMark_ok hctx
  cases path with
  | nil =>
    obtain rfl : b = untagged := htop
    exact hmarks
  | cons f path =>
    obtain ⟨hok, hslots, hrest⟩ := hctx
    refine ⟨hok.change rfl ?_ (fun _ _ => rfl) ?_, hslots, ctxInv_congr hrest (.node rfl)⟩
    · rw [hok.count, occupied_add_one hnew]
    · change MarksOk (slotMarks f.info f.hole) hd
      rw [show slotMarks f.info f.hole = untagged from htop]
      exact hmarks

/-- What an insertion returns and what the index reads before and after it. -/
inductive InsertOutcome (item : Item) (old new : Option Item × Marks) : Int → Prop
  | present (hold : old.1 ≠ none) (hnew : new = old) : InsertOutcome item old new (-eexist)
  | nomem (hold : old.1 = none) (hnew : new = old) : InsertOutcome item old new (-enomem)
  | ok (hold : old.1 = none) (hnew : new = (some item, untagged)) : InsertOutcome item old new 0

lemma insertItem_spec {item : Item} (hb : root.marks = b) (hway : OnWay H i 0 path)
    (hheld : Held H b (plug path .null)) :
    ∃ rnode', insertItem root item path = some rnode' ∧ Held H b rnode'.ptr ∧
      rnode'.indirect = (rnode'.ptr.head matches .node _) ∧
      Writes H i b (plug path .null) b rnode'.ptr ∧
      read slotMarks untagged b rnode'.ptr (digits H i) = (some item, untagged) := by
  obtain ⟨_, hctx⟩ := (held_plug hway.length).mp hheld
  have htop : topMark slotMarks b path = untagged := topMark_ok hctx
  have hlike := bumpCount_like path
  have hway' : OnWay H i 0 (bumpCount path) :=
    ⟨by rw [hlike.length_eq, hway.length], by rw [route_congr hlike, hway.key]⟩
  have hleaf : Inv NodeOk 0 (.leaf item : Slot) := trivial
  refine ⟨relink (bumpCount path) (.leaf item), ?_, ?_, relink_indirect (by simp),
    hway.writes hlike, ?_⟩
  · cases path with
    | nil =>
      obtain rfl : b = untagged := htop
      have hoff : ∀ tag, root.rootTagGet tag = false := fun tag => congrFun hb tag
      simp [insertItem, hoff, bumpCount]
    | cons f path =>
      have hoff : ∀ tag, f.info.tags tag f.hole = false := fun tag => congrFun htop tag
      simp [insertItem, hoff, NodeInfo.tagGet]
  · exact (held_plug hway'.length).mpr ⟨hleaf, ctxInv_bumpCount hctx rfl trivial⟩
  · rw [relink, hway'.read, topMark_bumpCount, htop]
    rfl

/-- A new node on the way is empty, so the tree around it reads as before. -/
lemma attach_spec (hway : OnWay H i (h + 1) path) (hheld : Held H b (plug path .null))
    (hblank : node.Blank) (hheight : node.info.height = h + 1) :
    Held H b (plug (bumpCount path) node.slot) ∧
      SameReads H b (plug path .null) (plug (bumpCount path) node.slot) := by
  have hlike := bumpCount_like path
  have hH : h + 1 + (bumpCount path).length = H := by rw [hlike.length_eq, hway.length]
  obtain ⟨_, hctx⟩ := (held_plug hway.length).mp hheld
  refine ⟨(held_plug hH).mpr ⟨hblank.inv hheight, ?_⟩, sameReads_plug hway.length hlike ?_⟩
  · exact ctxInv_bumpCount hctx rfl hblank.anyTagSet.symm
  · intro es hes
    obtain ⟨e, es, rfl⟩ := List.exists_cons_of_length_eq_add_one hes
    rw [Node.slot, read_blank _ _ hblank.slots hblank.marks, read_null_cons]

/-- The loop keeps the tree well-formed and changes at most what the index reads. -/
lemma insertLoop_spec (item : Item) (hgives : GivesBlank alloc Good) (hb : root.marks = b)
    (hs : Good s) (hway : OnWay H i h path) (hheld : Held H b (plug path slot)) :
    ∃ error rnode' s', insertLoop alloc root i item h path slot s = some (error, rnode', s') ∧
      Good s' ∧ Held H b rnode'.ptr ∧ rnode'.indirect = (rnode'.ptr.head matches .node _) ∧
      Writes H i b (plug path slot) b rnode'.ptr ∧
      InsertOutcome item (read slotMarks untagged b (plug path slot) (digits H i))
        (read slotMarks untagged b rnode'.ptr (digits H i)) error := by
  induction h generalizing path slot s with
  | zero =>
    rw [hway.read]
    rcases ((held_plug hway.length).mp hheld).1.cases_zero with rfl | ⟨x, rfl⟩
    · obtain ⟨rnode', hrun, hheld', hind, hw, hread⟩ := insertItem_spec hb hway hheld
      exact ⟨0, rnode', s, by simp [insertLoop, isNull, hrun], hs, hheld', hind, hw,
        .ok rfl hread⟩
    · exact ⟨-eexist, relink path (.leaf x), s, by simp [insertLoop, isNull], hs, hheld,
        relink_indirect (by simp), .refl, .present (by simp) hway.read⟩
  | succ h ih =>
    rcases ((held_plug hway.length).mp hheld).1.cases_succ with rfl | ⟨r, slots, rfl⟩
    · obtain ⟨hblank, hs'⟩ := hgives root s hs
      rw [insertLoop]
      split
      next s' halloc =>
        rw [halloc] at hs'
        have hold : read slotMarks untagged b (plug path .null) (digits H i) =
            (none, untagged) := by
          rw [← hway.key, read_plug, digits, read_null_cons]
        exact ⟨-enomem, relink path .null, s', rfl, hs', hheld, relink_indirect (by simp),
          .refl, .nomem (by rw [hold]) rfl⟩
      next node s' halloc =>
        rw [halloc] at hblank hs'
        have hnode := (hblank node rfl).setHeight (h + 1)
        obtain ⟨hheld₁, hsame⟩ := attach_spec hway hheld hnode rfl
        rw [Node.slot, ← fill_slot _ _ (slotOffset i h)] at hheld₁ hsame
        obtain ⟨error, rnode', s'', hrun, hs'', hheld', hind, hw, hout⟩ :=
          ih hs' (hway.push (bumpCount_like path) _ _) hheld₁
        refine ⟨error, rnode', s'', hrun, hs'', hheld', hind, ?_, ?_⟩
        · exact fun ds hds hne => (hw ds hds hne).trans (hsame ds hds)
        · rw [← hsame _ (length_digits H i)]
          exact hout
    · rw [insertLoop]
      rw [← fill_slot r slots (slotOffset i h)] at hheld ⊢
      exact ih hs (hway.push (forall_like_refl _ _) _ _) hheld

/-! ## The operation -/

lemma grow_spec (hgives : GivesBlank alloc Good) (hroot : root.Ok) (hs : Good s) (i : Index) :
    ∃ ok root' s', grow alloc i root s = (ok, root', s') ∧ root'.Ok ∧ Good s' ∧
      root'.contents = root.contents ∧ (ok = true → i.toNat ≤ radixTreeMaxindex root'.height) ∧
      (ok = false → (root.contents i).1 = none) := by
  by_cases hi : radixTreeMaxindex root.height < i.toNat
  · obtain ⟨ok, root', s', hrun, hok, hs', hcontents, hdone⟩ :=
      radixTreeExtend_spec hgives hroot hs hi
    refine ⟨ok, root', s', by rw [grow, if_pos hi, hrun], hok, hs', hcontents, hdone, fun _ => ?_⟩
    rw [Root.contents, contentsOf, if_neg (not_le.mpr hi)]
  · exact ⟨true, root, s, by rw [grow, if_neg hi], hroot, hs, rfl, fun _ => not_lt.mp hi, by simp⟩

/-- Only what the index reads may change, as the error says. -/
lemma radixTreeInsertWith_spec {item : Item} (hgives : GivesBlank alloc Good) (hroot : root.Ok)
    (hs : Good s) (hitem : isIndirectPtr item = false) (i : Index) :
    ∃ error root' s', radixTreeInsertWith alloc i item root s = some (error, root', s') ∧
      root'.Ok ∧ Good s' ∧ (∀ j, j ≠ i → root'.contents j = root.contents j) ∧
      InsertOutcome item (root.contents i) (root'.contents i) error := by
  obtain ⟨ok, root₁, s₁, hgrow, hroot₁, hs₁, hcontents, hdone, hfail⟩ :=
    grow_spec hgives hroot hs i
  unfold radixTreeInsertWith
  rw [if_neg (by simp [hitem]), hgrow]
  cases ok with
  | false =>
    refine ⟨-enomem, root₁, s₁, rfl, hroot₁, hs₁, fun j _ => ?_, .nomem ?_ ?_⟩
    · rw [hcontents]
    · exact hfail rfl
    · rw [hcontents]
  | true =>
    have hi := hdone rfl
    obtain ⟨error, rnode', s', hrun, hs', hheld, hind, hw, hout⟩ :=
      insertLoop_spec item hgives rfl hs₁ OnWay.start hroot₁.held
    have hchange := hw.contentsOf hroot₁.height_le hi
    have hnew : (Root.contents { root₁ with rnode := rnode' }) =
        update root₁.contents i _ := hchange
    refine ⟨error, { root₁ with rnode := rnode' }, s', ?_,
      ⟨hroot₁.height_le, hheld, hind, hw.keysOk hroot₁.keys hi⟩, hs', fun j hj => ?_, ?_⟩
    · simp [hrun]
    · rw [hnew, update_of_ne hj, hcontents]
    · rw [hnew, update_self, ← hcontents, Root.contents, contentsOf, if_pos hi]
      exact hout

lemma radixTreeInsert_spec {t : Tree} {item : Item} (ht : t.Ok) (hitem : isIndirectPtr item = false)
    (i : Index) (grants : List Grant) :
    ∃ error t', radixTreeInsert i item grants t = some (error, t') ∧ t'.Ok ∧
      (∀ j, j ≠ i → t'.root.contents j = t.root.contents j) ∧
      InsertOutcome item (t.root.contents i) (t'.root.contents i) error := by
  have hgives : GivesBlank (fun _ => radixTreeNodeAlloc) Pool.Ok := fun _ _ =>
    radixTreeNodeAlloc_spec
  have hfreed : Pool.Ok ⟨grants, t.freed⟩ := ht.freed
  obtain ⟨error, root', pool, hrun, hroot, hpool, hother, hout⟩ :=
    radixTreeInsertWith_spec hgives ht.root hfreed hitem i
  exact ⟨error, ⟨root', pool.freed⟩, by rw [radixTreeInsert, hrun]; rfl, ⟨hroot, hpool⟩, hother,
    hout⟩

end R0Kernel.RadixTree
