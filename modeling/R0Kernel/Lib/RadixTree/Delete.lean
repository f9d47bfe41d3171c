import R0Kernel.Lib.RadixTree.Tags

/-! # Deleting

The item's tags are cleared, then the slots on the way up are emptied for as long
as a node has no other slot in use. Every node that is freed is blank again.
-/

namespace R0Kernel.RadixTree

open SlotTree Function List

variable {h H : Nat} {b : Marks} {hd : Head NodeInfo Item} {path : List PathEntry} {slot : Slot}
  {i : Index} {root : Root} {tag : Tag} {x : Item} {freed : List Node}

/-! ## Shrinking -/

variable {s : Offset → Slot} {f : PathEntry} {t : Tree} {r : NodeInfo} {toFree : Option Node}

lemma slots_null_of_count (hok : NodeOk h r fun d => (s d).head) (hcount : r.count = 1)
    (hfirst : s 0 ≠ .null) {d : Offset} (hd : d ≠ 0) : s d = .null := by
  have hsome : (s 0).head.isNull = false := by
    rw [← Bool.not_eq_true, Head.isNull_eq_true, head_eq_null]
    exact hfirst
  have hone : occupied (fun d => (s d).head) = 1 := hok.count.symm.trans hcount
  have hnull := eq_null_of_occupied_one hone hsome hd
  exact head_eq_null.mp hnull

/-- The child in the first slot takes the place of the root node. -/
lemma shrink_spec {k : Nat} (hroot : root.Ok) (hheight : root.height = k + 1)
    (hptr : root.rnode.ptr = .node r s) (hcount : r.count = 1) (hfirst : s 0 ≠ .null) :
    (shrinkOnce root s).Ok ∧ (shrinkOnce root s).contents = root.contents ∧
      (shrinkFreed r s).Blank := by
  obtain ⟨hinv, hmarks⟩ := hroot.held
  have hle := hroot.height_le
  rw [hheight] at hinv hle
  rw [hptr] at hinv hmarks
  obtain ⟨hok, hslots⟩ := hinv
  have hnull : ∀ d, d ≠ 0 → s d = .null := fun d hd => slots_null_of_count hok hcount hfirst hd
  have huntagged : ∀ d, d ≠ 0 → slotMarks r d = untagged := by
    intro d hd
    have hslot := hok.marks d
    rwa [hnull d hd] at hslot
  -- the first slot has all tags of the node
  have hall : root.marks = slotMarks r 0 := by
    rw [show root.marks = r.anyTagSet from hmarks]
    funext tag
    rw [Bool.eq_iff_iff, anyTagSet_iff]
    constructor
    · rintro ⟨d, htag⟩
      by_cases hd : d = 0
      · rwa [hd] at htag
      · rw [huntagged d hd] at htag
        cases htag
    · exact fun htag => ⟨0, htag⟩
  have hread : ∀ d ds, read slotMarks untagged root.marks root.rnode.ptr (d :: ds) =
      if d = 0 then read slotMarks untagged root.marks (s 0) ds else (none, untagged) := by
    intro d ds
    rw [hptr, read_node_cons]
    by_cases hd : d = 0
    · rw [if_pos hd, hall, hd]
    · rw [if_neg hd, huntagged d hd, hnull d hd, read_zero_null]
  have hpred : (shrinkOnce root s).height = k := by
    simp [shrinkOnce, hheight]
  refine ⟨⟨?_, ?_, ?_, ?_⟩, ?_, rfl, fun d => ?_, fun d => ?_⟩
  · rw [hpred]
    exact Nat.le_of_succ_le hle
  · rw [hpred]
    refine ⟨hslots 0, ?_⟩
    change MarksOk root.marks (s 0).head
    rw [hall]
    exact hok.marks 0
  · have hchild := hslots 0
    dsimp only [shrinkOnce]
    cases k with
    | zero =>
      obtain ⟨x, hx⟩ := hchild.cases_zero.resolve_left hfirst
      rw [hx, hheight]
      rfl
    | succ k =>
      obtain ⟨r', s', hs⟩ := hchild.cases_succ.resolve_left hfirst
      rw [hs, hheight]
      simp
  · rw [hpred]
    have hkeys := hroot.keys
    rw [hheight] at hkeys
    exact (keysOk_level hread hle).mp hkeys
  · rw [Root.contents, Root.contents, hpred, hheight]
    exact (contentsOf_level hread hle).symm
  · by_cases hd : d = 0
    · simp [shrinkFreed, hd]
    · simp [shrinkFreed, hd, hnull d hd]
  · change slotMarks ((r.tagClear 0 0).tagClear 1 0) d = untagged
    rw [slotMarks_tagClear, slotMarks_tagClear]
    by_cases hd : d = 0
    · funext tag
      fin_cases tag <;> simp [hd, untagged]
    · simp [hd, huntagged d hd]

lemma shrinkLoop_spec {rounds : Nat} (hroot : root.Ok) (hne : root.rnode.ptr ≠ .null)
    (hfreed : ∀ n ∈ freed, n.Blank) (hrounds : root.height = rounds) :
    ∃ root' freed', shrinkLoop rounds root freed = some (root', freed') ∧ root'.Ok ∧
      (∀ n ∈ freed', n.Blank) ∧ root'.contents = root.contents := by
  induction rounds generalizing root freed with
  | zero => exact ⟨root, freed, rfl, hroot, hfreed, rfl⟩
  | succ k ih =>
    have hinv := hroot.held.inv
    have hind := hroot.indirect
    rw [hrounds] at hinv
    obtain ⟨r, s, hptr⟩ := hinv.cases_succ.resolve_left hne
    by_cases hstop : (r.count ≠ 1 || (s 0).isNull) = true
    · exact ⟨root, freed, by simp only [shrinkLoop, hind, hptr, hstop]; rfl, hroot, hfreed, rfl⟩
    · obtain ⟨hcount, hfirst⟩ : r.count = 1 ∧ s 0 ≠ .null := by simpa using hstop
      obtain ⟨hok, hcontents, hblank⟩ := shrink_spec hroot hrounds hptr hcount hfirst
      have hheight : (shrinkOnce root s).height = k := by simp [shrinkOnce, hrounds]
      obtain ⟨root', freed', hrun, hok', hfreed', hsame⟩ :=
        ih hok hfirst (forall_mem_cons.mpr ⟨hblank, hfreed⟩) hheight
      refine ⟨root', freed', ?_, hok', hfreed', hsame.trans hcontents⟩
      simp only [shrinkLoop, hind, hptr, hstop]
      exact hrun

/-! ## The way up -/

lemma emptied_inv (hctx : CtxInv NodeOk (MarksOk b) h (f :: path) hd) (hsome : hd.isNull = false)
    (htop : slotMarks f.info f.hole = untagged) :
    Inv NodeOk (h + 1) (emptied f).slot ∧
      CtxInv NodeOk (MarksOk b) (h + 1) path (emptied f).slot.head := by
  obtain ⟨hok, hslots, hrest⟩ := hctx
  have hcount : f.info.count - 1 =
      occupied (update (fun d => (f.slots d).head) f.hole .null) := by
    rw [hok.count, occupied_add_one hsome, Nat.add_sub_cancel]
  refine ⟨?_, ctxInv_congr hrest (.node rfl)⟩
  have hfill : Inv NodeOk (h + 1) (Frame.fill ⟨(emptied f).info, f.slots, f.hole⟩ .null) ↔ _ :=
    inv_fill
  exact hfill.mpr ⟨hok.change rfl hcount (fun _ _ => rfl) htop, hslots, inv_null h⟩

lemma emptied_reads (hH : h + (f :: path).length = H) :
    SameReads H b (plug (f :: path) .null) (plug path (emptied f).slot) := by
  have hH' : h + 1 + path.length = H := by
    rw [← hH, length_cons, add_right_comm, add_assoc]
  rw [plug]
  refine sameReads_plug hH' (forall_like_refl _ _) fun es hes => ?_
  obtain ⟨e, es, rfl⟩ := exists_cons_of_length_eq_add_one hes
  rfl

lemma emptied_blank (hinv : Inv NodeOk (h + 1) (emptied f).slot)
    (hcount : (emptied f).info.count = 0) : (emptied f).Blank := by
  obtain ⟨hok, _⟩ := hinv
  have hnull := occupied_eq_zero.mp (hok.count.symm.trans hcount)
  refine ⟨hcount, fun d => head_eq_null.mp (hnull d), fun d => ?_⟩
  have hmarks := hok.marks d
  rwa [hnull d] at hmarks

lemma forall_toFree (htoFree : ∀ n ∈ toFree, n.Blank) (hfreed : ∀ n ∈ freed, n.Blank) :
    ∀ n ∈ toFree.toList ++ freed, n.Blank := by
  intro n hn
  rcases mem_append.mp hn with hn | hn
  · exact htoFree n (Option.mem_toList.mp hn)
  · exact hfreed n hn

/-- The tree ends up as if the slot at the end of the path had been emptied. -/
lemma deleteLoop_spec (hle : root.height ≤ 6) (hH : h + path.length = root.height)
    (hctx : CtxInv NodeOk (MarksOk root.marks) h path hd) (hsome : hd.isNull = false)
    (htop : topMark slotMarks root.marks path = untagged)
    (hkeys : KeysOk root.height root.marks (plug path .null)) (htoFree : ∀ n ∈ toFree, n.Blank)
    (hfreed : ∀ n ∈ freed, n.Blank) :
    ∃ root' freed', deleteLoop root path toFree freed = some (root', freed') ∧ root'.Ok ∧
      (∀ n ∈ freed', n.Blank) ∧
      root'.contents = contentsOf root.height root.marks (plug path .null) := by
  have hfreed' := forall_toFree htoFree hfreed
  induction path generalizing h hd toFree freed with
  | nil =>
    have hmarks : Root.marks { root.rootTagClearAll with height := 0, rnode := ⟨.null, false⟩ } =
        untagged := marks_rootTagClearAll
    refine ⟨_, _, rfl, ⟨Nat.zero_le 6, ⟨inv_null 0, hmarks⟩, rfl, ?_⟩, hfreed', ?_⟩
    · rintro ds _ hitem
      cases ds <;> exact absurd rfl hitem
    · funext i
      rw [Root.contents, hmarks, show root.marks = untagged from htop, plug, contentsOf_null,
        contentsOf_null]
  | cons f path ih =>
    have hH' : h + 1 + path.length = root.height := by
      rw [← hH, length_cons, add_right_comm, add_assoc]
    obtain ⟨hinv, hctx'⟩ := emptied_inv hctx hsome htop
    have hsame : SameReads root.height root.marks _ _ := emptied_reads hH
    rw [deleteLoop]
    by_cases hcount : (emptied f).info.count = 0
    · -- the whole node goes
      have hblank := emptied_blank hinv hcount
      have hany : f.info.anyTagSet = untagged := hblank.anyTagSet
      have hnull : SameReads root.height root.marks (plug (f :: path) .null) (plug path .null) := by
        intro ds hds
        rw [← hsame ds hds]
        refine sameReads_plug hH' (forall_like_refl _ _) (fun es hes => ?_) ds hds
        obtain ⟨e, es, rfl⟩ := exists_cons_of_length_eq_add_one hes
        rw [Node.slot, read_blank _ _ hblank.slots hblank.marks, read_null_cons]
      have hrest := hctx.2.2
      have htop' : topMark slotMarks root.marks path = untagged :=
        Eq.trans (topMark_ok hrest) hany
      have hblank' : ∀ n ∈ some (emptied f), n.Blank := by simpa using hblank
      obtain ⟨root', freed', hrun, hok, hfreed'', hcontents⟩ :=
        ih hH' hrest rfl htop' (hnull.keysOk hkeys) hblank' hfreed' (forall_toFree hblank' hfreed')
      refine ⟨root', freed', ?_, hok, hfreed'', hcontents.trans hnull.contentsOf⟩
      simp only [hcount, ne_eq, not_true_eq_false, if_false]
      exact hrun
    · have hheld : Held root.height root.marks (plug path (emptied f).slot) :=
        (held_plug hH').mpr ⟨hinv, hctx'⟩
      have hok : Root.Ok { root with rnode := ⟨plug path (emptied f).slot, true⟩ } := by
        refine ⟨hle, hheld, ?_, hsame.keysOk hkeys⟩
        cases path with
        | nil => rfl
        | cons g path =>
          obtain ⟨r, hr⟩ := head_plug_cons g path (emptied f).slot
          rw [hr]
      have hcontents : Root.contents { root with rnode := ⟨plug path (emptied f).slot, true⟩ } =
          contentsOf root.height root.marks (plug (f :: path) .null) := hsame.contentsOf
      simp only [ne_eq, hcount, not_false_eq_true, if_true]
      cases path with
      | nil =>
        obtain ⟨root', freed', hrun, hok', hfreed'', hsame'⟩ :=
          shrinkLoop_spec hok (by simp [plug, Node.slot]) hfreed' rfl
        exact ⟨root', freed', hrun, hok', hfreed'', hsame'.trans hcontents⟩
      | cons g path => exact ⟨_, _, rfl, hok, hfreed', hcontents⟩

/-! ## The operation -/

lemma clearItemTags_spec (tags : List Tag) (hroot : root.Ok) (hpos : 0 < root.height)
    (hitem : (root.contents i).1 = some x) :
    ∃ root', clearItemTags i tags root = some root' ∧ root'.Ok ∧ root'.height = root.height ∧
      root'.contents = update root.contents i
        (some x, fun tag => decide (tag ∉ tags) && (root.contents i).2 tag) := by
  induction tags generalizing root with
  | nil =>
    refine ⟨root, rfl, hroot, rfl, (update_eq_self_iff.mpr ?_).symm⟩
    rw [← hitem]
    simp
  | cons tag tags ih =>
    obtain ⟨_, path, hway, _, hdown, hcontents⟩ := hroot.way hitem
    cases path with
    | nil =>
      have hzero := hway.length
      simp only [length_nil] at hzero
      omega
    | cons f path =>
      have hmark : (root.contents i).2 tag = f.info.tagGet tag f.hole := by rw [hcontents]; rfl
      by_cases hset : f.info.tagGet tag f.hole = true
      · obtain ⟨root₁, hrun₁, hok₁, hheight₁, hcontents₁⟩ := radixTreeTagClear_spec hroot i tag
        have hitem₁ : (root₁.contents i).1 = some x := by
          rw [hcontents₁, update_self, hitem]
        obtain ⟨root', hrun, hok, hheight, hnew⟩ := ih hok₁ (hheight₁ ▸ hpos) hitem₁
        refine ⟨root', ?_, hok, hheight.trans hheight₁, ?_⟩
        · simp [clearItemTags, hdown, hset, hrun₁, hrun]
        · rw [hnew, hcontents₁, update_idem]
          congr 2
          funext other
          by_cases hother : other = tag <;> simp [hother]
      · obtain ⟨root', hrun, hok, hheight, hnew⟩ := ih hroot hpos hitem
        refine ⟨root', ?_, hok, hheight, ?_⟩
        · simp [clearItemTags, hdown, hset, hrun]
        · rw [hnew]
          congr 2
          funext other
          by_cases hother : other = tag
          · subst hother
            simp [hmark, hset]
          · simp [hother]

lemma radixTreeDelete_direct (ht : t.Ok) (hzero : t.root.height = 0)
    (hi : i.toNat ≤ radixTreeMaxindex t.root.height) :
    ∃ t', radixTreeDelete i t = some ((t.root.contents i).1, t') ∧ t'.Ok ∧
      t'.root.contents = update t.root.contents i (none, untagged) := by
  have hmarks : Root.marks { t.root.rootTagClearAll with rnode := ⟨.null, false⟩ } = untagged :=
    marks_rootTagClearAll
  have hinv := ht.root.held.inv
  rw [hzero] at hinv
  have hslot : slotItem t.root.rnode.ptr = some (t.root.contents i).1 := by
    rw [Root.contents, contentsOf, if_pos hi, hzero]
    rcases hinv.cases_zero with hptr | ⟨x, hptr⟩
    · rw [hptr]
      rfl
    · rw [hptr]
      rfl
  refine ⟨{ t with root := { t.root.rootTagClearAll with rnode := ⟨.null, false⟩ } }, ?_,
    ⟨⟨ht.root.height_le, ⟨inv_null _, hmarks⟩, rfl, ?_⟩, ht.freed⟩, ?_⟩
  · rw [radixTreeDelete, if_neg (not_lt.mpr hi), if_pos hzero, hslot]
    rfl
  · rintro ds _ hitem
    cases ds <;> exact absurd rfl hitem
  · have hmax : radixTreeMaxindex 0 = 0 := by decide
    funext j
    rw [Root.contents, hmarks, contentsOf_null]
    by_cases hj : j = i
    · rw [hj, update_self]
    · rw [update_of_ne hj, Root.contents, contentsOf, if_neg]
      rw [hzero] at hi ⊢
      exact fun hj0 => hj (UInt32.toNat_inj.mp (by omega))

lemma radixTreeDelete_present (ht : t.Ok) (hpos : 0 < t.root.height)
    (hitem : (t.root.contents i).1 = some x) :
    ∃ t', radixTreeDelete i t = some (some x, t') ∧ t'.Ok ∧
      t'.root.contents = update t.root.contents i (none, untagged) := by
  obtain ⟨hi, _, _, _, hdown, _⟩ := ht.root.way hitem
  obtain ⟨root₁, hrun₁, hok₁, hheight₁, hcontents₁⟩ := clearItemTags_spec [0, 1] ht.root hpos hitem
  have hclear : (fun tag => decide (tag ∉ [0, 1]) && (t.root.contents i).2 tag) = untagged := by
    funext tag
    fin_cases tag <;> rfl
  rw [hclear] at hcontents₁
  have hitem₁ : (root₁.contents i).1 = some x := by rw [hcontents₁, update_self]
  obtain ⟨hi₁, path, hway, hptr, hdown₁, hread₁⟩ := hok₁.way hitem₁
  rw [hcontents₁, update_self, Prod.mk.injEq] at hread₁
  have hheld := hok₁.held
  rw [← hptr] at hheld
  obtain ⟨_, hctx⟩ := (held_plug hway.length).mp hheld
  have hw : Writes root₁.height i root₁.marks root₁.rnode.ptr root₁.marks (plug path .null) := by
    rw [← hptr]
    exact hway.writes (forall_like_refl _ _)
  have hno : ∀ n ∈ (none : Option Node), n.Blank := by simp
  obtain ⟨root', freed', hrun, hok, hfreed, hcontents⟩ :=
    deleteLoop_spec hok₁.height_le hway.length hctx rfl hread₁.2.symm (hw.keysOk hok₁.keys hi₁)
      hno ht.freed
  refine ⟨⟨root', freed'⟩, ?_, ⟨hok, hfreed⟩, ?_⟩
  · simp only [radixTreeDelete, if_neg (not_lt.mpr hi), if_neg hpos.ne', hdown, slotItem, hrun₁,
      hdown₁, hrun, Option.bind_eq_bind, Option.bind_some]
  · rw [hcontents, hw.contentsOf hok₁.height_le hi₁, hway.read, ← hread₁.2, read_null_nil]
    change update root₁.contents i _ = _
    rw [hcontents₁, update_idem]

lemma radixTreeDelete_spec (ht : t.Ok) (i : Index) :
    ∃ t', radixTreeDelete i t = some ((t.root.contents i).1, t') ∧ t'.Ok ∧
      t'.root.contents = update t.root.contents i (none, untagged) := by
  by_cases hi : i.toNat ≤ radixTreeMaxindex t.root.height
  · rcases Nat.eq_zero_or_pos t.root.height with hzero | hpos
    · exact radixTreeDelete_direct ht hzero hi
    · cases hitem : (t.root.contents i).1 with
      | some x => exact radixTreeDelete_present ht hpos hitem
      | none =>
        refine ⟨t, ?_, ht, (update_eq_self_iff.mpr ?_).symm⟩
        · rw [radixTreeDelete, if_neg (not_lt.mpr hi), if_neg hpos.ne',
            ht.root.descend_absent hi hitem]
          rfl
        · exact (ht.root.contents_absent hitem).symm
  · have habsent : t.root.contents i = (none, untagged) := by
      rw [Root.contents, contentsOf, if_neg hi]
    refine ⟨t, ?_, ht, (update_eq_self_iff.mpr habsent.symm).symm⟩
    rw [radixTreeDelete, if_pos (not_le.mp hi), habsent]

end R0Kernel.RadixTree
