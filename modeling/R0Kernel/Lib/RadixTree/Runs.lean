import R0Kernel.Lib.RadixTree.Insert
import R0Kernel.Lib.RadixTree.Delete

/-! # Runs

Whatever operations are applied to an empty radix tree, with whatever allocations
failing, the tree holds the map and the tag sets that the operations describe.
-/

namespace R0Kernel.RadixTree

open SlotTree Function List Bool

inductive Op where
  | insert (index : Index) (item : Item) (grants : List Grant)
  | delete (index : Index)
  | tagSet (index : Index) (tag : Tag)
  | tagClear (index : Index) (tag : Tag)

inductive Result where
  | error (code : Int)
  | item (item : Option Item)

def exec (op : Op) (t : Tree) : Option (Result × Tree) :=
  match op with
  | .insert i x grants => (radixTreeInsert i x grants t).map fun (e, t) => (.error e, t)
  | .delete i => (radixTreeDelete i t).map fun (x, t) => (.item x, t)
  | .tagSet i tag => (radixTreeTagSet i tag t).map fun (x, t) => (.item x, t)
  | .tagClear i tag =>
    (radixTreeTagClear i tag t.root).map fun (x, root) => (.item x, { t with root })

/-! ## The abstract state -/

/-- A map from indices to items and a set of indices for each tag. -/
structure Abstract where
  items : Index → Option Item
  tagged : Tag → Set Index

namespace Abstract

def empty : Abstract := ⟨fun _ => none, fun _ => ∅⟩

/-- Items are pointers to objects, and tags are only set on items that are present. -/
def Allows (a : Abstract) : Op → Prop
  | .insert _ x _ => x ≠ 0 ∧ isIndirectPtr x = false
  | .delete _ => True
  | .tagSet i _ => a.items i ≠ none
  | .tagClear _ _ => True

/-- The effect of an operation that returned a result. -/
def next (a : Abstract) : Op → Result → Abstract
  | .insert i x _, .error code =>
    if code = 0 then { a with items := Function.update a.items i (some x) } else a
  | .insert _ _ _, .item _ => a
  | .delete i, _ => ⟨Function.update a.items i none, fun tag => a.tagged tag \ {i}⟩
  | .tagSet i tag, _ =>
    { a with tagged := Function.update a.tagged tag (Set.insert i (a.tagged tag)) }
  | .tagClear i tag, _ => { a with tagged := Function.update a.tagged tag (a.tagged tag \ {i}) }

end Abstract

def radixTreeInit (mask : UInt32) : Tree := ⟨⟨0, mask, ⟨.null, false⟩⟩, []⟩

/-- The trees that allowed operations lead to, with what they should hold. -/
inductive Reaches (mask : UInt32) : Tree → Abstract → Prop
  | init : Reaches mask (radixTreeInit mask) .empty
  | step {t t' : Tree} {a : Abstract} {result : Result} (op : Op) (reached : Reaches mask t a)
      (allowed : a.Allows op) (run : exec op t = some (result, t')) :
      Reaches mask t' (a.next op result)

/-- The tree is well-formed and holds the abstract state. -/
structure Refines (t : Tree) (a : Abstract) : Prop where
  ok : t.Ok
  items : ∀ i, (t.root.contents i).1 = a.items i
  tagged : ∀ i tag, (t.root.contents i).2 tag = true ↔ i ∈ a.tagged tag

variable {mask : UInt32} {t t' : Tree} {a : Abstract} {op : Op} {result : Result}

lemma refines_init (hmask : mask &&& gfpBitsMask = mask) :
    Refines (radixTreeInit mask) .empty := by
  have hmarks : (radixTreeInit mask).root.marks = untagged := by
    have hcleared : (radixTreeInit mask).root.rootTagClearAll = (radixTreeInit mask).root := by
      rw [Root.rootTagClearAll, radixTreeInit]
      simp only [hmask]
    rw [← hcleared, marks_rootTagClearAll]
  have hcontents : ∀ i, (radixTreeInit mask).root.contents i = (none, untagged) := by
    intro i
    rw [Root.contents, hmarks]
    exact contentsOf_null 0 i
  refine ⟨⟨⟨Nat.zero_le 6, ⟨trivial, hmarks⟩, rfl, ?_⟩, by simp [radixTreeInit]⟩, fun i => ?_,
    fun i tag => ?_⟩
  · rintro ds _ hitem
    cases ds <;> exact absurd rfl hitem
  · rw [hcontents]
    rfl
  · rw [hcontents]
    simp [untagged, Abstract.empty]

variable {i : Index} {root : Root} {path : List PathEntry} {s : Offset → Slot} {h : Nat} {b : Marks}
  {slot : Slot} {tag : Tag}

lemma Refines.untagged_absent (h : Refines t a) (hnone : a.items i = none) (tag : Tag) :
    i ∉ a.tagged tag := by
  rw [← h.tagged, h.ok.root.contents_absent ((h.items i).trans hnone)]
  simp [untagged]

lemma Refines.insert (h : Refines t a) {x : Item} (hx : isIndirectPtr x = false) (i : Index)
    (grants : List Grant) : ∃ error t', radixTreeInsert i x grants t = some (error, t') ∧
      Refines t' (a.next (.insert i x grants) (.error error)) ∧
      (error = -eexist ∧ a.items i ≠ none ∨ error = -enomem ∧ a.items i = none ∨
        error = 0 ∧ a.items i = none) := by
  obtain ⟨error, t', hrun, hok, hother, hout⟩ := radixTreeInsert_spec h.ok hx i grants
  refine ⟨error, t', hrun, ?_⟩
  have hold := h.items i
  have hsame (hnew : t'.root.contents i = t.root.contents i) : Refines t' a := by
    have hall : ∀ j, t'.root.contents j = t.root.contents j := by
      intro j
      by_cases hj : j = i
      · rw [hj, hnew]
      · exact hother j hj
    exact ⟨hok, fun j => by rw [hall, h.items], fun j tag => by rw [hall, h.tagged]⟩
  cases hout with
  | present hitem hnew => exact ⟨hsame hnew, .inl ⟨rfl, hold ▸ hitem⟩⟩
  | nomem hitem hnew => exact ⟨hsame hnew, .inr (.inl ⟨rfl, hold ▸ hitem⟩)⟩
  | ok hitem hnew =>
    rw [hold] at hitem
    refine ⟨⟨hok, fun j => ?_, fun j tag => ?_⟩, .inr (.inr ⟨rfl, hitem⟩)⟩
    · change _ = Function.update a.items i (some x) j
      by_cases hj : j = i
      · rw [hj, hnew, update_self]
      · rw [hother j hj, h.items, update_of_ne hj]
    · change _ ↔ j ∈ a.tagged tag
      by_cases hj : j = i
      · rw [hj, hnew]
        exact iff_of_false (by simp [untagged]) (h.untagged_absent hitem tag)
      · rw [hother j hj, h.tagged]

/-- An update of the contents at one index against an update of the abstract state. -/
lemma Refines.update (h : Refines t a) {a' : Abstract} (hok : t'.Ok) {v : Option Item × Marks}
    (hnew : t'.root.contents = Function.update t.root.contents i v)
    (hitems : a'.items = Function.update a.items i v.1)
    (htagged : ∀ j tag, j ∈ a'.tagged tag ↔ if j = i then v.2 tag = true else j ∈ a.tagged tag) :
    Refines t' a' := by
  refine ⟨hok, fun j => ?_, fun j tag => ?_⟩
  · rw [hnew, hitems]
    by_cases hj : j = i
    · rw [hj, update_self, update_self]
    · rw [update_of_ne hj, update_of_ne hj, h.items]
  · rw [hnew, htagged]
    by_cases hj : j = i
    · rw [hj, update_self, if_pos rfl]
    · rw [update_of_ne hj, if_neg hj, h.tagged]

lemma Refines.delete (h : Refines t a) (i : Index) : ∃ t',
    radixTreeDelete i t = some (a.items i, t') ∧
      ∀ result, Refines t' (a.next (.delete i) result) := by
  obtain ⟨t', hrun, hok, hnew⟩ := radixTreeDelete_spec h.ok i
  rw [h.items] at hrun
  refine ⟨t', hrun, fun result => h.update hok hnew rfl fun j tag => ?_⟩
  change j ∈ a.tagged tag \ {i} ↔ _
  by_cases hj : j = i <;> simp [hj, untagged]

lemma Refines.tagSet (h : Refines t a) (hi : a.items i ≠ none) (tag : Tag) : ∃ t',
    radixTreeTagSet i tag t = some (a.items i, t') ∧
      ∀ result, Refines t' (a.next (.tagSet i tag) result) := by
  obtain ⟨x, hx⟩ := Option.ne_none_iff_exists'.mp hi
  obtain ⟨t', hrun, hok, hnew⟩ := radixTreeTagSet_spec h.ok ((h.items i).trans hx) tag
  refine ⟨t', by rw [hrun, hx], fun result => h.update hok hnew ?_ fun j other => ?_⟩
  · exact (update_eq_self_iff.mpr hx.symm).symm
  · change j ∈ Function.update a.tagged tag (Set.insert i (a.tagged tag)) other ↔ _
    by_cases hother : other = tag
    · subst hother
      rw [update_self]
      change (j = i ∨ j ∈ a.tagged other) ↔ _
      by_cases hj : j = i <;> simp [hj]
    · by_cases hj : j = i <;> simp [hj, hother, h.tagged]

lemma Refines.tagClear (h : Refines t a) (i : Index) (tag : Tag) : ∃ root',
    radixTreeTagClear i tag t.root = some (a.items i, root') ∧
      ∀ result, Refines { t with root := root' } (a.next (.tagClear i tag) result) := by
  obtain ⟨root', hrun, hok, _, hnew⟩ := radixTreeTagClear_spec h.ok.root i tag
  rw [h.items] at hrun hnew
  refine ⟨root', hrun, fun result => h.update ⟨hok, h.ok.freed⟩ hnew ?_ fun j other => ?_⟩
  · exact (update_eq_self_iff.mpr rfl).symm
  · change j ∈ Function.update a.tagged tag (a.tagged tag \ {i}) other ↔ _
    by_cases hother : other = tag
    · subst hother
      by_cases hj : j = i <;> simp [hj]
    · by_cases hj : j = i <;> simp [hj, hother, h.tagged]

/-- An allowed operation has a result and keeps the refinement. -/
lemma Refines.exec (h : Refines t a) (hop : a.Allows op) :
    ∃ result t', exec op t = some (result, t') ∧ Refines t' (a.next op result) := by
  cases op with
  | insert i x grants =>
    obtain ⟨error, t', hrun, href, _⟩ := h.insert hop.2 i grants
    exact ⟨.error error, t', by simp [RadixTree.exec, hrun], href⟩
  | delete i =>
    obtain ⟨t', hrun, href⟩ := h.delete i
    exact ⟨.item (a.items i), t', by simp [RadixTree.exec, hrun], href _⟩
  | tagSet i tag =>
    obtain ⟨t', hrun, href⟩ := h.tagSet hop tag
    exact ⟨.item (a.items i), t', by simp [RadixTree.exec, hrun], href _⟩
  | tagClear i tag =>
    obtain ⟨root', hrun, href⟩ := h.tagClear i tag
    exact ⟨.item (a.items i), _, by simp [RadixTree.exec, hrun], href _⟩

lemma Reaches.refines (hmask : mask &&& gfpBitsMask = mask) (h : Reaches mask t a) :
    Refines t a := by
  induction h with
  | init => exact refines_init hmask
  | step op _ hop hrun ih =>
    obtain ⟨result, t', hexec, href⟩ := ih.exec hop
    rw [hrun] at hexec
    obtain ⟨rfl, rfl⟩ := hexec
    exact href

/-! ## The map -/

/-- The tree has the node at the end of the path. -/
def Root.HasNode (root : Root) (path : List PathEntry) (r : NodeInfo) (s : Offset → Slot) : Prop :=
  root.rnode.ptr = plug path (.node r s)

lemma Root.Ok.nodeOk (hroot : root.Ok) {r : NodeInfo} (hnode : root.HasNode path r s) :
    ∃ h, h + 1 + path.length = root.height ∧ NodeOk h r (fun d => (s d).head) ∧
      ∀ d, Inv NodeOk h (s d) := by
  have hheld := hroot.held
  rw [hnode] at hheld
  obtain ⟨h, hh⟩ := hheld.inv.depth
  obtain ⟨⟨hok, hslots⟩, _⟩ := (held_plug hh).mp hheld
  exact ⟨h, hh, hok, hslots⟩

/-- A radix tree that allowed operations lead to holds the map they describe: it is
what lookups see, and no operation fails but for the errors it returns. -/
theorem radix_tree_refines_map (mask : UInt32) (hmask : mask &&& gfpBitsMask = mask) (t : Tree)
    (a : Abstract) (h : Reaches mask t a) :
    (∀ i, radixTreeLookup t.root i = some (a.items i)) ∧
    (∀ path r s, t.root.HasNode path r s →
      r.count = (Finset.univ.filter fun d => (s d).isNull = false).card) ∧
    (∀ i x grants, x ≠ 0 → isIndirectPtr x = false →
      ∃ error t', radixTreeInsert i x grants t = some (error, t') ∧
        (error = -eexist ∧ a.items i ≠ none ∧
            (∀ j, radixTreeLookup t'.root j = some (a.items j)) ∨
          error = -enomem ∧ a.items i = none ∧
            (∀ j, radixTreeLookup t'.root j = some (a.items j)) ∨
          error = 0 ∧ a.items i = none ∧
            ∀ j, radixTreeLookup t'.root j = some (Function.update a.items i (some x) j))) ∧
    (∀ i, ∃ t', radixTreeDelete i t = some (a.items i, t') ∧
      ∀ j, radixTreeLookup t'.root j = some (Function.update a.items i none j)) ∧
    (∀ i tag, a.items i ≠ none → ∃ t', radixTreeTagSet i tag t = some (a.items i, t') ∧
      ∀ j, radixTreeLookup t'.root j = some (a.items j)) ∧
    ∀ i tag, ∃ root', radixTreeTagClear i tag t.root = some (a.items i, root') ∧
      ∀ j, radixTreeLookup root' j = some (a.items j) := by
  have hlookup : ∀ {t : Tree} {a : Abstract}, Refines t a →
      ∀ i, radixTreeLookup t.root i = some (a.items i) := by
    intro t a href i
    rw [lookup_spec href.ok.root, href.items]
  have href := h.refines hmask
  refine ⟨hlookup href, fun path r s hnode => ?_, fun i x grants _ hx => ?_, fun i => ?_,
    fun i tag hi => ?_, fun i tag => ?_⟩
  · obtain ⟨_, _, hok, _⟩ := href.ok.root.nodeOk hnode
    exact hok.count
  · obtain ⟨error, t', hrun, href', hout⟩ := href.insert hx i grants
    have hlook := hlookup href'
    refine ⟨error, t', hrun, ?_⟩
    rcases hout with ⟨rfl, hi⟩ | ⟨rfl, hi⟩ | ⟨rfl, hi⟩
    · exact .inl ⟨rfl, hi, hlook⟩
    · exact .inr (.inl ⟨rfl, hi, hlook⟩)
    · exact .inr (.inr ⟨rfl, hi, hlook⟩)
  · obtain ⟨t', hrun, href'⟩ := href.delete i
    have hlook := hlookup (href' (.item none))
    exact ⟨t', hrun, hlook⟩
  · obtain ⟨t', hrun, href'⟩ := href.tagSet hi tag
    have hlook := hlookup (href' (.item none))
    exact ⟨t', hrun, hlook⟩
  · obtain ⟨root', hrun, href'⟩ := href.tagClear i tag
    have hlook := hlookup (href' (.item none))
    exact ⟨root', hrun, hlook⟩

/-- The run leaves a node behind that the failed insertion added. -/
theorem radix_tree_refines_map_nomem : ∃ t a, Reaches 0 t a ∧ t.root.height = 3 ∧
    radixTreeLookup t.root 0 = some (some 8) ∧ radixTreeLookup t.root 4160 = some none := by
  have hinit : Reaches 0 (radixTreeInit 0) .empty := .init
  have hfirst := hinit.step (.insert 0 8 []) ⟨by decide, by decide⟩ rfl
  have hreach := hfirst.step (.insert 4160 16 [.fresh, .fresh, .fresh, .fresh, .fail])
    ⟨by decide, by decide⟩ rfl
  have hmap := (radix_tree_refines_map 0 (by decide) _ _ hreach).1
  exact ⟨_, _, hreach, rfl, hmap 0, hmap 4160⟩

/-! ## The tags -/

lemma Held.untagged_below (hheld : Held h b slot) (hoff : b tag = false) (ds : List Offset) :
    (read slotMarks untagged b slot ds).2 tag = false := by
  induction h generalizing b slot ds with
  | zero =>
    rcases hheld.inv.cases_zero with rfl | ⟨x, rfl⟩ <;> cases ds <;> first | exact hoff | rfl
  | succ h ih =>
    rcases hheld.inv.cases_succ with rfl | ⟨r, s, rfl⟩
    · cases ds <;> first | exact hoff | rfl
    · cases ds with
      | nil => rfl
      | cons d ds =>
        obtain ⟨hok, hslots⟩ := hheld.inv
        have hmarks : b = r.anyTagSet := hheld.marks
        refine ih ⟨hslots d, hok.marks d⟩ ?_ ds
        by_contra hset
        rw [hmarks, ← not_eq_true, anyTagSet_iff] at hoff
        exact hoff ⟨d, by simpa using hset⟩

lemma Root.Ok.contents_untagged (hroot : root.Ok) (hoff : root.marks tag = false) (i : Index) :
    (root.contents i).2 tag = false := by
  unfold Root.contents contentsOf
  split
  · exact hroot.held.untagged_below hoff _
  · rfl

lemma Held.tagged_below (hheld : Held h b slot) (hset : b tag = true) :
    ∃ ds, ds.length = h ∧ (read slotMarks untagged b slot ds).2 tag = true ∧
      (read slotMarks untagged b slot ds).1 ≠ none := by
  have hnull : slot ≠ .null := by
    rintro rfl
    rw [show b = untagged from hheld.marks] at hset
    cases hset
  induction h generalizing b slot with
  | zero =>
    obtain ⟨x, rfl⟩ := hheld.inv.cases_zero.resolve_left hnull
    exact ⟨[], rfl, hset, by simp⟩
  | succ h ih =>
    obtain ⟨r, s, rfl⟩ := hheld.inv.cases_succ.resolve_left hnull
    obtain ⟨hok, hslots⟩ := hheld.inv
    rw [show b = r.anyTagSet from hheld.marks, anyTagSet_iff] at hset
    obtain ⟨d, hd⟩ := hset
    have hchild : Held h (slotMarks r d) (s d) := ⟨hslots d, hok.marks d⟩
    have hne : s d ≠ .null := by
      intro heq
      have hmarks := hchild.marks
      rw [heq] at hmarks
      rw [show slotMarks r d = untagged from hmarks] at hd
      cases hd
    obtain ⟨ds, hlen, hread⟩ := ih hchild hd hne
    exact ⟨d :: ds, by rw [length_cons, hlen], hread⟩

lemma tagGetLoop_spec (hheld : Held (h + 1) b slot) (i : Index) {saw : Bool}
    (hsaw : saw = true → b tag = false) :
    tagGetLoop i tag (h + 1) saw slot =
      some ((read slotMarks untagged b slot (digits (h + 1) i)).2 tag) := by
  induction h generalizing b slot saw with
  | zero =>
    rcases hheld.inv.cases_succ with rfl | ⟨r, s, rfl⟩
    · rfl
    · have hread : (read slotMarks untagged b (.node r s) (digits 1 i)).2 =
          slotMarks r (slotOffset i 0) := by
        rcases (hheld.inv.2 (slotOffset i 0)).cases_zero with hs | ⟨x, hs⟩
        · rw [digits, read_node_cons, hs]
          rfl
        · rw [digits, read_node_cons, hs]
          rfl
      have hnot : (r.tagGet tag (slotOffset i 0) && (saw || !r.tagGet tag (slotOffset i 0))) =
          false := by
        cases saw with
        | false => simp
        | true =>
          have hoff := hheld.untagged_below (hsaw rfl) (digits 1 i)
          rw [hread] at hoff
          simpa [NodeInfo.tagGet, slotMarks] using hoff
      rw [tagGetLoop, hread]
      simp only [hnot, false_eq_true, if_false, if_true]
      rfl
  | succ h ih =>
    rcases hheld.inv.cases_succ with rfl | ⟨r, s, rfl⟩
    · rfl
    · obtain ⟨hok, hslots⟩ := hheld.inv
      rw [digits, read_node_cons]
      refine ih ⟨hslots _, hok.marks _⟩ fun hor => ?_
      rcases or_eq_true _ _ ▸ hor with hs | hs
      · by_contra hset
        have hoff := hsaw hs
        rw [show b = r.anyTagSet from hheld.marks, ← not_eq_true, anyTagSet_iff] at hoff
        exact hoff ⟨_, by simpa using hset⟩
      · simpa [NodeInfo.tagGet, slotMarks] using hs

lemma radixTreeTagGet_spec (hroot : root.Ok) (i : Index) (tag : Tag) :
    radixTreeTagGet i tag root = some ((root.contents i).2 tag) := by
  have hheld := hroot.held
  cases hset : root.rootTagGet tag with
  | false =>
    rw [radixTreeTagGet, hset, hroot.contents_untagged hset]
    rfl
  | true =>
    unfold radixTreeTagGet Root.contents
    rcases hroot.rnode_cases with hptr | ⟨x, hptr, hzero, hind⟩ | ⟨r, s, k, hptr, hheight, hr, hind⟩
    · rw [hptr] at hheld
      have hoff : root.rootTagGet tag = false := congrFun hheld.marks tag
      cases hset.symm.trans hoff
    · have hmark : root.marks tag = true := hset
      rw [hptr, hzero, contentsOf_zero, hind, hset]
      by_cases hi : i = 0
      · simp [hi, isNull, hmark]
      · simp [hi, isNull, untagged]
    · rw [hptr, hheight] at hheld
      have hsaw : false = true → root.marks tag = false := by simp
      simp only [hset, hptr, isNull, head_node, Head.isNull_node, hind, hr, hheight, Bool.not_true,
        false_eq_true, if_false, ← not_le, contentsOf]
      by_cases hi : i.toNat ≤ radixTreeMaxindex (k + 1)
      · rw [if_neg (not_not_intro hi), if_pos hi, tagGetLoop_spec hheld i hsaw]
      · rw [if_pos hi, if_neg hi]
        rfl

/-- A tag bit of a slot is set if and only if some item below the slot is tagged. -/
lemma Refines.tags_iff (h : Refines t a) {r : NodeInfo} (hnode : t.root.HasNode path r s)
    (tag : Tag) (d : Offset) :
    r.tags tag d = true ↔
      ∃ i ∈ a.tagged tag, route path ++ [d] <+: digits t.root.height i := by
  obtain ⟨k, hk, hok, hslots⟩ := h.ok.root.nodeOk hnode
  have hchild : Held k (slotMarks r d) (s d) := ⟨hslots d, hok.marks d⟩
  have hread : ∀ es, read slotMarks untagged t.root.marks t.root.rnode.ptr (route path ++ d :: es) =
      read slotMarks untagged (slotMarks r d) (s d) es := by
    intro es
    rw [hnode, read_plug, read_node_cons]
  constructor
  · intro hset
    obtain ⟨es, hlen, htag, hitem⟩ := hchild.tagged_below (show slotMarks r d tag = true from hset)
    rw [← hread] at htag hitem
    have hkey : (route path ++ d :: es).length = t.root.height := by
      rw [length_append, length_route, length_cons]
      omega
    obtain ⟨i, hi, hds⟩ := h.ok.root.keys _ hkey hitem
    refine ⟨i, ?_, es, ?_⟩
    · rw [← h.tagged, Root.contents, contentsOf, if_pos hi, ← hds]
      exact htag
    · rw [append_assoc]
      exact hds
  · rintro ⟨i, hi, es, hds⟩
    rw [← h.tagged, Root.contents, contentsOf] at hi
    split at hi
    next hle =>
      rw [← hds, append_assoc] at hi
      change (read slotMarks untagged t.root.marks t.root.rnode.ptr (route path ++ d :: es)).2 tag =
        true at hi
      rw [hread] at hi
      by_contra hoff
      have hoff' : slotMarks r d tag = false := by simpa [slotMarks] using hoff
      rw [hchild.untagged_below hoff'] at hi
      cases hi
    next => cases hi

/-- In a radix tree that allowed operations lead to, every tag bit of a node or of
the root says whether an item below it is tagged, and the tagged items are those
the operations describe. -/
theorem radix_tree_tags (mask : UInt32) (hmask : mask &&& gfpBitsMask = mask) (t : Tree)
    (a : Abstract) (h : Reaches mask t a) (tag : Tag) :
    (∀ path r s d, t.root.HasNode path r s → r.height = 1 → r.tags tag d = true →
      ∃ x, s d = .leaf x) ∧
    (∀ path r s d, t.root.HasNode path r s →
      (r.tags tag d = true ↔ ∃ i ∈ a.tagged tag, route path ++ [d] <+: digits t.root.height i)) ∧
    (t.root.rootTagGet tag = true ↔ ∃ i, i ∈ a.tagged tag) ∧
    (∀ i ∈ a.tagged tag, ∃ x, radixTreeLookup t.root i = some (some x)) ∧
    ∀ i, ∃ v, radixTreeTagGet i tag t.root = some v ∧ (v = true ↔ i ∈ a.tagged tag) := by
  have href := h.refines hmask
  refine ⟨fun path r s d hnode hone hset => ?_, fun path r s d hnode => href.tags_iff hnode tag d,
    ⟨fun hset => ?_, fun ⟨i, hi⟩ => ?_⟩, fun i hi => ?_, fun i => ?_⟩
  · obtain ⟨k, _, hok, hslots⟩ := href.ok.root.nodeOk hnode
    obtain rfl : k = 0 := by
      have := hok.height
      omega
    refine (hslots d).cases_zero.resolve_left fun hnull => ?_
    have hmarks := hok.marks d
    rw [hnull] at hmarks
    have hoff : r.tags tag d = false := congrFun hmarks tag
    cases hset.symm.trans hoff
  · obtain ⟨ds, hlen, htag, hitem⟩ := href.ok.root.held.tagged_below hset
    obtain ⟨i, hi, rfl⟩ := href.ok.root.keys ds hlen hitem
    refine ⟨i, (href.tagged i tag).mp ?_⟩
    rw [Root.contents, contentsOf, if_pos hi]
    exact htag
  · by_contra hoff
    have hoff : t.root.marks tag = false := by simpa [Root.marks] using hoff
    have hi := (href.tagged i tag).mpr hi
    rw [href.ok.root.contents_untagged hoff] at hi
    cases hi
  · have hitem : a.items i ≠ none := fun hnone => href.untagged_absent hnone tag hi
    obtain ⟨x, hx⟩ := Option.ne_none_iff_exists'.mp hitem
    exact ⟨x, by rw [lookup_spec href.ok.root, href.items, hx]⟩
  · exact ⟨_, radixTreeTagGet_spec href.ok.root i tag, href.tagged i tag⟩

theorem radix_tree_tags_grown : ∃ t a, Reaches 0 t a ∧ t.root.height = 2 ∧
    t.root.rootTagGet 1 = true ∧ 0 ∈ a.tagged 1 := by
  have hinit : Reaches 0 (radixTreeInit 0) .empty := .init
  have hfirst := hinit.step (.insert 0 8 []) ⟨by decide, by decide⟩ rfl
  have htagged := hfirst.step (.tagSet 0 1) (fun h => by cases h) rfl
  have hreach := htagged.step (.insert 64 16 []) ⟨by decide, by decide⟩ rfl
  have htags := radix_tree_tags 0 (by decide) _ _ hreach 1
  exact ⟨_, _, hreach, rfl, htags.2.2.1.mpr ⟨0, .inl rfl⟩, .inl rfl⟩

end R0Kernel.RadixTree
