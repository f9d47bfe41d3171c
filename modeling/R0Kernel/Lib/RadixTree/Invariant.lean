import R0Kernel.Lib.RadixTree.Model

/-! # What a radix tree holds

The contents of a tree give each index its item and tags. A well-formed tree has
nodes that count their slots and, for each slot, carry the tags that are set below
it; so does the root.
-/

namespace R0Kernel.RadixTree

open SlotTree

/-! ## Keys -/

/-- The offsets of an index from the top level of a tree of the given height. -/
def digits : Nat → Index → List Offset
  | 0, _ => []
  | h + 1, i => slotOffset i h :: digits h i

@[simp] lemma length_digits (h : Nat) (i : Index) : (digits h i).length = h := by
  induction h with
  | zero => rfl
  | succ h ih => simp [digits, ih]

section Keys

variable {h : Nat} {i j : Index}

lemma slotOffset_val (i : Index) (h : Nat) : (slotOffset i h).val = i.toNat / 64 ^ h % 64 := by
  have hpow : 2 ^ (h * 6) = 64 ^ h := by rw [mul_comm, Nat.pow_mul]
  simp [slotOffset, radixTreeMapShift, Fin.ofNat, Nat.shiftRight_eq_div_pow, hpow]

lemma digits_eq_iff : digits h i = digits h j ↔ i.toNat % 64 ^ h = j.toNat % 64 ^ h := by
  induction h with
  | zero => simp [digits, Nat.mod_one]
  | succ h ih =>
    have hi := Nat.mod_lt i.toNat (Nat.pow_pos (n := h) (show 0 < 64 by decide))
    have hj := Nat.mod_lt j.toNat (Nat.pow_pos (n := h) (show 0 < 64 by decide))
    rw [digits, digits, List.cons.injEq, ih, Fin.ext_iff, slotOffset_val, slotOffset_val,
      Nat.mod_pow_succ, Nat.mod_pow_succ]
    constructor
    · rintro ⟨htop, hrest⟩
      rw [htop, hrest]
    · intro heq
      have hrest : i.toNat % 64 ^ h = j.toNat % 64 ^ h := by
        have hmod := congrArg (· % 64 ^ h) heq
        simpa [Nat.mod_eq_of_lt hi, Nat.mod_eq_of_lt hj] using hmod
      refine ⟨?_, hrest⟩
      rw [hrest, Nat.add_left_cancel_iff] at heq
      exact Nat.eq_of_mul_eq_mul_left (Nat.pow_pos (by decide)) heq

lemma maxindex_eq (hh : h ≤ 6) : radixTreeMaxindex h = min (64 ^ h) (2 ^ 32) - 1 := by
  interval_cases h <;> decide

lemma toNat_le_maxindex (hh : h ≤ 6) : i.toNat ≤ radixTreeMaxindex h ↔ i.toNat < 64 ^ h := by
  have hi := i.toNat_lt
  have hpos : 0 < 64 ^ h := Nat.pow_pos (by decide)
  rw [maxindex_eq hh]
  omega

lemma digits_inj (hh : h ≤ 6) (hi : i.toNat ≤ radixTreeMaxindex h)
    (hj : j.toNat ≤ radixTreeMaxindex h) (heq : digits h i = digits h j) : i = j := by
  rw [toNat_le_maxindex hh] at hi hj
  rw [digits_eq_iff, Nat.mod_eq_of_lt hi, Nat.mod_eq_of_lt hj] at heq
  exact UInt32.toNat_inj.mp heq

/-- An index fits the lower levels if its top offset is zero. -/
lemma slotOffset_eq_zero (hh : h + 1 ≤ 6) (hi : i.toNat ≤ radixTreeMaxindex (h + 1)) :
    slotOffset i h = 0 ↔ i.toNat ≤ radixTreeMaxindex h := by
  have hpos : 0 < 64 ^ h := Nat.pow_pos (by decide)
  rw [toNat_le_maxindex hh, Nat.pow_succ, mul_comm] at hi
  rw [toNat_le_maxindex (Nat.le_of_succ_le hh), Fin.ext_iff, slotOffset_val,
    Nat.mod_eq_of_lt ((Nat.div_lt_iff_lt_mul hpos).mpr hi)]
  exact Nat.div_eq_zero_iff_lt hpos

lemma maxindex_mono (hh : h + 1 ≤ 6) : radixTreeMaxindex h ≤ radixTreeMaxindex (h + 1) := by
  rw [maxindex_eq hh, maxindex_eq (Nat.le_of_succ_le hh)]
  omega

end Keys

/-! ## Well-formed trees -/

abbrev Marks := Tag → Bool

def untagged : Marks := fun _ => false

def slotMarks (r : NodeInfo) (d : Offset) : Marks := fun tag => r.tags tag d

/-- A slot's tags fit what is in the slot: an empty one has none, and one with a
node has those that are set in the node. -/
def MarksOk (b : Marks) : Head NodeInfo Item → Prop
  | .null => b = untagged
  | .leaf _ => True
  | .node r => b = r.anyTagSet

structure NodeOk (h : Nat) (r : NodeInfo) (heads : Offset → Head NodeInfo Item) : Prop where
  height : r.height = h + 1
  count : r.count = occupied heads
  marks : ∀ d, MarksOk (slotMarks r d) (heads d)

/-- A node as the allocator may return it, but for its height. -/
structure Node.Blank (n : Node) : Prop where
  count : n.info.count = 0
  slots : ∀ d, n.slots d = .null
  marks : ∀ d, slotMarks n.info d = untagged

def Root.marks (root : Root) : Marks := root.rootTagGet

/-- What the indices read in a tree whose root slot has the given tags. -/
def contentsOf (h : Nat) (b : Marks) (slot : Slot) (i : Index) : Option Item × Marks :=
  if i.toNat ≤ radixTreeMaxindex h then read slotMarks untagged b slot (digits h i)
    else (none, untagged)

/-- The item and the tags of each index. -/
def Root.contents (root : Root) : Index → Option Item × Marks :=
  contentsOf root.height root.marks root.rnode.ptr

/-- A tree of the given height in a slot with the given tags. -/
structure Held (h : Nat) (b : Marks) (slot : Slot) : Prop where
  inv : Inv NodeOk h slot
  marks : MarksOk b slot.head

/-- Items are stored under indices only. -/
def KeysOk (h : Nat) (b : Marks) (slot : Slot) : Prop :=
  ∀ ds, ds.length = h → (read slotMarks untagged b slot ds).1 ≠ none →
    ∃ i : Index, i.toNat ≤ radixTreeMaxindex h ∧ ds = digits h i

structure Root.Ok (root : Root) : Prop where
  height_le : root.height ≤ 6
  held : Held root.height root.marks root.rnode.ptr
  indirect : root.rnode.indirect = (root.rnode.ptr.head matches .node _)
  keys : KeysOk root.height root.marks root.rnode.ptr

structure Tree.Ok (t : Tree) : Prop where
  root : t.root.Ok
  freed : ∀ n ∈ t.freed, n.Blank

/-! ## Looking up -/

lemma lookupLoop_spec {h : Nat} {b : Marks} {slot : Slot} (hinv : Inv NodeOk h slot)
    (i : Index) : lookupLoop i h slot = some (read slotMarks untagged b slot (digits h i)).1 := by
  induction h generalizing b slot with
  | zero =>
    rcases hinv.cases_zero with rfl | ⟨x, rfl⟩
    · rfl
    · rfl
  | succ h ih =>
    rcases hinv.cases_succ with rfl | ⟨r, s, rfl⟩
    · rfl
    · rw [lookupLoop, digits, read_node_cons]
      exact ih (hinv.2 _)

lemma Root.Ok.rnode_cases {root : Root} (h : root.Ok) :
    root.rnode.ptr = .null ∨
      (∃ x, root.rnode.ptr = .leaf x ∧ root.height = 0 ∧ root.rnode.indirect = false) ∨
      ∃ r s k, root.rnode.ptr = .node r s ∧ root.height = k + 1 ∧ r.height = root.height ∧
        root.rnode.indirect = true := by
  have hinv := h.held.inv
  have hindirect := h.indirect
  cases hheight : root.height with
  | zero =>
    rw [hheight] at hinv
    rcases hinv.cases_zero with hptr | ⟨x, hptr⟩
    · exact .inl hptr
    · rw [hptr] at hindirect
      exact .inr (.inl ⟨x, hptr, rfl, hindirect⟩)
  | succ k =>
    rw [hheight] at hinv
    rcases hinv.cases_succ with hptr | ⟨r, s, hptr⟩
    · exact .inl hptr
    · rw [hptr] at hinv hindirect
      exact .inr (.inr ⟨r, s, k, hptr, rfl, hinv.1.height, hindirect⟩)

/-- Only index zero is in reach of a direct pointer. -/
lemma contentsOf_zero (b : Marks) (x : Item) (i : Index) :
    contentsOf 0 b (.leaf x) i = if i = 0 then (some x, b) else (none, untagged) := by
  have hmax : radixTreeMaxindex 0 = 0 := by decide
  rw [contentsOf, hmax, digits, read_leaf_nil]
  refine if_congr ⟨fun hi => ?_, fun hi => ?_⟩ rfl rfl
  · exact UInt32.toNat_inj.mp (Nat.le_zero.mp hi)
  · rw [hi]
    exact le_refl 0

lemma lookup_spec {root : Root} (h : root.Ok) (i : Index) :
    radixTreeLookup root i = some (root.contents i).1 := by
  unfold radixTreeLookup Root.contents
  rcases h.rnode_cases with hptr | ⟨x, hptr, hzero, hind⟩ | ⟨r, s, k, hptr, hheight, hr, hind⟩
  · have hnone : ∀ ds, (read slotMarks untagged root.marks (.null : Slot) ds).1 = none := by
      intro ds
      cases ds <;> rfl
    rw [hptr, contentsOf]
    split
    next => split <;> simp [hnone]
    next hnot => exact absurd rfl hnot
  · rw [hptr, hzero, contentsOf_zero, hind]
    by_cases hi : i = 0
    · simp [hi, isNull, slotItem]
    · simp [hi, isNull, UInt32.pos_iff_ne_zero.mpr hi]
  · have hinv := h.held.inv
    rw [hptr] at hinv ⊢
    simp only [isNull, head_node, Head.isNull_node, hind, hr, Bool.not_true, Bool.false_eq_true,
      if_false, ← not_le, contentsOf]
    by_cases hi : i.toNat ≤ radixTreeMaxindex root.height
    · rw [if_neg (not_not_intro hi), if_pos hi, lookupLoop_spec hinv]
    · rw [if_pos hi, if_neg hi]

end R0Kernel.RadixTree
