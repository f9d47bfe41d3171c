import R0Kernel.Lib.PrioTree.Expand

/-!
# Runs of insertions and removals

The representation invariant of the priority search tree over every sequence of insertions and
removals, from an initialised root.
-/

namespace R0Kernel.PrioTree

open BinaryTree SelfLinked PrioritySearch Multiset

variable {s s' : State} {S : Finset Id} {I : Finset (Nat × Nat)} {t : BinaryTree Id} {x y : Id}
  {fuel : Nat}

/-- A number of passes that is enough for every loop on a tree of `n` nodes. -/
def enough (n : Nat) : Nat := n + 2 * bitsPerLong + 2

/-! ### The operations on a tree -/

lemma treeInv_nil (hroot : s.prioTreeNode = none) (hbits : s.indexBits = 1) : TreeInv s nil := by
  refine ⟨⟨trivial, hroot, nodup_zero⟩, ?_, ?_, ?_, trivial⟩
  · rw [hbits]
    exact Nat.one_pos
  · rw [hbits]
    decide
  · intro x hx
    cases hx

/-- The indices of a node of the tree fit its index bits. -/
lemma TreeInv.not_maxindex_lt (h : TreeInv s t) (hx : x ∈ ids t) :
    ¬ prioTreeMaxindex s.indexBits < (s.getIndex x).2 := by
  have hlt := (h.valid x hx).lt
  rw [heap_keyOf] at hlt
  rw [maxindex_eq h.pos h.le]
  omega

/-- `prio_tree_insert` of a node whose interval is not in the tree. -/
lemma prioTreeInsert_spec (h : TreeInv s t) (hx : x ∉ ids t)
    (hle : (s.getIndex x).1 ≤ (s.getIndex x).2) (hne : ∀ y ∈ ids t, s.getIndex y ≠ s.getIndex x)
    (hfuel : enough (ids t).card ≤ fuel) :
    ∃ s' t', prioTreeInsert fuel s x = some (s', x) ∧ TreeInv s' t' ∧ ids t' = x ::ₘ ids t ∧
      ∀ y, s'.getIndex y = s.getIndex y := by
  rw [enough] at hfuel
  cases t with
  | nil =>
    obtain ⟨s', t', hcall, hrest⟩ := prioTreeExpand_spec h hx hle (fun h => absurd rfl h) hfuel
    have htop : s.prioTreeNode = none := h.holds.root
    refine ⟨s', t', ?_, hrest⟩
    rw [prioTreeInsert, htop]
    exact hcall
  | node a l r =>
    have htop : s.prioTreeNode = some a := h.holds.root
    rw [prioTreeInsert, htop]
    dsimp only
    by_cases hfit : prioTreeMaxindex s.indexBits < (s.getIndex x).2
    · rw [if_pos hfit]
      exact prioTreeExpand_spec h hx hle (fun _ => hfit) hfuel
    · rw [if_neg hfit]
      have hvalid : (keyOf (s.getIndex x)).Valid s.indexBits := by
        have hpow : 0 < 2 ^ s.indexBits := Nat.two_pow_pos _
        rw [maxindex_eq h.pos h.le] at hfit
        refine ⟨hle, ?_⟩
        rw [heap_keyOf]
        omega
      have hmask : 2 ^ (s.indexBits - 1) = maskAt s.indexBits 0 := (maskAt_of_lt h.pos).symm
      have hflag : false = decide (s.indexBits ≤ 0) :=
        (decide_eq_false (not_le.mpr h.pos)).symm
      have hcard : (ids (node a l r)).card ≤ fuel := by omega
      obtain ⟨s', hcall, hholds, hkept⟩ := insertLoop_spec (C := []) (fun _ => rfl) h.le h.holds hx
        (fun y hy => (mem_cons.mp hy).elim (fun heq => heq ▸ hvalid) (h.valid y)) h.pst
        (fun _ _ i hi => absurd hi (Nat.not_lt_zero i))
        (fun y hy heq => hne y hy (keyOf_inj.mp heq)) hcard
      rw [plug] at hholds
      rw [hmask, hflag]
      refine ⟨s', _, hcall, ⟨hholds, ?_, ?_, ?_, ?_⟩, ids_ins .., hkept.getIndex⟩
      · rw [hkept.indexBits]
        exact h.pos
      · rw [hkept.indexBits]
        exact h.le
      · intro y hy
        rw [ids_ins, mem_cons] at hy
        rw [hkept.indexBits, hkept.getIndex]
        rcases hy with rfl | hy
        · exact hvalid
        · exact h.valid y hy
      · rw [hkept.indexBits, funext fun y => congrArg keyOf (hkept.getIndex y)]
        exact h.pst.ins fun y hy heq => hne y hy (keyOf_inj.mp heq)

/-- `prio_tree_insert` of a node whose interval is that of a node of the tree. -/
lemma prioTreeInsert_found (h : TreeInv s t) (hy : y ∈ ids t)
    (heq : s.getIndex y = s.getIndex x) (hfuel : enough (ids t).card ≤ fuel) :
    prioTreeInsert fuel s x = some (s, y) := by
  rw [enough] at hfuel
  cases t with
  | nil => cases hy
  | node a l r =>
    have htop : s.prioTreeNode = some a := h.holds.root
    have hfit := h.not_maxindex_lt hy
    rw [heq] at hfit
    rw [prioTreeInsert, htop]
    dsimp only
    rw [if_neg hfit]
    have hmask : 2 ^ (s.indexBits - 1) = maskAt s.indexBits 0 := (maskAt_of_lt h.pos).symm
    have hflag : false = decide (s.indexBits ≤ 0) :=
      (decide_eq_false (not_le.mpr h.pos)).symm
    exact insertLoop_found (C := []) (d := 0) (fun _ => rfl) h.le h.holds h.valid h.pst
      (fun _ _ i hi => absurd hi (Nat.not_lt_zero i)) hy (congrArg keyOf heq)
      (Nat.two_pow_pos _).ne' (fun _ => ⟨hmask, hflag⟩) (by omega)

lemma prioTreeRemove_inv (h : TreeInv s t) (hx : x ∈ ids t)
    (hfuel : enough (ids t).card ≤ fuel) :
    ∃ s' t', prioTreeRemove fuel s x = some s' ∧ TreeInv s' t' ∧ ids t = x ::ₘ ids t' ∧
      ∀ y, s'.getIndex y = s.getIndex y := by
  rw [enough] at hfuel
  obtain ⟨C, l, r, rfl⟩ := exists_plug hx
  have hcard : (ids (node x l r)).card ≤ fuel := by
    rw [ids_plug, card_add] at hfuel
    omega
  obtain ⟨s', hcall, hholds, hindex, hbits, -⟩ :=
    prioTreeRemove_spec (fun _ => rfl) h.holds hcard
  have hids : ids (plug C (node x l r)) =
      x ::ₘ ids (plug C (dropTop (Heavier fun y => keyOf (s.getIndex y)) (node x l r))) := by
    rw [ids_plug, ids_plug, ids_dropTop, ids, cons_add]
    rfl
  have hpst := pst_dropTop h.pst fun y hy =>
    h.valid y ((ids_plug C _).symm ▸ mem_add.mpr (.inl hy))
  refine ⟨s', _, hcall, ?_, hids, hindex⟩
  generalize plug C (dropTop (Heavier fun y => keyOf (s.getIndex y)) (node x l r)) = t'
    at hholds hids hpst ⊢
  -- an emptied tree is reset to one index bit, and has no node to check
  obtain rfl | hsame : t' = nil ∨ s'.indexBits = s.indexBits := by
    cases t' with
    | nil => exact .inl rfl
    | node b l' r' =>
      have htop : s'.prioTreeNode = some b := hholds.root
      rw [htop] at hbits
      exact .inr hbits
  · have hroot : s'.prioTreeNode = none := hholds.root
    rw [if_pos hroot] at hbits
    exact treeInv_nil hroot hbits
  · refine ⟨hholds, ?_, ?_, ?_, ?_⟩
    · rw [hsame]
      exact h.pos
    · rw [hsame]
      exact h.le
    · intro y hy
      rw [hsame, hindex]
      exact h.valid y (hids ▸ mem_cons_of_mem hy)
    · rw [hsame, funext fun y => congrArg keyOf (hindex y)]
      exact hpst

/-! ### Runs -/

/-- Memory is written outside the tree that holds the nodes `S`. -/
structure OffTree (S : Finset Id) (s s' : State) : Prop where
  root : s'.prioTreeNode = s.prioTreeNode
  indexBits : s'.indexBits = s.indexBits
  links : ∀ x ∈ S, ∀ f, s'.links f x = s.links f x
  getIndex : ∀ x ∈ S, s'.getIndex x = s.getIndex x

/-- The states that insertions and removals reach: `S` are the nodes their callers have in the
tree, and `I` is the abstract set of intervals. A node is inserted while it is out of the tree, and
removed while it is in it. -/
inductive Reaches : Finset Id → Finset (Nat × Nat) → State → Prop
  /-- `INIT_PRIO_TREE_ROOT` or `INIT_RAW_PRIO_TREE_ROOT`, whatever memory holds -/
  | init (s : State) : s.prioTreeNode = none → s.indexBits = 1 → Reaches ∅ ∅ s
  | write {S : Finset Id} {I : Finset (Nat × Nat)} {s s' : State} :
      Reaches S I s → OffTree S s s' → Reaches S I s'
  | insert {S : Finset Id} {I : Finset (Nat × Nat)} {s s' : State} {x y : Id} {fuel : Nat} :
      Reaches S I s → x ∉ S → (s.getIndex x).1 ≤ (s.getIndex x).2 → enough S.card ≤ fuel →
      prioTreeInsert fuel s x = some (s', y) →
      Reaches (if y = x then Insert.insert x S else S) (Insert.insert (s.getIndex x) I) s'
  | remove {S : Finset Id} {I : Finset (Nat × Nat)} {s s' : State} {x : Id} {fuel : Nat} :
      Reaches S I s → x ∈ S → enough S.card ≤ fuel →
      prioTreeRemove fuel s x = some s' → Reaches (S.erase x) (I.erase (s.getIndex x)) s'

lemma TreeInv.offTree (h : TreeInv s t) (hS : ids t = S.val) (hw : OffTree S s s') :
    TreeInv s' t := by
  have hmem : ∀ x ∈ ids t, x ∈ S := by
    intro x hx
    rw [hS] at hx
    exact hx
  refine ⟨⟨?_, ?_, h.holds.nodup⟩, ?_, ?_, ?_, ?_⟩
  · exact h.holds.rep.congr fun x hx f => hw.links x (hmem x hx) f
  · rw [hw.root]
    exact h.holds.root
  · rw [hw.indexBits]
    exact h.pos
  · rw [hw.indexBits]
    exact h.le
  · intro x hx
    rw [hw.indexBits, hw.getIndex x (hmem x hx)]
    exact h.valid x hx
  · rw [hw.indexBits]
    exact h.pst.congr fun x hx => congrArg keyOf (hw.getIndex x (hmem x hx))

/-- The tree of a run that has the nodes `S` in it for the intervals `I`. -/
structure Shows (s : State) (S : Finset Id) (I : Finset (Nat × Nat)) (t : BinaryTree Id) :
    Prop where
  inv : TreeInv s t
  ids : ids t = S.val
  intervals : S.val.map s.getIndex = I.val

namespace Shows

variable (h : Shows s S I t)

include h

lemma card_eq : (SelfLinked.ids t).card = S.card := by
  rw [h.ids]
  rfl

lemma mem_iff : x ∈ SelfLinked.ids t ↔ x ∈ S := by
  rw [h.ids]
  rfl

lemma mem_intervals {i : Nat × Nat} :
    i ∈ I ↔ ∃ z ∈ S, s.getIndex z = i := by
  rw [← Finset.mem_val, ← h.intervals, mem_map]
  rfl

/-- A second node for an interval of the set is not put in. -/
lemma insert_found (hfuel : enough S.card ≤ fuel) (hmem : s.getIndex x ∈ I) :
    ∃ y ∈ S, s.getIndex y = s.getIndex x ∧ prioTreeInsert fuel s x = some (s, y) := by
  obtain ⟨y, hy, heq⟩ := h.mem_intervals.mp hmem
  rw [← h.card_eq] at hfuel
  exact ⟨y, hy, heq, prioTreeInsert_found h.inv (h.mem_iff.mpr hy) heq hfuel⟩

lemma insert_new (hx : x ∉ S) (hle : (s.getIndex x).1 ≤ (s.getIndex x).2)
    (hfuel : enough S.card ≤ fuel) (hnew : s.getIndex x ∉ I) :
    ∃ s' t', prioTreeInsert fuel s x = some (s', x) ∧
      Shows s' (insert x S) (insert (s.getIndex x) I) t' := by
  rw [← h.card_eq] at hfuel
  obtain ⟨s', t', hcall, ht', hids, hindex⟩ := prioTreeInsert_spec h.inv (mt h.mem_iff.mp hx) hle
    (fun z hz heq => hnew (h.mem_intervals.mpr ⟨z, h.mem_iff.mp hz, heq⟩)) hfuel
  refine ⟨s', t', hcall, ht', ?_, ?_⟩
  · rw [hids, h.ids, Finset.insert_val_of_notMem hx]
  · rw [Finset.insert_val_of_notMem hx, Finset.insert_val_of_notMem hnew, map_cons,
      funext hindex, h.intervals]

lemma remove (hx : x ∈ S) (hfuel : enough S.card ≤ fuel) :
    ∃ s' t', prioTreeRemove fuel s x = some s' ∧
      Shows s' (S.erase x) (I.erase (s.getIndex x)) t' := by
  rw [← h.card_eq] at hfuel
  obtain ⟨s', t', hcall, ht', hids, hindex⟩ := prioTreeRemove_inv h.inv (h.mem_iff.mpr hx) hfuel
  have hS : S.val = x ::ₘ SelfLinked.ids t' := by
    rw [← h.ids, hids]
  refine ⟨s', t', hcall, ht', ?_, ?_⟩
  · rw [Finset.erase_val, hS, erase_cons_head]
  · rw [Finset.erase_val, Finset.erase_val, ← h.intervals, hS, map_cons,
      erase_cons_head, erase_cons_head, funext hindex]

end Shows

lemma Reaches.shows (h : Reaches S I s) : ∃ t, Shows s S I t := by
  induction h with
  | init s hroot hbits => exact ⟨nil, treeInv_nil hroot hbits, rfl, rfl⟩
  | @write S I s s' _ hw ih =>
    obtain ⟨t, ht⟩ := ih
    refine ⟨t, ht.inv.offTree ht.ids hw, ht.ids, ?_⟩
    rw [← ht.intervals]
    exact map_congr rfl fun x hx => hw.getIndex x hx
  | @insert S I s s' x y fuel _ hx hle hfuel hcall ih =>
    obtain ⟨t, ht⟩ := ih
    by_cases hmem : s.getIndex x ∈ I
    · obtain ⟨z, hz, heq, hfound⟩ := ht.insert_found hfuel hmem
      rw [hfound] at hcall
      cases hcall
      rw [if_neg (ne_of_mem_of_not_mem hz hx), Finset.insert_eq_self.mpr hmem]
      exact ⟨t, ht⟩
    · obtain ⟨s₁, t₁, hcall₁, ht₁⟩ := ht.insert_new hx hle hfuel hmem
      rw [hcall₁] at hcall
      cases hcall
      rw [if_pos rfl]
      exact ⟨t₁, ht₁⟩
  | remove _ hx hfuel hcall ih =>
    obtain ⟨t, ht⟩ := ih
    obtain ⟨s₁, t₁, hcall₁, ht₁⟩ := ht.remove hx hfuel
    rw [hcall₁] at hcall
    cases hcall
    exact ⟨t₁, ht₁⟩

/-! ### What the invariant says of the tree -/

/-- The interval `i` stands above `j`: it ends later, or at the same index and starts earlier. -/
def Above (i j : Nat × Nat) : Prop := j.2 < i.2 ∨ j.2 = i.2 ∧ i.1 < j.1

/-- The bit that decides the side at depth `d`: of the radix index from the top of `bits` bits
down, and then of the size. -/
def sideBit (bits d : Nat) (i : Nat × Nat) : Bool :=
  if d < bits then i.1.testBit (bits - 1 - d)
    else (i.2 - i.1).testBit (bitsPerLong - 1 - (d - bits))

/-- Wherever a node `a` stands in the tree, the nodes on a side of it are below it in the order of
the heap and have the bit of that side. -/
structure Ordered (s : State) (t : BinaryTree Id) : Prop where
  heap : ∀ C side a near far, t = plug C (branch side a near far) → ∀ x ∈ ids near,
    Above (s.getIndex a) (s.getIndex x)
  radix : ∀ C side a near far, t = plug C (branch side a near far) → ∀ x ∈ ids near,
    sideBit s.indexBits C.length (s.getIndex x) = decide (side = .right)

lemma bit_eq_decide (side : Side) : Side.bit side = decide (side = .right) := by
  cases side with
  | left => rfl
  | right => rfl

/-- The nodes on a side of a node are below it and have the bit of the side. -/
lemma TreeInv.below_side {C : List (Frame Id)} {side : Side} {a : Id} {near far : BinaryTree Id}
    (h : TreeInv s (plug C (branch side a near far))) (hx : x ∈ ids near) :
    keyOf (s.getIndex x) < keyOf (s.getIndex a) ∧
      bitAt s.indexBits C.length (keyOf (s.getIndex x)) = Side.bit side := by
  have hsub := h.pst.sub
  rw [zero_add, pst_branch] at hsub
  exact hsub.1 x hx

lemma TreeInv.ordered (h : TreeInv s t) : Ordered s t := by
  constructor
  · rintro C side a near far rfl x hx
    exact key_lt_iff.mp (h.below_side hx).1
  · rintro C side a near far rfl x hx
    exact (h.below_side hx).2.trans (bit_eq_decide side)

/-- The tree represents the abstract set of intervals after every sequence of insertions and
removals. Both operations always return; an insertion gives the node that has the interval already,
if there is one, and then changes nothing. -/
theorem prio_tree_representation (h : Reaches S I s) :
    (∃ t, Rep s.links none t ∧ s.prioTreeNode = top t ∧ Ordered s t ∧ ids t = S.val ∧
      (ids t).map s.getIndex = I.val) ∧
    (∀ x ∉ S, (s.getIndex x).1 ≤ (s.getIndex x).2 → ∀ fuel, enough S.card ≤ fuel →
      ∃ s' y, prioTreeInsert fuel s x = some (s', y) ∧
        if s.getIndex x ∈ I then y ∈ S ∧ s.getIndex y = s.getIndex x ∧ s' = s else y = x) ∧
    ∀ x ∈ S, ∀ fuel, enough S.card ≤ fuel → ∃ s', prioTreeRemove fuel s x = some s' := by
  obtain ⟨t, ht⟩ := h.shows
  refine ⟨⟨t, ht.inv.holds.rep, ht.inv.holds.root, ht.inv.ordered, ht.ids, ?_⟩, ?_, ?_⟩
  · rw [ht.ids, ht.intervals]
  · intro x hx hle fuel hfuel
    split
    · next hmem =>
        obtain ⟨y, hy, heq, hcall⟩ := ht.insert_found hfuel hmem
        exact ⟨s, y, hcall, hy, heq, rfl⟩
    · next hnew =>
        obtain ⟨s', t', hcall, -⟩ := ht.insert_new hx hle hfuel hnew
        exact ⟨s', x, hcall, rfl⟩
  · intro x hx fuel hfuel
    obtain ⟨s', t', hcall, -⟩ := ht.remove hx hfuel
    exact ⟨s', hcall⟩

/-- An empty tree. The nodes 1 and 4 have one interval. -/
def emptyRoot : State where
  links := fun _ node => node
  start := fun node => if node = 2 then 0 else 2
  last := fun node => if node = 2 then 1 else if node = 3 then 9 else 5
  vmPgoff := fun _ => 0
  vmStart := fun _ => 0
  vmEnd := fun _ => 0
  prioTreeNode := none
  indexBits := 1
  raw := false

def inserted (s : State) (node : Id) : State := ((prioTreeInsert 100 s node).getD (s, node)).1

/-- The nodes 1, 2 and 3: the last one takes the root from the first and grows the tree. -/
def threeNodes : State := inserted (inserted (inserted emptyRoot 1) 2) 3

lemma threeNodes_reaches : Reaches {3, 2, 1} {(2, 9), (0, 1), (2, 5)} threeNodes :=
  have hone : Reaches {1} {(2, 5)} (inserted emptyRoot 1) :=
    .insert (x := 1) (y := 1) (.init emptyRoot rfl rfl) (by decide) (by decide)
      (by decide : _ ≤ 100) rfl
  have htwo : Reaches {2, 1} {(0, 1), (2, 5)} (inserted (inserted emptyRoot 1) 2) :=
    .insert (x := 2) (y := 2) hone (by decide) (by decide) (by decide : _ ≤ 100) rfl
  .insert (x := 3) (y := 3) htwo (by decide) (by decide) (by decide : _ ≤ 100) rfl

theorem prio_tree_representation_duplicate :
    Reaches {3, 2, 1} {(2, 9), (0, 1), (2, 5)} threeNodes ∧
      (prioTreeInsert 100 threeNodes 4).map Prod.snd = some 1 := by
  obtain ⟨s', y, hfound, hy⟩ :=
    (prio_tree_representation threeNodes_reaches).2.1 4 (by decide) (by decide) 100 (by decide)
  rw [if_pos (by decide)] at hy
  have hone : y = 1 := by
    obtain ⟨hmem, heq, -⟩ := hy
    revert heq
    rcases (by simpa using hmem : y = 3 ∨ y = 2 ∨ y = 1) with rfl | rfl | rfl <;> decide
  exact ⟨threeNodes_reaches, by rw [hfound, hone]; rfl⟩

end R0Kernel.PrioTree
