import R0Kernel.Lib.PrioTree.Runs

/-!
# Stabbing queries

`prio_tree_next` visits the nodes in the order of a traversal from the top and leaves out subtrees
that cannot meet the query. The mask, the value and the size level of an iterator are functions of
the path to its node, and going up restores them.
-/

namespace R0Kernel.PrioTree

open BinaryTree SelfLinked PrioritySearch Multiset Option

variable {s : State} {t : BinaryTree Id} {C : List (Frame Id)} {f : Frame Id} {side : Side}
  {cur x y : Id} {l r near far : BinaryTree Id} {q : Nat × Nat} {bits d : Nat}

/-! ### The iterator on a path -/

def levelMask (bits d : Nat) : Nat :=
  if d < bits + bitsPerLong then maskAt bits d else ulongMax

/-- The bits of the radix index that the path fixes. -/
def pathValue (bits : Nat) : List (Frame Id) → Nat
  | [] => 0
  | f :: C =>
    if f.side = .right ∧ C.length < bits then pathValue bits C ||| 2 ^ (bits - 1 - C.length)
    else pathValue bits C

/-- The iterator of the query `q` at the node `cur` in the context `C`. -/
def iterAt (bits : Nat) (q : Nat × Nat) (C : List (Frame Id)) (cur : Id) : Iter where
  cur := some cur
  mask := levelMask bits C.length
  value := pathValue bits C
  sizeLevel := C.length + 1 - bits
  rIndex := q.1
  hIndex := q.2

lemma levelMask_of_lt (hd : d < bits + bitsPerLong) : levelMask bits d = maskAt bits d :=
  if_pos hd

lemma levelMask_bottom (bits : Nat) : levelMask bits (bits + bitsPerLong) = ulongMax :=
  if_neg (lt_irrefl _)

lemma maskAt_ne_ulongMax (bits d : Nat) : maskAt bits d ≠ ulongMax := by
  have hpow : ∀ n, 2 ^ n ≠ ulongMax := by
    intro n hn
    have hodd : (2 ^ n) % 2 = 1 := by
      rw [hn]
      decide
    cases n with
    | zero => exact absurd hn (by decide)
    | succ n => omega
  rw [maskAt]
  split
  · exact hpow _
  · exact hpow _

/-- The path has not fixed the bits below it. -/
lemma testBit_pathValue (hC : C.length ≤ d) (hd : d < bits) :
    (pathValue bits C).testBit (bits - 1 - d) = false := by
  induction C with
  | nil => exact Nat.zero_testBit _
  | cons f C ih =>
    rw [List.length_cons] at hC
    rw [pathValue]
    split
    · rw [Nat.testBit_or, ih (by omega), Nat.testBit_two_pow_of_ne (by omega)]
      rfl
    · exact ih (by omega)

section

variable (bits : Nat) (C : List (Frame Id)) (a : Id) (sib : BinaryTree Id)

lemma pathValue_right :
    pathValue bits (⟨.right, a, sib⟩ :: C) =
      if C.length + 1 - bits ≠ 0 then pathValue bits C
      else pathValue bits C ||| levelMask bits C.length := by
  rw [pathValue]
  by_cases hd : C.length < bits
  · rw [if_pos ⟨rfl, hd⟩, if_neg (by omega), levelMask_of_lt (by omega), maskAt_of_lt hd]
  · rw [if_neg (fun h => hd h.2), if_pos (by omega)]

end

/-- One level down, unless a `BUG_ON` stops it. -/
lemma stepDown_iterAt (f : Frame Id) (next : Id) (v : Nat)
    (hC : C.length < bits + bitsPerLong)
    (hleaf : C.length + 1 = bits + bitsPerLong → s.leftEmpty next ∧ s.rightEmpty next) :
    stepDown s { iterAt bits q C cur with value := v } next =
      some { iterAt bits q (f :: C) next with value := v } := by
  have hpos : 0 < bitsPerLong := by decide
  simp only [stepDown, iterAt, levelMask_of_lt hC, List.length_cons]
  by_cases hlast : C.length + 1 = bits ∨ C.length + 1 = bits + bitsPerLong
  · rw [maskAt_last hlast, if_neg (by decide)]
    rcases hlast with hlast | hlast
    · -- from the last bit of the radix index to the first one of the size
      rw [if_neg (by omega), hlast, levelMask_of_lt (by omega), maskAt_size,
        show bits + 1 - bits = 1 by omega]
    · -- below the last bit of the size there is a leaf
      obtain ⟨hl, hr⟩ := hleaf hlast
      rw [if_pos (by omega), if_neg (by rintro (h | h) <;> contradiction), hlast, levelMask_bottom,
        show bits + bitsPerLong + 1 - bits = bits + bitsPerLong - bits + 1 by omega]
  · rw [not_or] at hlast
    have hlt : C.length + 1 < bits + bitsPerLong := by omega
    have hsize : (if C.length + 1 - bits ≠ 0 then C.length + 1 - bits + 1
        else C.length + 1 - bits) = C.length + 1 + 1 - bits := by
      split <;> omega
    rw [maskAt_half hlast.1 hlt, if_pos (maskAt_ne_zero _ _), levelMask_of_lt hlt, hsize]

lemma levelMask_up (hbits : bits ≤ bitsPerLong) (hC : d < bits + bitsPerLong) :
    (if levelMask bits (d + 1) = ulongMax then 1 else if d + 1 + 1 - bits = 1 then 1
      else levelMask bits (d + 1) * 2 % 2 ^ bitsPerLong) = levelMask bits d := by
  rw [levelMask_of_lt hC]
  by_cases hbottom : d + 1 = bits + bitsPerLong
  · rw [hbottom, levelMask_bottom, if_pos rfl, maskAt_last (.inr hbottom)]
  · have hlt : d + 1 < bits + bitsPerLong := by omega
    rw [levelMask_of_lt hlt, if_neg (maskAt_ne_ulongMax _ _)]
    by_cases hlast : d + 1 = bits
    · rw [if_pos (by omega), maskAt_last (.inl hlast)]
    · have hlt' := maskAt_lt hbits d
      rw [maskAt_eq_mul hlast hlt] at hlt' ⊢
      by_cases hone : d + 1 + 1 - bits = 1
      · omega
      · rw [if_neg hone, Nat.mod_eq_of_lt hlt']

lemma pathValue_up (bits : Nat) (f : Frame Id) (C : List (Frame Id)) :
    (if C.length + 1 - bits = 0 ∧ pathValue bits (f :: C) &&& levelMask bits C.length ≠ 0 then
      pathValue bits (f :: C) ^^^ levelMask bits C.length else pathValue bits (f :: C)) =
      pathValue bits C := by
  by_cases hd : C.length < bits
  · have hmask : levelMask bits C.length = 2 ^ (bits - 1 - C.length) := by
      rw [levelMask_of_lt (by omega), maskAt_of_lt hd]
    have hclear := testBit_pathValue le_rfl hd
    simp only [hmask, and_two_pow_ne_zero, pathValue]
    by_cases hside : f.side = .right
    · rw [if_pos (⟨hside, hd⟩ : f.side = .right ∧ C.length < bits),
        if_pos ⟨by omega, by rw [Nat.testBit_or, Nat.testBit_two_pow_self, Bool.or_true]⟩]
      -- the bit was set on the way down
      apply Nat.eq_of_testBit_eq
      intro i
      rw [Nat.testBit_xor, Nat.testBit_or]
      by_cases hi : bits - 1 - C.length = i
      · rw [← hi, hclear, Nat.testBit_two_pow_self]
        rfl
      · rw [Nat.testBit_two_pow_of_ne hi, Bool.or_false, Bool.xor_false]
    · rw [if_neg (fun h : f.side = .right ∧ C.length < bits => hside h.1), hclear,
        if_neg (fun h => nomatch h.2)]
  · rw [if_neg (fun h => by omega), pathValue, if_neg (fun h => hd h.2)]

lemma prioTreeParent_eq {it : Iter} {mask level value : Nat}
    (hmask : (if it.mask = ulongMax then 1 else if it.sizeLevel = 1 then 1
      else it.mask * 2 % 2 ^ bitsPerLong) = mask)
    (hlevel : (if it.sizeLevel ≠ 0 then it.sizeLevel - 1 else it.sizeLevel) = level)
    (hvalue : (if level = 0 ∧ it.value &&& mask ≠ 0 then it.value ^^^ mask else it.value) = value) :
    prioTreeParent s it cur =
      { it with cur := s.parent cur, mask := mask, sizeLevel := level, value := value } := by
  subst hmask hlevel hvalue
  rfl

lemma prioTreeParent_iterAt (hbits : bits ≤ bitsPerLong) (hC : C.length < bits + bitsPerLong)
    (hparent : s.parent cur = f.node) :
    prioTreeParent s (iterAt bits q (f :: C) cur) cur = iterAt bits q C f.node := by
  have hlevel : (if C.length + 1 + 1 - bits ≠ 0 then C.length + 1 + 1 - bits - 1
      else C.length + 1 + 1 - bits) = C.length + 1 - bits := by
    split <;> omega
  rw [← hparent]
  exact prioTreeParent_eq (levelMask_up hbits hC) hlevel (pathValue_up bits f C)

/-! ### Subtrees that cannot meet the query -/

/-- The interval of `x` overlaps the query. -/
def Hit (s : State) (q : Nat × Nat) (x : Id) : Prop :=
  (s.getIndex x).1 ≤ q.2 ∧ q.1 ≤ (s.getIndex x).2

instance (s : State) (q : Nat × Nat) (x : Id) : Decidable (Hit s q x) :=
  inferInstanceAs (Decidable (_ ∧ _))

def hits (s : State) (q : Nat × Nat) (L : List Id) : List Id := L.filter fun x => Hit s q x

lemma hits_append (L L' : List Id) : hits s q (L ++ L') = hits s q L ++ hits s q L' :=
  List.filter_append ..

lemma hits_cons_of_hit {L : List Id} (h : Hit s q x) : hits s q (x :: L) = x :: hits s q L :=
  List.filter_cons_of_pos (decide_eq_true h)

lemma hits_cons_of_not {L : List Id} (h : ¬ Hit s q x) : hits s q (x :: L) = hits s q L :=
  List.filter_cons_of_neg (by simpa using h)

lemma hits_pre_eq_nil (h : ∀ x ∈ ids t, ¬ Hit s q x) : hits s q (pre t) = [] := by
  apply List.filter_eq_nil_iff.mpr
  intro x hx
  simpa using h x (mem_pre.mp hx)

lemma mem_plug (hx : x ∈ ids t) : x ∈ ids (plug C t) := by
  rw [ids_plug]
  exact mem_add.mpr (.inl hx)

/-- The nodes of a subtree agree on the bits of the path to it. -/
lemma TreeInv.agree (h : TreeInv s (plug C t)) (hx : x ∈ ids t) (hy : y ∈ ids t) :
    Agree (bitAt s.indexBits) C.length (keyOf (s.getIndex x)) (keyOf (s.getIndex y)) := by
  have hagree := h.pst.agree fun _ _ _ _ i hi => absurd hi (Nat.not_lt_zero i)
  rw [zero_add] at hagree
  exact hagree x hx y hy

/-- A node has children only as long as bits are left. -/
lemma TreeInv.depth_lt (h : TreeInv s (plug C (branch side cur near far))) (hx : x ∈ ids near) :
    C.length < s.indexBits + bitsPerLong := by
  have hcur : cur ∈ ids (branch side cur near far) := by
    rw [ids_branch]
    exact mem_cons_self _ _
  have hx' : x ∈ ids (branch side cur near far) := by
    rw [ids_branch]
    exact mem_near hx
  exact lt_of_agree h.le (h.valid x (mem_plug hx')) (h.valid cur (mem_plug hcur))
    (h.below_side hx).1.ne (h.agree hx' hcur)

/-- The radix indices below a path have its bits set. -/
lemma TreeInv.pathValue_le (h : TreeInv s (plug C t)) (hx : x ∈ ids t) :
    pathValue s.indexBits C ≤ (s.getIndex x).1 := by
  suffices hand : pathValue s.indexBits C &&& (s.getIndex x).1 = pathValue s.indexBits C by
    rw [← hand]
    exact Nat.and_le_right
  induction C generalizing t with
  | nil => exact Nat.zero_and _
  | cons f C ih =>
    have hx' : x ∈ ids (f.fill t) := by
      rw [Frame.fill, ids_branch]
      exact mem_near hx
    have hC := ih h hx'
    rw [pathValue]
    split
    · next hside =>
        obtain ⟨hright, hlt⟩ := hside
        have hbit := (TreeInv.below_side (C := C) h hx).2
        rw [bitAt, if_pos hlt, hright, radix_keyOf] at hbit
        rw [Nat.and_or_distrib_right, hC, Nat.and_comm (2 ^ _), Nat.and_two_pow, hbit]
        exact congrArg _ (one_mul _)
    · exact hC

/-- The heap order: if the top of a subtree ends before the query, all of it does. -/
lemma TreeInv.hits_of_heap (h : TreeInv s (plug C (node cur l r)))
    (hlt : (s.getIndex cur).2 < q.1) : hits s q (pre (node cur l r)) = [] := by
  have hbelow : ∀ x ∈ ids (node cur l r), (s.getIndex x).2 ≤ (s.getIndex cur).2 := by
    intro x hx
    have hleft : TreeInv s (plug C (branch .left cur l r)) := h
    have hright : TreeInv s (plug C (branch .right cur r l)) := h
    have hle : keyOf (s.getIndex x) ≤ keyOf (s.getIndex cur) := by
      rcases mem_cons.mp hx with rfl | hx
      · exact le_rfl
      · rcases mem_add.mp hx with hx | hx
        · exact (hleft.below_side hx).1.le
        · exact (hright.below_side hx).1.le
    rcases hle.lt_or_eq with hlt | heq
    · rcases key_lt_iff.mp hlt with hlt | ⟨heq, -⟩
      · exact hlt.le
      · exact heq.le
    · exact (congrArg Prod.snd (keyOf_inj.mp heq)).le
  apply hits_pre_eq_nil
  intro x hx hhit
  exact absurd (hhit.2.trans (hbelow x hx)) (not_le.mpr hlt)

/-- The prefix of the radix index: if the path already starts after the query, so does all below. -/
lemma TreeInv.hits_of_value (h : TreeInv s (plug C t)) (hlt : q.2 < pathValue s.indexBits C) :
    hits s q (pre t) = [] := by
  apply hits_pre_eq_nil
  intro x hx hhit
  exact absurd ((h.pathValue_le hx).trans hhit.1) (not_le.mpr hlt)

/-! ### Going down -/

/-- The step down to a child never meets a `BUG_ON`. -/
lemma TreeInv.stepDown_child (h : TreeInv s (plug C (branch side cur (node y l r) far))) (v : Nat) :
    stepDown s { iterAt s.indexBits q C cur with value := v } y =
      some { iterAt s.indexBits q (⟨side, cur, far⟩ :: C) y with value := v } := by
  apply stepDown_iterAt
  · exact h.depth_lt (mem_cons_self y _)
  · intro hlast
    have hchild : TreeInv s (plug (⟨side, cur, far⟩ :: C) (node y l r)) := h
    -- a child of the last node would need one more bit
    have hnil : ∀ side' near' far', node y l r = branch side' y near' far' →
        s.links (.child side') y = y := by
      intro side' near' far' hsplit
      rw [hsplit] at hchild
      apply hchild.holds.child_eq_self.mpr
      cases near' with
      | nil => rfl
      | node z l' r' =>
        have hlt := hchild.depth_lt (mem_cons_self z _)
        rw [List.length_cons] at hlt
        omega
    exact ⟨hnil .left l r rfl, hnil .right r l rfl⟩

/-- What `prio_tree_left` and `prio_tree_right` come to: the child, unless its subtree misses the
query. -/
def Descends (s : State) (q : Nat × Nat) (C : List (Frame Id)) (cur : Id) (side : Side)
    (near far : BinaryTree Id) (result : Option (Option Iter)) : Prop :=
  (result = some none ∧ hits s q (pre near) = []) ∨
    ∃ y l r, near = node y l r ∧ s.links (.child side) cur = y ∧ q.1 ≤ (s.getIndex y).2 ∧
      result = some (some (iterAt s.indexBits q (⟨side, cur, far⟩ :: C) y))

variable {result : Option (Option Iter)} {fuel : Nat}

lemma TreeInv.descends (h : TreeInv s (plug C (branch side cur near far)))
    (hempty : near = nil → result = some none)
    (hchild : ∀ y l r, near = node y l r → s.links (.child side) cur = y →
      (result = some none ∧ q.2 < pathValue s.indexBits (⟨side, cur, far⟩ :: C)) ∨
      result = if q.1 ≤ (s.getIndex y).2 then (stepDown s { iterAt s.indexBits q C cur with
        value := pathValue s.indexBits (⟨side, cur, far⟩ :: C) } y).map some else some none) :
    Descends s q C cur side near far result := by
  cases near with
  | nil => exact .inl ⟨hempty rfl, rfl⟩
  | node y l r =>
    have hy : s.links (.child side) cur = y := h.holds.child
    have hbelow : TreeInv s (plug (⟨side, cur, far⟩ :: C) (node y l r)) := h
    obtain ⟨hnone, hpast⟩ | hresult := hchild y l r rfl hy
    · exact .inl ⟨hnone, hbelow.hits_of_value hpast⟩
    by_cases hheap : q.1 ≤ (s.getIndex y).2
    · rw [if_pos hheap, h.stepDown_child] at hresult
      exact .inr ⟨y, l, r, rfl, hy, hheap, hresult⟩
    · rw [if_neg hheap] at hresult
      exact .inl ⟨hresult, hbelow.hits_of_heap (not_le.mp hheap)⟩

lemma prioTreeLeft_spec (h : TreeInv s (plug C (branch .left cur l r))) :
    Descends s q C cur .left l r (prioTreeLeft s (iterAt s.indexBits q C cur) cur) := by
  apply h.descends
  · rintro rfl
    exact if_pos (h.holds.child_eq_self.mpr rfl)
  · rintro y l' r' rfl hy
    right
    have hempty : ¬ s.leftEmpty cur := mt h.holds.child_eq_self.mp nofun
    rw [prioTreeLeft, if_neg hempty, show s.left cur = y from hy]
    rfl

lemma prioTreeRight_spec (h : TreeInv s (plug C (branch .right cur r l))) :
    Descends s q C cur .right r l (prioTreeRight s (iterAt s.indexBits q C cur) cur) := by
  apply h.descends
  · rintro rfl
    exact if_pos (h.holds.child_eq_self.mpr rfl)
  · rintro y l' r' rfl hy
    have hempty : ¬ s.rightEmpty cur := mt h.holds.child_eq_self.mp nofun
    rw [prioTreeRight, if_neg hempty, show s.right cur = y from hy]
    rw [show (if (iterAt s.indexBits q C cur).sizeLevel ≠ 0 then
        (iterAt s.indexBits q C cur).value else (iterAt s.indexBits q C cur).value |||
          (iterAt s.indexBits q C cur).mask) = _ from (pathValue_right s.indexBits C cur l).symm]
    by_cases hpast : q.2 < pathValue s.indexBits (⟨.right, cur, l⟩ :: C)
    · exact .inl ⟨if_pos hpast, hpast⟩
    · exact .inr (if_neg hpast)

/-! ### The next node -/

/-- The nodes that the traversal has ahead of it, from the place in `prio_tree_next`. -/
def ahead (l r : BinaryTree Id) (C : List (Frame Id)) : At → List Id
  | .left => pre l ++ (pre r ++ rest C)
  | .right => pre r ++ rest C
  | .climb => rest C

/-- The steps that a place in `prio_tree_next` has left at one node. -/
def At.slack : At → Nat
  | .left => 2
  | .right => 1
  | .climb => 0

/-- `prio_tree_next` stands at a node of the tree, and `L` are the nodes it still has to give. -/
def Pending (s : State) (t : BinaryTree Id) (q : Nat × Nat) (L : List Id) (rank : Nat) :
    At × Iter × Id → Prop
  | (place, it, cur) => ∃ C l r, t = plug C (node cur l r) ∧ it = iterAt s.indexBits q C cur ∧
      hits s q (ahead l r C place) = L ∧
      rank = 4 * (ahead l r C place).length + 2 * C.length + place.slack

/-- The result gives the first node of `L` and stands at it, or `L` is empty. -/
def Answers (s : State) (t : BinaryTree Id) (q : Nat × Nat) (L : List Id) : Iter × Option Id → Prop
  | (_, none) => L = []
  | (it, some y) => ∃ C l r, t = plug C (node y l r) ∧ it = iterAt s.indexBits q C y ∧
      L = y :: hits s q (ahead l r C .left)

/-- A step goes on with a lower rank, or it ends with the answer. -/
def Progress (s : State) (t : BinaryTree Id) (q : Nat × Nat) (L : List Id) (rank : Nat)
    (next : (At × Iter × Id) ⊕ Option (Iter × Option Id)) : Prop :=
  (∃ u rank', next = .inl u ∧ rank' < rank ∧ Pending s t q L rank' u) ∨
    ∃ e, next = .inr (some e) ∧ Answers s t q L e

lemma pre_append_rest (y : Id) (l r : BinaryTree Id) (C : List (Frame Id)) :
    pre (node y l r) ++ rest C = y :: ahead l r C .left := by
  rw [pre, List.cons_append, List.append_assoc]
  rfl

variable {L : List Id} {rank : Nat} {it : Iter}

/-- At a child `y`: it is given if it overlaps, and else the traversal goes on from it. -/
lemma progress_child (ht : t = plug C (node y l r))
    (hL : hits s q (pre (node y l r) ++ rest C) = L)
    (hrank : 4 * (ahead l r C .left).length + 2 * C.length + 2 < rank) :
    Progress s t q L rank
      (if overlap (iterAt s.indexBits q C y) (s.getIndex y) then
        .inr (some (iterAt s.indexBits q C y, some y))
      else .inl (.left, iterAt s.indexBits q C y, y)) := by
  rw [pre_append_rest] at hL
  by_cases hhit : Hit s q y
  · rw [if_pos (show overlap (iterAt s.indexBits q C y) (s.getIndex y) from hhit)]
    rw [hits_cons_of_hit hhit] at hL
    exact .inr ⟨_, rfl, C, l, r, ht, rfl, hL.symm⟩
  · rw [if_neg (show ¬ overlap (iterAt s.indexBits q C y) (s.getIndex y) from hhit)]
    rw [hits_cons_of_not hhit] at hL
    exact .inl ⟨_, _, rfl, hrank, C, l, r, ht, rfl, hL, rfl⟩

/-- At the child on one side, or at the next place if it misses the query. -/
lemma progress_descends {p : At} (ht : t = plug C (branch side cur near far))
    (hplace : ∃ l r, branch side cur near far = node cur l r ∧
      ahead l r C p = rest (⟨side, cur, far⟩ :: C))
    (hL : hits s q (pre near ++ rest (⟨side, cur, far⟩ :: C)) = L)
    (hrank : 4 * (pre near ++ rest (⟨side, cur, far⟩ :: C)).length + 2 * C.length + p.slack <
      rank) :
    Descends s q C cur side near far result → Progress s t q L rank (match result with
      | none => .inr none
      | some none => .inl (p, iterAt s.indexBits q C cur, cur)
      | some (some it) =>
        if overlap it (s.getIndex (s.links (.child side) cur)) then
          .inr (some (it, some (s.links (.child side) cur)))
        else .inl (.left, it, s.links (.child side) cur)) := by
  rw [List.length_append] at hrank
  rintro (⟨rfl, hmiss⟩ | ⟨y, l, r, rfl, hy, -, rfl⟩)
  · obtain ⟨l, r, hnode, hahead⟩ := hplace
    rw [hits_append, hmiss, ← hahead] at hL
    refine .inl ⟨_, _, rfl, ?_, C, l, r, by rw [ht, hnode], rfl, hL, rfl⟩
    rw [hahead]
    omega
  · rw [hy]
    apply progress_child ht hL
    rw [pre] at hrank
    simp only [ahead, List.length_append, List.length_cons] at hrank ⊢
    omega

lemma nextStep_left (h : TreeInv s t)
    (hp : Pending s t q L rank (.left, it, cur)) :
    Progress s t q L rank (nextStep s (.left, it, cur)) := by
  obtain ⟨C, l, r, rfl, rfl, hL, rfl⟩ := hp
  exact progress_descends (p := .right) rfl ⟨l, r, rfl, rfl⟩ hL (Nat.lt_succ_self _)
    (prioTreeLeft_spec h)

lemma nextStep_right (h : TreeInv s t)
    (hp : Pending s t q L rank (.right, it, cur)) :
    Progress s t q L rank (nextStep s (.right, it, cur)) := by
  obtain ⟨C, l, r, rfl, rfl, hL, rfl⟩ := hp
  exact progress_descends (p := .climb) rfl ⟨l, r, rfl, rfl⟩ hL (Nat.lt_succ_self _)
    (prioTreeRight_spec h)

lemma TreeInv.parent_eq (h : TreeInv s (plug (f :: C) (node cur l r))) :
    s.parent cur = f.node ∧ ¬ s.isRoot cur ∧ (s.right f.node = cur ↔ f.side = .right) ∧
      C.length < s.indexBits + bitsPerLong := by
  have hparent : s.parent cur = f.node := (rep_plug.mp h.holds.rep).2.1
  have hfill : TreeInv s (plug C (branch f.side f.node (node cur l r) f.sib)) := h
  have hne : cur ≠ f.node := by
    have hnodup := h.holds.nodup
    rw [ids_plug] at hnodup
    intro heq
    exact disjoint_left.mp (nodup_add.mp hnodup).2.2
      (mem_cons_self cur _) (heq ▸ mem_cons_self f.node _)
  refine ⟨hparent, ?_, ?_, hfill.depth_lt (mem_cons_self cur _)⟩
  · intro hroot
    exact hne (hroot.symm.trans hparent)
  · exact h.holds.child_eq_iff.trans eq_comm

lemma nextStep_climb (h : TreeInv s t)
    (hp : Pending s t q L rank (.climb, it, cur)) :
    Progress s t q L rank (nextStep s (.climb, it, cur)) := by
  obtain ⟨C, l, r, rfl, rfl, hL, hrank⟩ := hp
  rw [nextStep]
  cases C with
  | nil =>
    have hroot : s.isRoot cur := (rep_plug.mp h.holds.rep).2.1
    rw [if_pos hroot]
    exact .inr ⟨_, rfl, hL.symm⟩
  | cons f C =>
    obtain ⟨hparent, hroot, hright, hdepth⟩ := h.parent_eq
    rw [if_neg hroot, hparent, prioTreeParent_iterAt h.le hdepth hparent]
    obtain ⟨side, a, sib⟩ := f
    cases side with
    | left =>
      rw [if_neg (fun heq => nomatch hright.mp heq)]
      refine .inl ⟨_, _, rfl, ?_, C, node cur l r, sib, rfl, rfl, hL, rfl⟩
      rw [hrank, List.length_cons]
      dsimp only [ahead, rest, At.slack]
      omega
    | right =>
      rw [if_pos (hright.mpr rfl)]
      refine .inl ⟨_, _, rfl, ?_, C, sib, node cur l r, rfl, rfl, hL, rfl⟩
      rw [hrank, List.length_cons]
      dsimp only [ahead, rest, At.slack]
      omega

lemma nextStep_progress (h : TreeInv s t) (u : At × Iter × Id)
    (hp : Pending s t q L rank u) : Progress s t q L rank (nextStep s u) := by
  obtain ⟨place, it, cur⟩ := u
  cases place with
  | left => exact nextStep_left h hp
  | right => exact nextStep_right h hp
  | climb => exact nextStep_climb h hp

/-- `prio_tree_next` from a node gives the next node to give. -/
lemma prioTreeNext_spec (h : TreeInv s (plug C (node cur l r)))
    (hfuel : 4 * (ids (plug C (node cur l r))).card ≤ fuel) :
    ∃ e, prioTreeNext fuel s (iterAt s.indexBits q C cur) = some e ∧
      Answers s (plug C (node cur l r)) q (hits s q (ahead l r C .left)) e := by
  have hrank : 4 * (ahead l r C .left).length + 2 * C.length + 2 < fuel := by
    have hC := length_le_card_ctxIds C
    rw [ids_plug, card_add, ← coe_pre, coe_card, pre, List.length_cons,
      List.length_append] at hfuel
    rw [ahead, List.length_append, List.length_append]
    omega
  -- every step that does not end the call lowers the rank
  have hkeep : ∀ rank u u',
      Pending s (plug C (node cur l r)) q (hits s q (ahead l r C .left)) rank u →
      nextStep s u = .inl u' → ∃ rank' < rank,
        Pending s (plug C (node cur l r)) q (hits s q (ahead l r C .left)) rank' u' := by
    intro rank u u' hu hstep
    rcases nextStep_progress h u hu with ⟨v, rank', hv, hlt, hpend⟩ | ⟨e, he, -⟩
    · rw [hstep] at hv
      cases hv
      exact ⟨rank', hlt, hpend⟩
    · rw [hstep] at he
      cases he
  obtain ⟨e, -, u, rank, hrun, -, hexit, hu⟩ := Machine.exists_run_of_ranked hkeep
    (s := (.left, iterAt s.indexBits q C cur, cur)) ⟨C, l, r, rfl, rfl, rfl, rfl⟩ hrank
  rcases nextStep_progress h u hu with ⟨v, rank', hv, -⟩ | ⟨e', he, hanswer⟩
  · rw [hexit] at hv
    cases hv
  · rw [hexit] at he
    cases he
    refine ⟨e', ?_, hanswer⟩
    exact congrArg Option.join hrun

/-! ### The first node -/

/-- If the left child meets the query from above without overlapping it, then nothing on the right
overlaps it either. So `prio_tree_first` need not come back. -/
lemma TreeInv.hits_right (h : TreeInv s (plug C (node cur (node y l near) r)))
    (hcur : q.2 < (s.getIndex cur).1) (hy : q.2 < (s.getIndex y).1) : hits s q (pre r) = [] := by
  have hleft : TreeInv s (plug C (branch .left cur (node y l near) r)) := h
  have hright : TreeInv s (plug C (branch .right cur r (node y l near))) := h
  have htop : cur ∈ ids (node cur (node y l near) r) := mem_cons_self _ _
  have hchild : y ∈ ids (node y l near) := mem_cons_self _ _
  have hchild' : y ∈ ids (node cur (node y l near) r) :=
    mem_near hchild
  apply hits_pre_eq_nil
  intro x hx hhit
  have hx' : x ∈ ids (node cur (node y l near) r) :=
    mem_far hx
  by_cases hd : C.length < s.indexBits
  · have hlt := radix_lt_of_agree (h.valid y (mem_plug hchild')) (h.valid x (mem_plug hx')) hd
      (h.agree hchild' hx') (hleft.below_side hchild).2 (hright.below_side hx).2
    exact absurd (hy.trans hlt) (not_lt.mpr hhit.1)
  · -- below the bits of the radix index it is the same in the whole subtree
    have heq : (s.getIndex x).1 = (s.getIndex cur).1 := radix_eq_of_agree
      (h.valid x (mem_plug hx')) (h.valid cur (mem_plug htop)) (not_lt.mp hd) (h.agree hx' htop)
    rw [← heq] at hcur
    exact absurd hcur (not_lt.mpr hhit.1)

lemma firstLoop_spec (h : TreeInv s (plug C (node cur l r))) (hheap : q.1 ≤ (s.getIndex cur).2)
    (hrest : ¬ Hit s q cur → hits s q (rest C) = []) (hfuel : (ids (node cur l r)).card ≤ fuel) :
    ∃ e, firstLoop s fuel (iterAt s.indexBits q C cur) cur = some e ∧
      Answers s (plug C (node cur l r)) q (hits s q (pre (node cur l r) ++ rest C)) e := by
  induction fuel generalizing C cur l r with
  | zero =>
    rw [ids, card_cons] at hfuel
    cases hfuel
  | succ fuel ih =>
    rw [ids, card_cons, card_add] at hfuel
    rw [firstLoop, pre_append_rest]
    by_cases hhit : Hit s q cur
    · rw [if_pos (show overlap (iterAt s.indexBits q C cur) (s.getIndex cur) from hhit),
        hits_cons_of_hit hhit]
      exact ⟨_, rfl, C, l, r, rfl, rfl, rfl⟩
    · rw [if_neg (show ¬ overlap (iterAt s.indexBits q C cur) (s.getIndex cur) from hhit),
        hits_cons_of_not hhit, ahead]
      have hpast : ∀ z, q.1 ≤ (s.getIndex z).2 → ¬ Hit s q z → q.2 < (s.getIndex z).1 :=
        fun z hz hmiss => Nat.lt_of_not_le fun hle => hmiss ⟨hle, hz⟩
      have hl : s.left cur = s.links (.child .left) cur := rfl
      have hr : s.right cur = s.links (.child .right) cur := rfl
      rcases prioTreeLeft_spec (q := q) h with ⟨hcall, hmiss⟩ | ⟨y, l', r', rfl, hy, hle, hcall⟩
      · rw [hcall, hits_append, hmiss]
        rcases prioTreeRight_spec (q := q) h with
          ⟨hcall', hmiss'⟩ | ⟨y, l', r', rfl, hy, hle, hcall'⟩
        · rw [hcall', hits_append, hmiss', hrest hhit]
          exact ⟨_, rfl, rfl⟩
        · simp only [hcall', bind_some, hr, hy]
          exact ih (C := ⟨.right, cur, l⟩ :: C) h hle (fun _ => hrest hhit) (by omega)
      · simp only [hcall, bind_some, hl, hy]
        refine ih (C := ⟨.left, cur, r⟩ :: C) h hle (fun hmiss => ?_) (by omega)
        rw [rest, hits_append, hrest hhit, h.hits_right (hpast cur hheap hhit) (hpast y hle hmiss)]
        rfl

lemma prioTreeFirst_spec (h : TreeInv s t) (it : Iter) (hfuel : (ids t).card ≤ fuel) :
    ∃ e, prioTreeFirst fuel s it = some e ∧
      Answers s t (it.rIndex, it.hIndex) (hits s (it.rIndex, it.hIndex) (pre t)) e := by
  have hroot := h.holds.root
  rw [prioTreeFirst]
  cases t with
  | nil =>
    rw [hroot]
    exact ⟨_, rfl, rfl⟩
  | node a l r =>
    rw [top] at hroot
    rw [hroot]
    dsimp only
    by_cases hlt : (s.getIndex a).2 < it.rIndex
    · rw [if_pos hlt]
      exact ⟨_, rfl, TreeInv.hits_of_heap (C := []) h hlt⟩
    · rw [if_neg hlt]
      have hloop := firstLoop_spec (C := []) (q := (it.rIndex, it.hIndex)) h (not_lt.mp hlt)
        (fun _ => rfl) hfuel
      rw [rest, List.append_nil] at hloop
      have hmask : levelMask s.indexBits 0 = 2 ^ (s.indexBits - 1) := by
        rw [levelMask_of_lt (Nat.add_pos_left h.pos _), maskAt_of_lt h.pos, Nat.sub_zero]
      have hlevel : 0 + 1 - s.indexBits = 0 := Nat.sub_eq_zero_of_le h.pos
      rw [iterAt, List.length_nil, hmask, hlevel] at hloop
      exact hloop

/-! ### The whole query -/

/-- `prio_tree_next` until it gives a null pointer. -/
def collect (fuel : Nat) (s : State) : Nat → Iter → Option (List Id)
  | 0, _ => none
  | rounds + 1, it =>
    (prioTreeNext fuel s it).bind fun
      | (_, none) => some []
      | (it', some y) => (collect fuel s rounds it').map (y :: ·)

lemma collect_of_answers {rounds : Nat} {e : Iter × Option Id} (h : TreeInv s t)
    (hfuel : 4 * (ids t).card ≤ fuel) (hcall : prioTreeNext fuel s it = some e)
    (he : Answers s t q L e) (hrounds : L.length < rounds) :
    collect fuel s rounds it = some L := by
  induction rounds generalizing L it e with
  | zero => exact absurd hrounds (Nat.not_lt_zero _)
  | succ rounds ih =>
    rw [collect, hcall]
    obtain ⟨it', _ | y⟩ := e
    · exact congrArg some (he : L = []).symm
    · obtain ⟨C, l, r, rfl, rfl, rfl⟩ := he
      obtain ⟨e', hcall', he'⟩ := prioTreeNext_spec (q := q) h hfuel
      have hlen : (hits s q (ahead l r C .left)).length < rounds := Nat.lt_of_succ_lt_succ hrounds
      exact congrArg (Option.map (y :: ·)) (ih hcall' he' hlen)

/-- Iterating from a fresh iterator gives exactly the nodes whose intervals overlap the query, each
once, and ends without a `BUG_ON`. -/
theorem prio_tree_query {S : Finset Id} {I : Finset (Nat × Nat)} (hreach : Reaches S I s)
    (it : Iter) (hfresh : it.cur = none) {fuel rounds : Nat} (hfuel : 4 * S.card ≤ fuel)
    (hrounds : S.card < rounds) :
    ∃ L, collect fuel s rounds it = some L ∧ L.Nodup ∧
      ∀ x, x ∈ L ↔ x ∈ S ∧ overlap it (s.getIndex x) := by
  obtain ⟨t, ht⟩ := hreach.shows
  rw [← ht.card_eq] at hfuel hrounds
  obtain ⟨e, hcall, he⟩ := prioTreeFirst_spec ht.inv it (by omega : (ids t).card ≤ fuel)
  have hnext : prioTreeNext fuel s it = some e := by
    rw [prioTreeNext, hfresh]
    exact hcall
  have hlen : (hits s (it.rIndex, it.hIndex) (pre t)).length < rounds := by
    refine lt_of_le_of_lt (List.length_filter_le _ _) ?_
    rwa [← coe_card, coe_pre]
  refine ⟨_, collect_of_answers ht.inv hfuel hnext he hlen, ?_, ?_⟩
  · apply List.Nodup.filter
    rw [← coe_nodup, coe_pre]
    exact ht.inv.holds.nodup
  · intro x
    rw [hits, List.mem_filter, mem_pre, ht.mem_iff, decide_eq_true_iff]
    rfl

/-- The query from 4 to 9 passes over node 2. -/
theorem prio_tree_query_three :
    ∃ L, collect 100 threeNodes 100 ⟨none, 0, 0, 0, 4, 9⟩ = some L ∧ L.Nodup ∧
      ∀ x, x ∈ L ↔ x = 1 ∨ x = 3 := by
  obtain ⟨L, hcall, hnodup, hmem⟩ := prio_tree_query threeNodes_reaches ⟨none, 0, 0, 0, 4, 9⟩ rfl
    (by decide : 4 * _ ≤ 100) (by decide : _ < 100)
  refine ⟨L, hcall, hnodup, fun x => (hmem x).trans ?_⟩
  constructor
  · rintro ⟨hx, hover⟩
    rcases (by simpa using hx : x = 3 ∨ x = 2 ∨ x = 1) with rfl | rfl | rfl
    · exact .inr rfl
    · exact absurd hover (by decide)
    · exact .inl rfl
  · rintro (rfl | rfl) <;> decide

end R0Kernel.PrioTree
