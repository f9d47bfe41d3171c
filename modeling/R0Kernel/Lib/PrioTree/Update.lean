import R0Kernel.Lib.PrioTree.Keys

/-!
# Changes of the tree in memory

What `prio_tree_replace`, the loop of `prio_tree_insert` and `prio_tree_remove` do to the tree that
the links of the nodes represent.
-/

namespace R0Kernel.PrioTree

open BinaryTree SelfLinked PrioritySearch Multiset Option Links

variable {s s' : State} {t l r : BinaryTree Id} {C D : List (Frame Id)} {a old new cur x y : Id}
  {fuel : Nat} {d : Side}

structure Holds (s : State) (t : BinaryTree Id) : Prop where
  rep : Rep s.links none t
  root : s.prioTreeNode = top t
  nodup : (ids t).Nodup

/-- The two states differ in their links and the pointer to the top only. -/
structure Kept (s s' : State) : Prop where
  getIndex : ∀ x, s'.getIndex x = s.getIndex x
  indexBits : s'.indexBits = s.indexBits

lemma Kept.refl (s : State) : Kept s s := ⟨fun _ => rfl, rfl⟩

lemma Kept.trans {s'' : State} (h : Kept s s') (h' : Kept s' s'') : Kept s s'' :=
  ⟨fun x => (h'.getIndex x).trans (h.getIndex x), h'.indexBits.trans h.indexBits⟩

/-- The links of all nodes but those in `S` are the same. -/
def SameOff (S : Multiset Id) (s s' : State) : Prop := ∀ a ∉ S, ∀ g, s'.links g a = s.links g a

lemma Holds.notMem_ctxIds (hs : Holds s (plug C (node a l r))) : a ∉ ctxIds C := by
  have hnodup := hs.nodup
  rw [ids_plug] at hnodup
  exact disjoint_left.mp (nodup_add.mp hnodup).2.2 (mem_cons_self _ _)

/-- A node hangs on one side of its parent only. -/
lemma Holds.child_eq_iff {f : Frame Id} (hs : Holds s (plug (f :: C) (node a l r))) :
    s.links (.child d) f.node = a ↔ d = f.side := by
  obtain ⟨-, hnear, hfar, -, -⟩ := (rep_plug.mp hs.rep).1
  have hctx := hs.notMem_ctxIds
  constructor
  · intro heq
    by_contra hd
    have hflip : d = f.side.flip := by
      revert hd
      cases d <;> cases f.side <;> simp [Side.flip]
    rw [hflip, hfar] at heq
    cases htop : top f.sib with
    | none =>
      rw [htop] at heq
      exact hctx (heq ▸ mem_cons_self _ _)
    | some b =>
      rw [htop] at heq
      have hb : a ∈ ids f.sib := heq ▸ mem_ids_of_top htop
      exact hctx (mem_near hb)
  · rintro rfl
    exact hnear

/-! ### Replacing a node -/

lemma takeChild_eq (h : s.links (.child d) old = (top t).getD old) (hold : top t ≠ some old) :
    takeChild s d old new = { s with links := adopt s.links d new (top t) } := by
  rw [takeChild, h]
  cases htop : top t with
  | none => exact if_pos rfl
  | some b =>
    rw [htop] at hold
    exact if_neg fun heq => hold (congrArg some heq)

section

variable (hs : Holds s (plug C (node old l r))) (hnew : new ∉ ids (plug C (node old l r)))

include hs hnew

/-- The first part of `prio_tree_replace`: `new` is in the place of `old`, without its children. -/
lemma relink_spec :
    ∃ m, relink (s.initNode new) old new =
        some { s with links := m, prioTreeNode := top (plug C (node new l r)) } ∧
      Rep m none (plug C (node new nil nil)) ∧ ∀ a ∉ new ::ₘ ctxIds C, ∀ g,
        m g a = s.links g a := by
  obtain ⟨-, hparent, -, -, -, -⟩ := rep_plug.mp hs.rep
  have hctx := hs.notMem_ctxIds
  have hrep := hs.rep.init hnew
  have hnodup := hs.nodup
  rw [ids_plug, ids, cons_add, mem_cons, mem_add, not_or, not_or] at hnew
  have hparent' : (s.initNode new).parent old = (owner none C).getD old :=
    (s.links.init_of_ne _ (Ne.symm hnew.1)).trans hparent
  cases C with
  | nil =>
    have hroot : (s.initNode new).isRoot old := hparent'
    have htop : (s.initNode new).prioTreeNode = some old := hs.root
    rw [relink, if_pos hroot, if_neg (not_not.mpr htop)]
    have hchild : ∀ d, ((s.initNode new).set .parent new new).links (.child d) new = new := by
      intro d
      have hd : Field.child d ≠ .parent := by simp
      rw [State.set_links, State.initNode_links, set_of_field_ne _ _ _ _ hd, init_self]
    refine ⟨_, rfl, ⟨set_self .., hchild _, hchild _, trivial, trivial⟩, ?_⟩
    intro a ha g
    have hne : a ≠ new := fun heq => ha (heq ▸ mem_cons_self _ _)
    rw [State.set_links, State.initNode_links, set_of_ne _ _ _ _ hne, init_of_ne _ _ hne]
  | cons f D =>
    have hf : f.node ∈ ctxIds (f :: D) := mem_cons_self _ _
    have hfnew : f.node ≠ new := ne_of_mem_of_not_mem hf hnew.2.2
    have hroot : ¬ (s.initNode new).isRoot old := by
      intro heq
      exact hctx ((heq.symm.trans hparent' : old = f.node) ▸ hf)
    have hp : (s.initNode new).parent old = f.node := hparent'
    -- the side on which `old` hangs
    have hside : ((s.initNode new).set .parent new f.node).left f.node = old ↔
        Side.left = f.side := by
      have hleft : ((s.initNode new).set .parent new f.node).left f.node =
          s.links (.child .left) f.node := by
        rw [State.left, State.set_links, State.initNode_links, set_of_ne _ _ _ _ hfnew,
          init_of_ne _ _ hfnew]
      rw [hleft]
      exact hs.child_eq_iff
    have hrelink : relink (s.initNode new) old new =
        some (((s.initNode new).set .parent new f.node).set (.child f.side) f.node new) := by
      rw [relink, if_neg hroot, hp]
      cases hfs : f.side with
      | left => rw [if_pos (hside.mpr hfs.symm)]
      | right => rw [if_neg fun h => by rw [← hside.mp h] at hfs; cases hfs]
    have htop : s.prioTreeNode = top (plug (f :: D) (node new l r)) :=
      hs.root.trans (top_plug_cons ..)
    refine ⟨((s.links.init new).set .parent new f.node).set (.child f.side) f.node new, ?_, ?_, ?_⟩
    · rw [hrelink, ← htop]
      rfl
    · rw [set_comm _ _ _ hfnew.symm]
      apply hrep.attach (rep_init_self ..)
      rw [ids_plug] at hnodup
      exact nodup_cons.mpr ⟨hnew.2.2, (nodup_add.mp hnodup).2.1⟩
    · intro a ha g
      rw [mem_cons, not_or] at ha
      rw [set_of_ne _ _ _ _ (ne_of_mem_of_not_mem hf ha.2).symm, set_of_ne _ _ _ _ ha.1,
        init_of_ne _ _ ha.1]

/-- `prio_tree_replace` puts a node that is not in the tree in the place of one that is. The links
of the latter stay. -/
lemma prioTreeReplace_spec :
    ∃ s', prioTreeReplace s old new = some s' ∧ Holds s' (plug C (node new l r)) ∧ Kept s s' ∧
      (∀ g, s'.links g old = s.links g old) ∧
      SameOff (new ::ₘ (ids (node old l r) + ctxIds C)) s s' := by
  obtain ⟨m, hrelink, hrep, hothers⟩ := relink_spec hs hnew
  obtain ⟨-, -, hleft, hright, hl, hr⟩ := rep_plug.mp hs.rep
  have hnodup : (old ::ₘ new ::ₘ (ids l + ids r + ctxIds C)).Nodup := by
    rw [cons_swap, ← cons_add, ← ids, ← ids_plug]
    exact nodup_cons.mpr ⟨hnew, hs.nodup⟩
  obtain ⟨hold, hnodup⟩ := nodup_cons.mp hnodup
  obtain ⟨hnew', hrest⟩ := nodup_cons.mp hnodup
  obtain ⟨hlr, hC, hdisjC⟩ := nodup_add.mp hrest
  obtain ⟨hnl, hnr, hdisj⟩ := nodup_add.mp hlr
  -- the children are adopted one after the other
  have hsame : ∀ a ∈ ids l + ids r, ∀ g, m g a = s.links g a := by
    intro a ha
    apply hothers
    rw [mem_cons, not_or]
    exact ⟨ne_of_mem_of_not_mem (mem_add.mpr (.inl ha)) hnew', disjoint_left.mp hdisjC ha⟩
  have hrepl : Rep m (some old) l := hl.congr fun a ha => hsame a (mem_add.mpr (.inl ha))
  have hrepr : Rep (adopt m .left new (top l)) (some old) r := by
    apply hr.congr
    intro a ha g
    rw [adopt_of_ne, hsame a (mem_add.mpr (.inr ha))]
    · rintro rfl
      exact hnew' (mem_add.mpr (.inl (mem_add.mpr (.inr ha))))
    · exact fun htop => disjoint_right.mp hdisj ha (mem_ids_of_top htop)
  have hfirst : Rep (adopt m .left new (top l)) none (plug (⟨.left, new, nil⟩ :: C) l) := by
    apply Rep.adopt hrep hrepl
    rw [ctxIds, ids, zero_add, add_cons]
    exact nodup_of_le (cons_le_cons _ (Multiset.add_le_add_right (le_add_right _ _))) hnodup
  have hboth : Rep (adopt (adopt m .left new (top l)) .right new (top r)) none
      (plug (⟨.right, new, l⟩ :: C) r) := by
    apply Rep.adopt hfirst hrepr
    rwa [ctxIds, add_cons, ← add_assoc, add_comm (ids r)]
  have hoff : ∀ a ∉ new ::ₘ (ids l + ids r + ctxIds C), ∀ g,
      adopt (adopt m .left new (top l)) .right new (top r) g a = s.links g a := by
    intro a ha g
    rw [mem_cons, mem_add, mem_add, not_or, not_or, not_or] at ha
    rw [adopt_of_ne ha.1 fun htop => ha.2.1.2 (mem_ids_of_top htop),
      adopt_of_ne ha.1 fun htop => ha.2.1.1 (mem_ids_of_top htop), hothers]
    rw [mem_cons, not_or]
    exact ⟨ha.1, ha.2.2⟩
  have hcall : prioTreeReplace s old new = some { s with
      links := adopt (adopt m .left new (top l)) .right new (top r)
      prioTreeNode := top (plug C (node new l r)) } := by
    rw [mem_cons, mem_add, mem_add, not_or, not_or, not_or] at hold
    have hkeep : ∀ g, m g old = s.links g old := hothers old (by simp [hold])
    have hl' : top l ≠ some old := fun htop => hold.2.1.1 (mem_ids_of_top htop)
    have hr' : top r ≠ some old := fun htop => hold.2.1.2 (mem_ids_of_top htop)
    rw [prioTreeReplace, hrelink, map_some]
    rw [takeChild_eq (s := { s with links := m, prioTreeNode := top (plug C (node new l r)) })
      ((hkeep _).trans hleft) hl']
    have hright' : adopt m .left new (top l) (.child .right) old = (top r).getD old :=
      (adopt_of_ne hold.1 hl').trans ((hkeep _).trans hright)
    exact congrArg some (takeChild_eq (s := { s with
      links := adopt m .left new (top l)
      prioTreeNode := top (plug C (node new l r)) }) hright' hr')
  refine ⟨_, hcall, ⟨hboth, rfl, ?_⟩, ⟨fun _ => rfl, rfl⟩, hoff old hold, ?_⟩
  · rw [ids_plug, ids, cons_add]
    exact hnodup
  · intro a ha
    apply hoff
    rw [ids, cons_add, cons_swap] at ha
    exact fun hmem => ha (mem_cons_of_mem hmem)

end

/-! ### Insertion -/

section Insert

variable {key : Id → Key} {bits d : Nat} {near far : BinaryTree Id} {side : Side} {up down : Id}

lemma Holds.child (hs : Holds s (plug C (branch side a near far))) :
    s.links (.child side) a = (top near).getD a := by
  obtain ⟨-, hnode⟩ := rep_plug.mp hs.rep
  exact (rep_branch.mp hnode).2.1

lemma Holds.child_eq_self (hs : Holds s (plug C (branch side a near far))) :
    s.links (.child side) a = a ↔ near = nil := by
  rw [hs.child]
  cases near with
  | nil => exact ⟨fun _ => rfl, fun _ => rfl⟩
  | node b x y =>
    refine ⟨fun heq => ?_, nofun⟩
    have hnodup := hs.nodup
    rw [ids_plug, ids_branch, cons_add] at hnodup
    refine absurd ?_ (nodup_cons.mp hnodup).1
    obtain rfl : b = a := heq
    exact mem_add.mpr (.inl (mem_add.mpr (.inl (mem_cons_self _ _))))

lemma hang_spec (hs : Holds s (plug C (branch side a nil far)))
    (hnew : new ∉ ids (plug C (branch side a nil far))) :
    Holds (hang s side a new) (plug C (branch side a (node new nil nil) far)) ∧
      Kept s (hang s side a new) := by
  have hplug : ∀ u, plug C (branch side a u far) = plug (⟨side, a, far⟩ :: C) u := fun _ => rfl
  have hrep : Rep (s.links.init new) none (plug (⟨side, a, far⟩ :: C) nil) := hs.rep.init hnew
  have hnodup : (ids (node new nil nil) + ctxIds (⟨side, a, far⟩ :: C)).Nodup := by
    have hs' := hs.nodup
    rw [hplug, ids_plug, ids, zero_add] at hs' hnew
    exact nodup_cons.mpr ⟨hnew, hs'⟩
  refine ⟨⟨hrep.attach (rep_init_self ..) hnodup, hs.root.trans ?_, ?_⟩, fun _ => rfl, rfl⟩
  · exact top_plug_cons ⟨side, a, far⟩ C nil (node new nil nil)
  · rw [hplug, ids_plug]
    exact hnodup

lemma exchanges_iff (cur x : Id) (hkey : ∀ x, keyOf (s.getIndex x) = key x) :
    ((s.getIndex cur).2 < (s.getIndex x).2 ∨
      ((s.getIndex cur).2 = (s.getIndex x).2 ∧ (s.getIndex x).1 < (s.getIndex cur).1)) ↔
      key cur < key x := by
  rw [← hkey, ← hkey, key_lt_iff]
  rfl

/-- The exchange of `prio_tree_insert`: of the node of the tree and the new one the larger one is
in the tree after it, and the other one goes on to the side of its bit. -/
lemma exchange_spec (bits d : Nat) (hkey : ∀ x, keyOf (s.getIndex x) = key x)
    (hs : Holds s (plug C (node cur l r))) (hx : x ∉ ids (plug C (node cur l r))) :
    ∃ s' up down side near far, exchange s cur x (s.getIndex x).1 (s.getIndex x).2 =
        some (s', up, down, s.getIndex down) ∧ Kept s s' ∧
      node cur l r = branch side cur near far ∧ Holds s' (plug C (branch side up near far)) ∧
      down ∉ ids (plug C (branch side up near far)) ∧ (down = cur ∨ down = x) ∧
      bitAt bits d (key down) = Side.bit side ∧
      ins key (bitAt bits) d x (node cur l r) =
        branch side up (ins key (bitAt bits) (d + 1) down near) far := by
  have hiff := exchanges_iff cur x hkey
  rw [exchange, ins]
  by_cases hlt : key cur < key x
  · obtain ⟨s', hcall, hs', hkept, -, -⟩ := prioTreeReplace_spec hs hx
    have hdown : cur ∉ ids (plug C (node x l r)) := by
      have hnodup := hs.nodup
      rw [ids_plug, ids, cons_add] at hnodup hx ⊢
      rw [mem_cons, not_or] at hx ⊢
      exact ⟨fun heq => hx.1 heq.symm, (nodup_cons.mp hnodup).1⟩
    rw [if_pos (hiff.mpr hlt), hcall, if_pos hlt]
    cases hbit : bitAt bits d (key cur) with
    | false => exact ⟨s', x, cur, .left, l, r, rfl, hkept, rfl, hs', hdown, .inl rfl, hbit, rfl⟩
    | true => exact ⟨s', x, cur, .right, r, l, rfl, hkept, rfl, hs', hdown, .inl rfl, hbit, rfl⟩
  · rw [if_neg (mt hiff.mp hlt), if_neg hlt]
    cases hbit : bitAt bits d (key x) with
    | false => exact ⟨s, cur, x, .left, l, r, rfl, .refl s, rfl, hs, hx, .inr rfl, hbit, rfl⟩
    | true => exact ⟨s, cur, x, .right, r, l, rfl, .refl s, rfl, hs, hx, .inr rfl, hbit, rfl⟩

lemma side_of_mask (hvalid : (key down).Valid bits) (hbits : bits ≤ bitsPerLong)
    (hkey : keyOf (s.getIndex down) = key down) (hbit : bitAt bits d (key down) = Side.bit side) :
    (if (if decide (bits ≤ d) then indexSize (s.getIndex down).1 (s.getIndex down).2
        else (s.getIndex down).1) &&& maskAt bits d ≠ 0 then Side.right else .left) = side := by
  have hiff := and_maskAt (d := d) hvalid hbits
  rw [← hkey, radix_keyOf, heap_keyOf, hkey, hbit] at hiff
  cases side with
  | left => exact if_neg (mt hiff.mp nofun)
  | right => exact if_pos (hiff.mpr rfl)

variable (hkey : ∀ x, keyOf (s.getIndex x) = key x) (hbits : bits ≤ bitsPerLong)
  (hs : Holds s (plug C (node cur l r))) {res : Id}

include hkey hbits hs

/-- The loop of `prio_tree_insert`, for a node whose indices are not in the tree. -/
lemma insertLoop_spec (hx : x ∉ ids (plug C (node cur l r)))
    (hvalid : ∀ y ∈ x ::ₘ ids (node cur l r), (key y).Valid bits)
    (hpst : Pst key (bitAt bits) d (node cur l r))
    (hagree : ∀ y ∈ ids (node cur l r), Agree (bitAt bits) d (key y) (key x))
    (hne : ∀ y ∈ ids (node cur l r), key y ≠ key x) (hfuel : (ids (node cur l r)).card ≤ fuel) :
    ∃ s', insertLoop res fuel s cur x (s.getIndex x).1 (s.getIndex x).2 (maskAt bits d)
        (decide (bits ≤ d)) = some (s', res) ∧
      Holds s' (plug C (ins key (bitAt bits) d x (node cur l r))) ∧ Kept s s' := by
  induction fuel generalizing s cur l r C d x with
  | zero =>
    rw [ids, card_cons] at hfuel
    cases hfuel
  | succ fuel ih =>
    have hcur : cur ∈ ids (node cur l r) := mem_cons_self _ _
    have hindex : s.getIndex cur ≠ ((s.getIndex x).1, (s.getIndex x).2) := by
      intro heq
      apply hne cur hcur
      rw [← hkey, ← hkey, heq]
    obtain ⟨s₁, up, down, side, near, far, hexch, hkept, hsplit, hs₁, hdown, hcase, hbit, hins⟩ :=
      exchange_spec bits d hkey hs hx
    rw [hins]
    rw [hsplit] at hvalid hpst hagree hne hfuel
    rw [ids_branch] at hvalid hagree hne hfuel
    obtain ⟨hnear, -, hpnear, -⟩ := pst_branch.mp hpst
    have hdownvalid : (key down).Valid bits := by
      apply hvalid
      rcases hcase with rfl | rfl
      · exact mem_cons_of_mem (mem_cons_self _ _)
      · exact mem_cons_self _ _
    rw [insertLoop, if_neg (maskAt_ne_zero bits d), if_neg hindex, hexch, bind_some]
    dsimp only
    rw [side_of_mask hdownvalid hbits (hkey down) hbit]
    cases near with
    | nil =>
      rw [if_pos (hs₁.child_eq_self.mpr rfl)]
      obtain ⟨hholds, hkept'⟩ := hang_spec hs₁ hdown
      exact ⟨_, rfl, hholds, hkept.trans hkept'⟩
    | node b u v =>
      have hb : b ∈ ids (node b u v) := mem_cons_self _ _
      -- `down` has the bits of what is on its side, and is not among it
      have hagree' : ∀ y ∈ ids (node b u v), Agree (bitAt bits) (d + 1) (key y) (key down) := by
        intro y hy
        refine Agree.succ (fun i hi => ?_) ((hnear y hy).2.trans hbit.symm)
        rw [hagree y (mem_near hy) i hi]
        rcases hcase with rfl | rfl
        · exact (hagree _ (mem_cons_self _ _) i hi).symm
        · rfl
      have hne' : ∀ y ∈ ids (node b u v), key y ≠ key down := by
        intro y hy
        rcases hcase with rfl | rfl
        · exact (hnear y hy).1.ne
        · exact hne y (mem_near hy)
      have hbvalid := hvalid b (mem_cons_of_mem (mem_near hb))
      have hdepth := lt_of_agree hbits hbvalid hdownvalid (hne' b hb) (hagree' b hb)
      have hchild : s₁.links (.child side) up = b := hs₁.child
      rw [if_neg (mt hs₁.child_eq_self.mp (by simp)), hchild, nextMask_maskAt hdepth]
      have hkey₁ : ∀ x, keyOf (s₁.getIndex x) = key x := fun x => by
        rw [hkept.getIndex, hkey]
      have hvalid' : ∀ y ∈ down ::ₘ ids (node b u v), (key y).Valid bits := by
        intro y hy
        rcases mem_cons.mp hy with rfl | hy
        · exact hdownvalid
        · exact hvalid y (mem_cons_of_mem (mem_near hy))
      have hcard : (ids (node b u v)).card ≤ fuel := by
        rw [card_cons, card_add] at hfuel
        omega
      obtain ⟨s', hcall, hholds, hkept'⟩ := ih (C := ⟨side, up, far⟩ :: C) hkey₁ hs₁ hdown
        hvalid' hpnear hagree' hne' hcard
      rw [hkept.getIndex] at hcall
      exact ⟨s', hcall, hholds, hkept.trans hkept'⟩

/-- The loop of `prio_tree_insert`, for a node whose indices are those of a node `y` of the tree:
it finds `y` and changes nothing. -/
lemma insertLoop_found (hvalid : ∀ y ∈ ids (node cur l r), (key y).Valid bits)
    (hpst : Pst key (bitAt bits) d (node cur l r))
    (hagree : ∀ z ∈ ids (node cur l r), Agree (bitAt bits) d (key z) (key x))
    (hy : y ∈ ids (node cur l r)) (hxy : key y = key x) {mask : Nat} {sizeFlag : Bool}
    (hmask : mask ≠ 0)
    (hpos : key cur ≠ key x → mask = maskAt bits d ∧ sizeFlag = decide (bits ≤ d))
    (hfuel : (ids (node cur l r)).card ≤ fuel) :
    insertLoop res fuel s cur x (s.getIndex x).1 (s.getIndex x).2 mask sizeFlag = some (s, y) := by
  induction fuel generalizing cur l r C d mask sizeFlag with
  | zero =>
    rw [ids, card_cons] at hfuel
    cases hfuel
  | succ fuel ih =>
    rw [insertLoop, if_neg hmask]
    rcases mem_cons.mp hy with rfl | hbelow
    · have hindex : s.getIndex y = ((s.getIndex x).1, (s.getIndex x).2) := by
        rw [← hkey, ← hkey] at hxy
        exact keyOf_inj.mp hxy
      rw [if_pos hindex]
    · -- `y` is below `cur`, on the side of the bit that it has in common with `x`
      obtain ⟨side, near, far, hsplit, hynear⟩ : ∃ side near far,
          node cur l r = branch side cur near far ∧ y ∈ ids near := by
        rcases mem_add.mp hbelow with hl | hr
        · exact ⟨.left, l, r, rfl, hl⟩
        · exact ⟨.right, r, l, rfl, hr⟩
      rw [hsplit] at hs hvalid hpst hagree hfuel
      rw [ids_branch] at hvalid hagree hfuel
      obtain ⟨hnear, -, hpnear, -⟩ := pst_branch.mp hpst
      have hlt : key x < key cur := hxy ▸ (hnear y hynear).1
      have hbit : bitAt bits d (key x) = Side.bit side := hxy ▸ (hnear y hynear).2
      have hxvalid : (key x).Valid bits := hxy ▸ hvalid y (mem_near hynear)
      have hindex : s.getIndex cur ≠ ((s.getIndex x).1, (s.getIndex x).2) := by
        intro heq
        apply hlt.ne'
        rw [← hkey, ← hkey, heq]
      have hexch : exchange s cur x (s.getIndex x).1 (s.getIndex x).2 =
          some (s, cur, x, (s.getIndex x).1, (s.getIndex x).2) :=
        if_neg (mt (exchanges_iff cur x hkey).mp (not_lt.mpr hlt.le))
      obtain ⟨rfl, rfl⟩ := hpos hlt.ne'
      rw [if_neg hindex, hexch, bind_some]
      dsimp only
      rw [side_of_mask hxvalid hbits (hkey x) hbit]
      cases near with
      | nil => cases hynear
      | node b u v =>
        have hagree' : ∀ z ∈ ids (node b u v), Agree (bitAt bits) (d + 1) (key z) (key x) :=
          fun z hz => (hagree z (mem_near hz)).succ ((hnear z hz).2.trans hbit.symm)
        have hchild : s.links (.child side) cur = b := hs.child
        have hcard : (ids (node b u v)).card ≤ fuel := by
          rw [card_cons, card_add] at hfuel
          omega
        rw [if_neg (mt hs.child_eq_self.mp (by simp)), hchild]
        apply ih (C := ⟨side, cur, far⟩ :: C) hs (fun z hz => hvalid z (mem_near hz)) hpnear hagree'
          hynear (nextMask_ne_zero _ _) ?_ hcard
        intro hne
        have hb : b ∈ ids (node b u v) := mem_cons_self _ _
        have hdepth := lt_of_agree hbits (hvalid b (mem_near hb)) hxvalid hne (hagree' b hb)
        rw [nextMask_maskAt hdepth]
        exact ⟨rfl, rfl⟩

end Insert

/-! ### Removal -/

section Remove

variable {key : Id → Key} {near far : BinaryTree Id} {side : Side} {b c : Id} {S : Multiset Id}

/-- The test of `prio_tree_remove`. -/
def Heavier (key : Id → Key) (x y : Id) : Prop := (key y).heap ≤ (key x).heap

instance (key : Id → Key) : DecidableRel (Heavier key) := fun _ _ =>
  inferInstanceAs (Decidable (_ ≤ _))

/-- One pass of the loop down, to the child that comes up. -/
lemma descendLoop_step (hkey : ∀ x, keyOf (s.getIndex x) = key x) {x y : BinaryTree Id}
    (hs : Holds s (plug C (branch side a (node b x y) far)))
    (hchosen : ∀ c, top far = some c →
      (side = .left ∧ Heavier key b c) ∨ (side = .right ∧ ¬ Heavier key c b)) :
    descendLoop s (fuel + 1) a = descendLoop s fuel b := by
  have hheap : ∀ x, (s.getIndex x).2 = (key x).heap := fun x => by rw [← hkey]; rfl
  have hne : s.links (.child side) a ≠ a := mt hs.child_eq_self.mp nofun
  have hchild : s.links (.child side) a = b := hs.child
  have hfar : s.links (.child side.flip) a = (top far).getD a :=
    (rep_branch.mp (rep_plug.mp hs.rep).2).2.2.1
  have hfar_ne : ∀ c, top far = some c → c ≠ a := by
    rintro c hc rfl
    have hnodup := hs.nodup
    rw [ids_plug, ids_branch, cons_add] at hnodup
    refine (nodup_cons.mp hnodup).1 ?_
    exact mem_add.mpr (.inl (mem_add.mpr (.inr (mem_ids_of_top hc))))
  rw [descendLoop]
  cases side with
  | left =>
    have hleft : ¬ s.leftEmpty a := hne
    have hl : s.left a = b := hchild
    cases hc : top far with
    | none =>
      have hright : s.rightEmpty a := by
        rw [hc] at hfar
        exact hfar
      rw [if_neg hleft, if_pos hright, hl]
    | some c =>
      rw [hc] at hfar
      have hr : s.right a = c := hfar
      have hright : ¬ s.rightEmpty a := fun h => hfar_ne c hc (hr.symm.trans h)
      obtain ⟨-, hheavy⟩ | ⟨hcontra, -⟩ := hchosen c hc
      · rw [if_neg hleft, if_neg hright, hl, hr, hheap, hheap]
        exact if_pos hheavy
      · cases hcontra
  | right =>
    have hright : ¬ s.rightEmpty a := hne
    have hr : s.right a = b := hchild
    cases hc : top far with
    | none =>
      have hleft : s.leftEmpty a := by
        rw [hc] at hfar
        exact hfar
      rw [if_pos hleft, if_neg hright, hr]
    | some c =>
      rw [hc] at hfar
      have hl : s.left a = c := hfar
      have hleft : ¬ s.leftEmpty a := fun h => hfar_ne c hc (hl.symm.trans h)
      obtain ⟨hcontra, -⟩ | ⟨-, hheavy⟩ := hchosen c hc
      · cases hcontra
      · rw [if_neg hleft, if_neg hright, hl, hr, hheap, hheap]
        exact if_neg hheavy

/-- The loop down ends at a leaf; moving the nodes on the way up by one place drops the top. -/
lemma descendLoop_spec (hkey : ∀ x, keyOf (s.getIndex x) = key x)
    (hs : Holds s (plug C (node a l r))) (hfuel : (ids (node a l r)).card ≤ fuel) :
    ∃ D cur, descendLoop s fuel a = some cur ∧ node a l r = plug D (node cur nil nil) ∧
      climb D cur nil = (a, dropTop (Heavier key) (node a l r)) ∧
      D.length < (ids (node a l r)).card := by
  induction fuel generalizing a l r C with
  | zero =>
    rw [ids, card_cons] at hfuel
    cases hfuel
  | succ fuel ih =>
    rcases dropTop_cases (Heavier key) a l r with
      ⟨rfl, rfl, hdrop⟩ | ⟨side, b, x, y, far, hsplit, hdrop, hchosen⟩
    · have hside : ∀ side, s.links (.child side) a = a := by
        intro side
        have hs' : Holds s (plug C (branch side a nil nil)) := by cases side <;> exact hs
        exact hs'.child_eq_self.mpr rfl
      have hleft : s.leftEmpty a := hside .left
      have hright : s.rightEmpty a := hside .right
      refine ⟨[], a, ?_, rfl, ?_, ?_⟩
      · rw [descendLoop, if_pos hleft, if_pos hright]
      · rw [hdrop]
        rfl
      · rw [ids, card_cons]
        exact Nat.succ_pos _
    · rw [hsplit] at hs hfuel
      rw [hdrop, hsplit, ids_branch]
      rw [ids_branch, card_cons, card_add] at hfuel
      rw [descendLoop_step hkey hs hchosen]
      obtain ⟨D, cur, hcall, hplug, hclimb, hlen⟩ :=
        ih (C := ⟨side, a, far⟩ :: C) hs (by omega)
      refine ⟨D ++ [⟨side, a, far⟩], cur, hcall, ?_, ?_, ?_⟩
      · rw [plug_append, ← hplug]
        rfl
      · rw [climb_concat, hclimb]
      · rw [List.length_append, card_cons, card_add, List.length_singleton]
        omega

lemma prioTreeReplace_branch (hs : Holds s (plug C (branch side old near far)))
    (hnew : new ∉ ids (plug C (branch side old near far))) :
    ∃ s', prioTreeReplace s old new = some s' ∧ Holds s' (plug C (branch side new near far)) ∧
      Kept s s' ∧ (∀ g, s'.links g old = s.links g old) ∧
      SameOff (new ::ₘ (ids (branch side old near far) + ctxIds C)) s s' := by
  cases side with
  | left => exact prioTreeReplace_spec hs hnew
  | right => exact prioTreeReplace_spec hs hnew

lemma SameOff.trans {s'' : State} (h : SameOff S s s') (h' : SameOff S s' s'') :
    SameOff S s s'' := fun a ha g => (h' a ha g).trans (h a ha g)

lemma SameOff.mono {S' : Multiset Id} (h : SameOff S s s') (hsub : ∀ a ∈ S, a ∈ S') :
    SameOff S' s s' := fun a ha g => h a (fun hmem => ha (hsub a hmem)) g

/-- The loop up: the free node `cur` takes the place of its former parent, and so on up to `a`. -/
lemma climbLoop_spec (hs : Holds s (plug (D ++ C) t)) (hcur : cur ∉ ids (plug (D ++ C) t))
    (hparent : ∀ f E, D = f :: E → s.parent cur = f.node) (ha : (climb D cur t).1 = a)
    (hfuel : D.length < fuel) :
    ∃ s', climbLoop a fuel s cur = some s' ∧ Holds s' (plug C (climb D cur t).2) ∧ Kept s s' ∧
      SameOff (cur ::ₘ ids (plug (D ++ C) t)) s s' := by
  induction D generalizing s cur t fuel with
  | nil =>
    obtain _ | fuel := fuel
    · omega
    refine ⟨s, ?_, hs, .refl s, fun _ _ _ => rfl⟩
    exact if_pos ha
  | cons f D ih =>
    obtain _ | fuel := fuel
    · omega
    have hp : s.parent cur = f.node := hparent f D rfl
    have hids : ids (plug (f :: D ++ C) t) =
        f.node ::ₘ (ids t + ids f.sib + ctxIds (D ++ C)) := by
      rw [List.cons_append, plug, ids_plug, Frame.fill, ids_branch, cons_add]
    have hne : cur ≠ a := by
      rintro rfl
      apply hcur
      rw [ids_plug, ctxIds_append, ← ha]
      exact mem_add.mpr (.inr (mem_add.mpr (.inl (climb_mem ..))))
    have hs' : Holds s (plug (D ++ C) (branch f.side f.node t f.sib)) := hs
    obtain ⟨s₁, hcall, hs₁, hkept, hlinks, hoff⟩ := prioTreeReplace_branch hs' hcur
    have hids₁ : ids (plug (D ++ C) (branch f.side cur t f.sib)) =
        cur ::ₘ (ids t + ids f.sib + ctxIds (D ++ C)) := by
      rw [ids_plug, ids_branch, cons_add]
    have hnodup := hs.nodup
    rw [hids] at hnodup hcur
    have hfree : f.node ∉ ids (plug (D ++ C) (branch f.side cur t f.sib)) := by
      rw [hids₁, mem_cons, not_or]
      exact ⟨fun heq => hcur (heq ▸ mem_cons_self _ _),
        (nodup_cons.mp hnodup).1⟩
    -- the node that is free now still knows its parent
    have hparent₁ : ∀ f' E, D = f' :: E → s₁.parent f.node = f'.node := by
      rintro f' E rfl
      exact (hlinks .parent).trans (rep_plug.mp hs.rep).1.1
    obtain ⟨s', hcall', hs'', hkept', hoff'⟩ :=
      ih hs₁ hfree hparent₁ ha (Nat.lt_of_succ_lt_succ hfuel)
    rw [climbLoop, if_neg hne, hp, hcall]
    rw [ids_branch, cons_add, ← hids] at hoff
    rw [hids₁, cons_swap, ← hids] at hoff'
    exact ⟨s', hcall', hs'', hkept.trans hkept', hoff.trans hoff'⟩

lemma detach_spec {f : Frame Id} (hs : Holds s (plug (f :: C) (node cur nil nil))) :
    ∃ s', (if s.right (s.parent cur) = cur then s.set (.child .right) (s.parent cur) (s.parent cur)
        else s.set (.child .left) (s.parent cur) (s.parent cur)) = s' ∧
      Holds s' (plug (f :: C) nil) ∧ Kept s s' ∧ (∀ g, s'.links g cur = s.links g cur) ∧
      SameOff (ctxIds (f :: C)) s s' := by
  have hparent : s.parent cur = f.node := (rep_plug.mp hs.rep).2.1
  have hnodup := hs.nodup
  rw [ids_plug] at hnodup
  obtain ⟨-, hnC, -⟩ := nodup_add.mp hnodup
  have hcut : (if s.right f.node = cur then s.set (.child .right) f.node f.node
      else s.set (.child .left) f.node f.node) = s.set (.child f.side) f.node f.node := by
    have hside : s.right f.node = cur ↔ Side.right = f.side := hs.child_eq_iff
    cases hfs : f.side with
    | left => rw [if_neg fun h => by rw [← hside.mp h] at hfs; cases hfs]
    | right => rw [if_pos (hside.mpr hfs.symm)]
  rw [hparent]
  refine ⟨_, hcut, ⟨hs.rep.detach hnC, ?_, ?_⟩, ⟨fun _ => rfl, rfl⟩, ?_, ?_⟩
  · exact hs.root.trans (top_plug_cons ..)
  · rw [ids_plug, ids, zero_add]
    exact hnC
  · intro g
    apply set_of_ne
    rintro rfl
    exact hs.notMem_ctxIds (mem_cons_self _ _)
  · intro b hb g
    apply set_of_ne
    rintro rfl
    exact hb (mem_cons_self _ _)

lemma prioTreeRemove_spec (hkey : ∀ x, keyOf (s.getIndex x) = key x)
    (hs : Holds s (plug C (node a l r))) (hfuel : (ids (node a l r)).card ≤ fuel) :
    ∃ s', prioTreeRemove fuel s a = some s' ∧
      Holds s' (plug C (dropTop (Heavier key) (node a l r))) ∧
      (∀ x, s'.getIndex x = s.getIndex x) ∧
      s'.indexBits = (if s'.prioTreeNode = none then 1 else s.indexBits) ∧
      SameOff (ids (plug C (node a l r))) s s' := by
  obtain ⟨D, cur, hdown, hplug, hclimb, hlen⟩ := descendLoop_spec hkey hs hfuel
  rw [prioTreeRemove, hdown, bind_some]
  rw [hplug, ← plug_append] at hs
  have hparent : s.parent cur = (owner none (D ++ C)).getD cur := (rep_plug.mp hs.rep).2.1
  cases hDC : D ++ C with
  | nil =>
    -- the node is alone
    obtain ⟨rfl, rfl⟩ := List.append_eq_nil_iff.mp hDC
    have hroot : s.isRoot cur := hparent
    have htop : s.prioTreeNode = some cur := hs.root
    have hdrop : dropTop (Heavier key) (node a l r) = nil := (congrArg Prod.snd hclimb).symm
    rw [if_pos hroot, if_neg (not_not.mpr htop), hdrop]
    exact ⟨_, rfl, ⟨trivial, rfl, nodup_zero⟩, fun _ => rfl, rfl, fun _ _ _ => rfl⟩
  | cons f E =>
    rw [hDC] at hs hparent
    have hfree := hs.notMem_ctxIds
    have hroot : ¬ s.isRoot cur := by
      intro heq
      apply hfree
      rw [show cur = f.node from heq.symm.trans hparent]
      exact mem_cons_self _ _
    obtain ⟨s₁, hcut, hs₁, hkept, hlinks, hoff⟩ := detach_spec hs
    rw [← hDC] at hs₁
    have hcur : cur ∉ ids (plug (D ++ C) nil) := by
      rw [ids_plug, ids, zero_add, hDC]
      exact hfree
    have hparent₁ : ∀ f' E', D = f' :: E' → s₁.parent cur = f'.node := by
      rintro f' E' rfl
      obtain ⟨rfl, -⟩ := List.cons.inj hDC
      exact (hlinks .parent).trans hparent
    have ha : (climb D cur nil).1 = a := congrArg Prod.fst hclimb
    obtain ⟨s', hcall, hs', hkept', hoff'⟩ :=
      climbLoop_spec hs₁ hcur hparent₁ ha (hlen.trans_le hfuel)
    rw [if_neg hroot]
    dsimp only
    rw [hcut]
    rw [hclimb] at hs'
    have hids : ids (plug C (node a l r)) = cur ::ₘ ctxIds (f :: E) := by
      rw [hplug, ← plug_append, hDC, ids_plug, ids, ids, zero_add, cons_add, zero_add]
    rw [ids_plug, ids, zero_add, hDC, ← hids] at hoff'
    -- something is left in the tree
    have hleft : s'.prioTreeNode ≠ none := by
      rw [hs'.root]
      intro hnone
      have hcard := congrArg Multiset.card hids
      have hempty : (ids (plug C (dropTop (Heavier key) (node a l r)))).card = 0 := by
        rw [top_eq_none.mp hnone]
        rfl
      rw [ids_plug, ids_dropTop, card_add] at hempty
      rw [ids_plug, ids, card_add, card_cons, card_cons, ctxIds,
        card_cons] at hcard
      rw [below] at hempty
      omega
    refine ⟨s', hcall, hs', fun x => ?_, ?_, SameOff.trans (hoff.mono ?_) hoff'⟩
    · rw [hkept'.getIndex, hkept.getIndex]
    · rw [if_neg hleft, hkept'.indexBits, hkept.indexBits]
    · intro b hb
      rw [hids]
      exact mem_cons_of_mem hb

end Remove

end R0Kernel.PrioTree
