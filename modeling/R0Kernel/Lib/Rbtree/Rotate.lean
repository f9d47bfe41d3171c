import R0Kernel.Lib.Rbtree.Shape

/-! # Reading, recolouring and rotating

What the memory operations do to a tree seen from the node they work on. -/

namespace R0Kernel.Rbtree

open R0Kernel.RedBlack List ColorTree Mem RbNode

variable {parent a b : Ptr} {c c' : Color} {d : Dir} {t x y : ColorTree Ptr}
  {ctx : List (Frame Ptr)} {m m' : Mem} {p old : Ptr}

@[simp] lemma Mem.store_node_self (m : Mem) (a : Ptr) (r : RbNode) :
    (m.store a r).node a = r := by
  simp [store]

lemma Mem.store_node_of_ne (m : Mem) (r : RbNode) (hne : b ≠ a) :
    (m.store a r).node b = m.node b := by
  simp [store, hne]

lemma Mem.modify_eq (m : Mem) (ha : a ≠ 0) (g : RbNode → RbNode) :
    m.modify a g = some (m.store a (g (m.node a))) := by
  simp [modify, ha]

lemma Mem.modifyIf_eq (m : Mem) (ha : a ≠ 0) (g : RbNode → RbNode) :
    m.modifyIf a g = m.modify a g := by
  simp [modifyIf, ha]

lemma Mem.load_eq (m : Mem) (ha : a ≠ 0) : m.load a = some (m.node a) := by
  simp [load, ha]

/-! ## Reading -/

lemma CtxRep.aligned (h : CtxRep m ctx p) : Aligned (topPtr ctx) := by
  cases ctx with
  | nil => rfl
  | cons f ctx => exact h.2.1

/-- What loading a node of a tree gives. -/
structure Reads (m : Mem) (a parent : Ptr) (c : Color) (d : Dir) (near far : Ptr) : Prop where
  nonnull : a ≠ 0
  aligned : Aligned a
  parent_aligned : Aligned parent
  word : (m.node a).rbParentColor = pack parent c
  near : (m.node a).child d = near
  far : (m.node a).child d.flip = far

namespace Reads

variable {near far : Ptr}

section

variable (h : Reads m a parent c d near far)

include h

lemma load : m.load a = some (m.node a) :=
  m.load_eq h.nonnull

lemma rbParent : (m.node a).rbParent = parent := by
  rw [RbNode.rbParent, h.word, pack_and_not_three h.parent_aligned]

lemma rbColor : (m.node a).rbColor = colorWord c := by
  rw [RbNode.rbColor, h.word, pack_and_one h.parent_aligned]

lemma rbIsRed :
    (m.node a).rbIsRed = decide (c = .red) := by
  rw [RbNode.rbIsRed, h.rbColor]
  cases c <;> rfl

lemma rbIsBlack :
    (m.node a).rbIsBlack = decide (c = .black) := by
  rw [RbNode.rbIsBlack, h.rbColor]
  cases c <;> rfl

end

lemma rbLeft (h : Reads m a parent c .left near far) : (m.node a).rbLeft = near := h.near

lemma rbRight (h : Reads m a parent c .left near far) : (m.node a).rbRight = far := h.far

end Reads

/-! ## Moving the focus -/

lemma Agrees.near (h : Agrees m (plug ctx (.branch d c a x y))) :
    Agrees m (plug (⟨d, c, a, y⟩ :: ctx) x) := h

lemma Agrees.far (h : Agrees m (plug ctx (.branch d c a x y))) :
    Agrees m (plug (⟨d.flip, c, a, x⟩ :: ctx) y) := by
  rw [plug, Frame.fill, branch_flip]
  exact h

lemma Agrees.of_near (h : Agrees m (plug (⟨d, c, a, y⟩ :: ctx) x)) :
    Agrees m (plug ctx (.branch d c a x y)) := h

lemma Agrees.of_far (h : Agrees m (plug (⟨d.flip, c, a, x⟩ :: ctx) y)) :
    Agrees m (plug ctx (.branch d c a x y)) := by
  rw [plug, Frame.fill, branch_flip] at h
  exact h

lemma Agrees.reads (h : Agrees m (plug ctx (.branch d c a x y))) :
    Reads m a (topPtr ctx) c d (ptr x) (ptr y) := by
  obtain ⟨hrep, hctx, _⟩ := agrees_plug.mp h
  obtain ⟨h1, h2, h3, h4, h5, _, _⟩ := rep_branch.mp hrep
  exact ⟨h1, h2, hctx.aligned, h3, h4, h5⟩

lemma Agrees.isRedNode (h : Agrees m (plug ctx t)) :
    isRedNode (ptr t) m = some (decide (t.color = .red)) := by
  by_cases ht : t = .nil
  · subst ht
    rfl
  · obtain ⟨c, a, x, y, rfl⟩ := eq_branch .left ht
    have hr := h.reads
    simp [Rbtree.isRedNode, hr.nonnull, hr.load, hr.rbIsRed]

lemma Agrees.isBlackOrNull (h : Agrees m (plug ctx t)) :
    isBlackOrNull (ptr t) m = some (decide (t.color = .black)) := by
  by_cases ht : t = .nil
  · subst ht
    rfl
  · obtain ⟨c, a, x, y, rfl⟩ := eq_branch .left ht
    have hr := h.reads
    simp [Rbtree.isBlackOrNull, hr.nonnull, hr.load, hr.rbIsBlack]

/-! ## Recolouring -/

/-- The labels of a context, of a node and of its subtrees are distinct. -/
structure Apart (ctx : List (Frame Ptr)) (a : Ptr) (x y : ColorTree Ptr) : Prop where
  ctx_nodup : (labels ctx).Nodup
  label_ctx : a ∉ labels ctx
  near : a ∉ x.inorder
  far : a ∉ y.inorder
  near_nodup : x.inorder.Nodup
  far_nodup : y.inorder.Nodup
  near_ctx : ∀ b ∈ x.inorder, b ∉ labels ctx
  far_ctx : ∀ b ∈ y.inorder, b ∉ labels ctx
  near_far : ∀ b ∈ x.inorder, b ∉ y.inorder

lemma nodup_branch_iff : (labels ctx ++ (branch d c a x y).inorder).Nodup ↔
    Apart ctx a x y := by
  rw [((inorder_branch_perm d c a x y).append_left _).nodup_iff]
  constructor
  · intro h
    simp only [nodup_append, nodup_cons, mem_append, mem_cons] at h
    obtain ⟨hctx, ⟨ha, hx, hy, hxy⟩, hdisj⟩ := h
    exact ⟨hctx, fun h => hdisj a h a (.inl rfl) rfl, fun h => ha (.inl h),
      fun h => ha (.inr h), hx, hy, fun b hb h => hdisj b h b (.inr (.inl hb)) rfl,
      fun b hb h => hdisj b h b (.inr (.inr hb)) rfl, fun b hb h => hxy b hb b h rfl⟩
  · intro h
    simp only [nodup_append, nodup_cons, mem_append, mem_cons]
    refine ⟨h.ctx_nodup, ⟨fun hor => hor.elim h.near h.far, h.near_nodup, h.far_nodup, ?_⟩, ?_⟩
    · rintro b hb _ hy rfl
      exact h.near_far b hb hy
    · rintro b hb _ (rfl | hx | hy) rfl
      · exact h.label_ctx hb
      · exact h.near_ctx b hx hb
      · exact h.far_ctx b hy hb

lemma Agrees.apart (h : Agrees m (plug ctx (.branch d c a x y))) : Apart ctx a x y :=
  nodup_branch_iff.mp (agrees_plug.mp h).2.2

lemma Rep.store (h : Rep m.node parent t) (ha : a ∉ t.inorder) (r : RbNode) :
    Rep (m.store a r).node parent t :=
  h.congr fun _ hb => m.store_node_of_ne r (ne_of_mem_of_not_mem hb ha)

lemma CtxRep.store (h : CtxRep m ctx p) (ha : a ∉ labels ctx) (r : RbNode) :
    CtxRep (m.store a r) ctx p :=
  h.congr rfl fun _ hb => m.store_node_of_ne r (ne_of_mem_of_not_mem hb ha)

/-- The operation writes the colour bit and nothing else. -/
structure Recolors (g : RbNode → RbNode) (c c' : Color) : Prop where
  word : ∀ r p, Aligned p → r.rbParentColor = pack p c → (g r).rbParentColor = pack p c'
  child : ∀ r d, (g r).child d = r.child d

lemma recolors_rbSetBlack : Recolors .rbSetBlack c .black where
  word r p _ hr := by rw [rbSetBlack, hr, pack_or_one]
  child r d := by cases d <;> rfl

lemma recolors_rbSetRed : Recolors .rbSetRed c .red where
  word r p hp hr := by rw [rbSetRed, hr, pack_and_not_one hp, pack_red]
  child r d := by cases d <;> rfl

lemma recolors_rbSetColor : Recolors (.rbSetColor (colorWord c')) c c' where
  word r p hp hr := by rw [rbSetColor, hr, pack_and_not_one hp, pack]
  child r d := by cases d <;> rfl

lemma Agrees.recolor (h : Agrees m (plug ctx (.branch d c a x y))) {g : RbNode → RbNode}
    (hg : Recolors g c c') :
    ∃ m', m.modify a g = some m' ∧ Agrees m' (plug ctx (.branch d c' a x y)) := by
  have hr := h.reads
  have ha := h.apart
  obtain ⟨hrep, hctx, hnodup⟩ := agrees_plug.mp h
  obtain ⟨_, _, _, _, _, hx, hy⟩ := rep_branch.mp hrep
  refine ⟨_, m.modify_eq hr.nonnull g, agrees_plug.mpr ⟨rep_branch.mpr ⟨hr.nonnull, hr.aligned,
    ?_, ?_, ?_, hx.store ha.near _, hy.store ha.far _⟩, ?_, ?_⟩⟩
  · rw [store_node_self]
    exact hg.word _ _ hr.parent_aligned hr.word
  · rw [store_node_self, hg.child, hr.near]
  · rw [store_node_self, hg.child, hr.far]
  · rw [ptr_branch] at hctx ⊢
    exact hctx.store ha.label_ctx _
  · rw [inorder_recolor d c' c]
    exact hnodup

/-! ## Relinking -/

lemma ptr_mem_or_zero (t : ColorTree Ptr) : ptr t = 0 ∨ ptr t ∈ t.inorder := by
  cases t with
  | nil => exact .inl rfl
  | node c a l r => exact .inr (by simp [ptr, inorder])

@[simp] lemma RbNode.child_setChild (r : RbNode) (d : Dir) (p : Ptr) :
    (r.setChild d p).child d = p := by
  cases d <;> rfl

@[simp] lemma RbNode.child_setChild_flip (r : RbNode) (d : Dir) (p : Ptr) :
    (r.setChild d p).child d.flip = r.child d.flip := by
  cases d <;> rfl

@[simp] lemma RbNode.rbParentColor_setChild (r : RbNode) (d : Dir) (p : Ptr) :
    (r.setChild d p).rbParentColor = r.rbParentColor := by
  cases d <;> rfl

@[simp] lemma RbNode.child_rbSetParent (r : RbNode) (d : Dir) (p : Ptr) :
    (r.rbSetParent p).child d = r.child d := by
  cases d <;> rfl

lemma RbNode.rbParentColor_rbSetParent {r : RbNode} {q : Ptr} (p : Ptr) (hq : Aligned q)
    (hr : r.rbParentColor = pack q c) : (r.rbSetParent p).rbParentColor = pack p c := by
  rw [rbSetParent, hr, pack_and_three hq, UInt32.or_comm, pack]

lemma Rep.reparent (h : Rep m.node parent t) (hparent : Aligned parent)
    (hnodup : t.inorder.Nodup) (q : Ptr) :
    ∃ m', m.modifyIf (ptr t) (.rbSetParent q) = some m' ∧ Rep m'.node q t ∧
      m'.root = m.root ∧ ∀ b ∉ t.inorder, m'.node b = m.node b := by
  by_cases ht : t = .nil
  · subst ht
    exact ⟨m, rfl, trivial, rfl, fun _ _ => rfl⟩
  · obtain ⟨c, a, x, y, rfl⟩ := eq_branch .left ht
    obtain ⟨h1, h2, h3, h4, h5, hx, hy⟩ := rep_branch.mp h
    have ha : Apart [] a x y := nodup_branch_iff.mp (by simpa [labels] using hnodup)
    refine ⟨m.store a ((m.node a).rbSetParent q), by simp [modifyIf, h1, m.modify_eq h1],
      rep_branch.mpr ⟨h1, h2, ?_, ?_, ?_, hx.store ha.near _, hy.store ha.far _⟩, rfl,
      fun b hb => m.store_node_of_ne _ (fun heq => hb (by simp [heq]))⟩
    · rw [store_node_self]
      exact rbParentColor_rbSetParent q hparent h3
    · rw [store_node_self, child_rbSetParent, h4]
    · rw [store_node_self, child_rbSetParent, h5]

lemma CtxRep.relink {f : Frame Ptr} (h : CtxRep m (f :: ctx) old)
    (hnodup : (labels (f :: ctx)).Nodup) (new : Ptr) :
    CtxRep (m.store f.label ((m.node f.label).setChild f.dir new)) (f :: ctx) new := by
  obtain ⟨h1, h2, h3, h4, h5, h6, h7⟩ := h
  have hlabel : f.label ∉ f.sib.inorder ∧ f.label ∉ labels ctx := by
    rw [labels_cons, cons_append, nodup_cons, mem_append, not_or] at hnodup
    exact hnodup.1
  refine ⟨h1, h2, ?_, ?_, ?_, h6.store hlabel.1 _, h7.store hlabel.2 _⟩
  · rw [store_node_self, rbParentColor_setChild, h3]
  · rw [store_node_self, child_setChild]
  · rw [store_node_self, child_setChild_flip, h5]

/-- Filling the hole of a context with another node. -/
lemma CtxRep.replaceChild (h : CtxRep m ctx old) (hold : old ≠ 0) (hout : old ∉ labels ctx)
    (hnodup : (labels ctx).Nodup) (d : Dir) (new : Ptr) :
    ∃ m', m.replaceChild d (topPtr ctx) old new = some m' ∧ CtxRep m' ctx new ∧
      ∀ b ∉ labels ctx, m'.node b = m.node b := by
  cases ctx with
  | nil => exact ⟨{ m with root := new }, rfl, rfl, fun _ _ => rfl⟩
  | cons f ctx =>
    have hlinked := h.relink hnodup new
    obtain ⟨h1, _, _, h4, h5, _, _⟩ := h
    have hsib : ptr f.sib ≠ old := by
      rintro rfl
      rcases ptr_mem_or_zero f.sib with hzero | hmem
      · exact hold hzero
      · exact hout (by simp [hmem])
    have hmodify : m.replaceChild d (topPtr (f :: ctx)) old new =
        some (m.store f.label ((m.node f.label).setChild f.dir new)) := by
      have htop : topPtr (f :: ctx) = f.label := rfl
      rcases Dir.eq_or_eq_flip d f.dir with hd | hd
      · rw [hd] at h4
        simp [replaceChild, htop, h1, m.load_eq h1, m.modify_eq h1, h4, hd]
      · rw [hd, Dir.flip_flip] at h5
        simp [replaceChild, htop, h1, m.load_eq h1, m.modify_eq h1, h5, hd, hsib.symm]
    exact ⟨_, hmodify, hlinked, fun b hb => m.store_node_of_ne _ (fun heq => hb (by simp [heq]))⟩

/-! ## Rotating -/

lemma Agrees.rotate {u v w : ColorTree Ptr}
    (h : Agrees m (plug ctx (.branch d c a u (.branch d c' b v w)))) :
    ∃ m', rotate d a m = some m' ∧
      Agrees m' (plug ctx (.branch d c' b (.branch d c a u v) w)) := by
  have hra := h.reads
  have hap := h.apart
  obtain ⟨hrep, hctx, hnodup⟩ := agrees_plug.mp h
  obtain ⟨ha, ha_al, ha_word, ha_near, ha_far, hu, hb_rep⟩ := rep_branch.mp hrep
  obtain ⟨hb, hb_al, hb_word, hb_near, hb_far, hv, hw⟩ := rep_branch.mp hb_rep
  rw [ptr_branch] at ha_far hctx
  have hbp : Apart [] b v w := nodup_branch_iff.mp (by simpa [labels] using hap.far_nodup)
  have hab : a ≠ b := fun heq => hap.far (by simp [heq])
  have hav : a ∉ v.inorder := fun hmem => hap.far (by simp [hmem])
  have hb_ctx : b ∉ labels ctx := hap.far_ctx b (by simp)
  have hv_ctx : ∀ x ∈ v.inorder, x ∉ labels ctx := fun x hx => hap.far_ctx x (by simp [hx])
  -- the memory after each assignment that changes it
  have hv₁ : Rep (m.store a ((m.node a).setChild d.flip (ptr v))).node b v := hv.store hav _
  obtain ⟨m₂, hm₂, hv₂, hroot₂, hsame₂⟩ := hv₁.reparent hb_al hbp.near_nodup a
  obtain ⟨m₄, hm₄⟩ : ∃ m₄, m₄ = (m₂.store b ((m₂.node b).setChild d a)).store b
      (((m₂.node b).setChild d a).rbSetParent (topPtr ctx)) := ⟨_, rfl⟩
  have hsame₄ : ∀ x, x ≠ a → x ≠ b → x ∉ v.inorder → m₄.node x = m.node x := by
    intro x hxa hxb hxv
    rw [hm₄, store_node_of_ne _ _ hxb, store_node_of_ne _ _ hxb, hsame₂ x hxv,
      store_node_of_ne _ _ hxa]
  have hctx₄ : CtxRep m₄ ctx a := by
    refine hctx.congr (by rw [hm₄]; exact hroot₂) fun x hx => hsame₄ x ?_ ?_ ?_
    · exact ne_of_mem_of_not_mem hx hap.label_ctx
    · exact ne_of_mem_of_not_mem hx hb_ctx
    · exact fun hmem => hv_ctx x hmem hx
  obtain ⟨m₅, hm₅, hctx₅, hsame₅⟩ :=
    hctx₄.replaceChild ha hap.label_ctx hap.ctx_nodup d b
  have hrotate : Rbtree.rotate d a m = some (m₅.store a ((m₅.node a).rbSetParent b)) := by
    simp only [Rbtree.rotate, m.load_eq ha, ha_far, hra.rbParent, m.load_eq hb, hb_near,
      m.modify_eq ha, hm₂, modify_eq _ hb, modify_eq _ ha, store_node_self,
      Option.bind_eq_bind, Option.bind_some, ← hm₄, hm₅]
  have hnode_a : m₅.node a = (m.node a).setChild d.flip (ptr v) := by
    rw [hsame₅ a hap.label_ctx, hm₄, store_node_of_ne _ _ hab, store_node_of_ne _ _ hab,
      hsame₂ a hav, store_node_self]
  have hnode_b : m₅.node b = ((m.node b).setChild d a).rbSetParent (topPtr ctx) := by
    rw [hsame₅ b hb_ctx, hm₄, store_node_self, hsame₂ b hbp.near,
      store_node_of_ne _ _ hab.symm]
  have hu₆ : Rep (m₅.store a ((m₅.node a).rbSetParent b)).node a u := by
    refine hu.congr fun x hx => ?_
    have hxa : x ≠ a := ne_of_mem_of_not_mem hx hap.near
    have hx_far := hap.near_far x hx
    simp only [mem_inorder_branch, not_or] at hx_far
    rw [store_node_of_ne _ _ hxa, hsame₅ x (hap.near_ctx x hx),
      hsame₄ x hxa hx_far.1 hx_far.2.1]
  have hv₆ : Rep (m₅.store a ((m₅.node a).rbSetParent b)).node a v := by
    refine hv₂.congr fun x hx => ?_
    have hxa : x ≠ a := ne_of_mem_of_not_mem hx hav
    have hxb : x ≠ b := ne_of_mem_of_not_mem hx hbp.near
    rw [store_node_of_ne _ _ hxa, hsame₅ x (hv_ctx x hx), hm₄, store_node_of_ne _ _ hxb,
      store_node_of_ne _ _ hxb]
  have hw₆ : Rep (m₅.store a ((m₅.node a).rbSetParent b)).node b w := by
    refine hw.congr fun x hx => ?_
    have hxa : x ≠ a := fun heq => hap.far (by simp [← heq, hx])
    have hxb : x ≠ b := ne_of_mem_of_not_mem hx hbp.far
    rw [store_node_of_ne _ _ hxa, hsame₅ x (hap.far_ctx x (by simp [hx])),
      hsame₄ x hxa hxb (fun hmem => hbp.near_far x hmem hx)]
  refine ⟨_, hrotate, agrees_plug.mpr ⟨rep_branch.mpr ⟨hb, hb_al, ?_, ?_, ?_,
    rep_branch.mpr ⟨ha, ha_al, ?_, ?_, ?_, hu₆, hv₆⟩, hw₆⟩, ?_, ?_⟩⟩
  · rw [store_node_of_ne _ _ hab.symm, hnode_b]
    refine rbParentColor_rbSetParent _ ha_al ?_
    rw [rbParentColor_setChild, hb_word]
  · rw [store_node_of_ne _ _ hab.symm, hnode_b, child_rbSetParent,
      child_setChild, ptr_branch]
  · rw [store_node_of_ne _ _ hab.symm, hnode_b, child_rbSetParent,
      child_setChild_flip, hb_far]
  · rw [store_node_self, hnode_a]
    refine rbParentColor_rbSetParent _ hra.parent_aligned ?_
    rw [rbParentColor_setChild, ha_word]
  · rw [store_node_self, hnode_a, child_rbSetParent]
    have hflip := child_setChild_flip (m.node a) d.flip (ptr v)
    rw [Dir.flip_flip] at hflip
    rw [hflip, ha_near]
  · rw [store_node_self, hnode_a, child_rbSetParent, child_setChild]
  · rw [ptr_branch]
    exact hctx₅.store hap.label_ctx _
  · rw [← inorder_rotate]
    exact hnodup

lemma Agrees.rotate_flip {u v w : ColorTree Ptr}
    (h : Agrees m (plug ctx (.branch d c a (.branch d c' b u v) w))) :
    ∃ m', Rbtree.rotate d.flip a m = some m' ∧
      Agrees m' (plug ctx (.branch d c' b u (.branch d c a v w))) := by
  rw [← branch_flip d, ← branch_flip d] at h
  obtain ⟨m', hm', h'⟩ := h.rotate
  refine ⟨m', hm', ?_⟩
  rwa [branch_flip, branch_flip] at h'

end R0Kernel.Rbtree
