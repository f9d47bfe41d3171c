import R0Kernel.Lib.Rbtree.EraseColor

/-! # Removal

`rb_erase` unlinks a node with at most one child, or the successor of the node,
which then takes the node's place. Both leave a tree without one node, to be
repaired at the place of the unlinked node if that was black.
-/

namespace R0Kernel.Rbtree

open R0Kernel.RedBlack List Option ColorTree

variable {a b : Ptr} {c : Color} {d : Dir} {t x y : ColorTree Ptr}
  {ctx : List (Frame Ptr)} {m : Mem} {n : Nat}

/-! ## Unlinking a node with one child -/

/-- The only child is given the parent of the node; the node is then replaced by
it in the parent. -/
lemma Agrees.lift (h : Agrees m (plug ctx (.branch d c a t .nil))) :
    ∃ m', m.modifyIf (ptr t) (.rbSetParent (topPtr ctx)) = some m' ∧
      Rep m'.node (topPtr ctx) t ∧ CtxRep m' ctx a ∧ ∀ b ∉ t.inorder, m'.node b = m.node b := by
  have hap := h.apart
  obtain ⟨hrep, hctx, _⟩ := agrees_plug.mp h
  obtain ⟨_, ha, _, _, _, ht, _⟩ := rep_branch.mp hrep
  rw [ptr_branch] at hctx
  obtain ⟨m', hm', ht', hroot, hsame⟩ := ht.reparent ha hap.near_nodup (topPtr ctx)
  exact ⟨m', hm', ht', hctx.congr hroot fun b hb => hsame b fun hmem => hap.near_ctx b hmem hb,
    hsame⟩

lemma Apart.nodup_near (h : Apart ctx a t x) : (labels ctx ++ t.inorder).Nodup := by
  refine nodup_append.mpr ⟨h.ctx_nodup, h.near_nodup, ?_⟩
  rintro b hb _ ht rfl
  exact h.near_ctx b ht hb

lemma eraseOne_spec (h : Agrees m (plug ctx (.branch d c a t .nil))) :
    ∃ m', eraseOne a (ptr t) m = some ((ptr t, topPtr ctx, colorWord c), m') ∧
      Agrees m' (plug ctx t) := by
  have hr := h.reads
  have hap := h.apart
  obtain ⟨m₁, hm₁, ht₁, hctx₁, _⟩ := h.lift
  obtain ⟨m', hm', hctx', hsame'⟩ :=
    hctx₁.replaceChild hr.nonnull hap.label_ctx hap.ctx_nodup .left (ptr t)
  refine ⟨m', ?_, agrees_plug.mpr ⟨?_, hctx', hap.nodup_near⟩⟩
  · simp [eraseOne, hr.load, hr.rbParent, hr.rbColor, hm₁, hm']
  · exact ht₁.congr fun b hb => hsame' b (hap.near_ctx b hb)

/-! ## Putting a fresh node in the place of another -/

lemma takePlace_spec (h : Agrees m (plug ctx (.branch .left c a x y))) (hx : x ≠ .nil)
    (hb : b ≠ 0) (hb_al : Aligned b)
    (hfresh : b ∉ labels ctx ++ (branch .left c a x y).inorder) :
    ∃ m', takePlace a b m = some m' ∧ Agrees m' (plug ctx (.branch .left c b x y)) := by
  have hr := h.reads
  have hap := h.apart
  obtain ⟨hrep, hctx, _⟩ := agrees_plug.mp h
  obtain ⟨ha, ha_al, _, _, _, hx_rep, hy_rep⟩ := rep_branch.mp hrep
  simp only [mem_append, mem_inorder_branch, not_or] at hfresh
  obtain ⟨hb_ctx, hba, hb_x, hb_y⟩ := hfresh
  obtain ⟨r, hr_eq⟩ : ∃ r : RbNode,
      r = ⟨(m.node a).rbParentColor, ptr y, ptr x⟩ := ⟨_, rfl⟩
  -- the copy, the new child of the parent, and the new parent of both children
  have hctx₁ : CtxRep (m.store b r) ctx a := hctx.store hb_ctx r
  obtain ⟨m₂, hm₂, hctx₂, hsame₂⟩ :=
    hctx₁.replaceChild ha hap.label_ctx hap.ctx_nodup .left b
  have hx₂ : Rep m₂.node a x :=
    (hx_rep.store hb_x r).congr fun e he => hsame₂ e (hap.near_ctx e he)
  have hy₂ : Rep m₂.node a y :=
    (hy_rep.store hb_y r).congr fun e he => hsame₂ e (hap.far_ctx e he)
  obtain ⟨m₃, hm₃, hx₃, hroot₃, hsame₃⟩ := hx₂.reparent ha_al hap.near_nodup b
  have hy₃ : Rep m₃.node a y := hy₂.congr fun e he => hsame₃ e fun hmem => hap.near_far e hmem he
  obtain ⟨m₄, hm₄, hy₄, hroot₄, hsame₄⟩ := hy₃.reparent ha_al hap.far_nodup b
  have hnode_a : m₂.node a = m.node a := by
    rw [hsame₂ a hap.label_ctx, m.store_node_of_ne r (Ne.symm hba)]
  have hnode_b : m₄.node b = r := by
    rw [hsame₄ b hb_y, hsame₃ b hb_x, hsame₂ b hb_ctx, Mem.store_node_self]
  have hx_ne : ptr x ≠ 0 := h.near.ptr_ne_zero hx
  rw [m₂.modifyIf_eq hx_ne] at hm₃
  refine ⟨m₄, ?_, agrees_plug.mpr ⟨rep_branch.mpr ⟨hb, hb_al, ?_, ?_, ?_, ?_, hy₄⟩, ?_, ?_⟩⟩
  · have hload : (m.store b r).load a = some (m.node a) := by
      rw [Mem.load_eq _ ha, m.store_node_of_ne r (Ne.symm hba)]
    have hload₂ : m₂.load a = some (m.node a) := by rw [Mem.load_eq _ ha, hnode_a]
    simp only [takePlace, hr.load, hr.rbLeft, hr.rbRight, m.modify_eq hb, ← hr_eq, hload,
      hr.rbParent, hm₂, hload₂, hm₃, hm₄, bind_eq_bind, bind_some]
  · rw [hnode_b, hr_eq]
    exact hr.word
  · rw [hnode_b, hr_eq]
    rfl
  · rw [hnode_b, hr_eq]
    rfl
  · exact hx₃.congr fun e he => hsame₄ e (hap.near_far e he)
  · refine hctx₂.congr (hroot₄.trans hroot₃) fun e he => ?_
    rw [hsame₄ e fun hmem => hap.far_ctx e hmem he, hsame₃ e fun hmem => hap.near_ctx e hmem he]
  · exact nodup_branch_iff.mpr { hap with label_ctx := hb_ctx, near := hb_x, far := hb_y }

/-! ## Unlinking a node with two children -/

lemma leftmost_spec (h : Agrees m (plug ctx t)) (ht : t ≠ .nil) :
    ∃ spine c a x, t = plug spine (.branch .right c a x .nil) ∧ (∀ f ∈ spine, f.dir = .left) ∧
      ∀ fuel, spine.length < fuel → leftmost fuel (ptr t) m = some a := by
  induction t generalizing ctx with
  | nil => exact absurd rfl ht
  | node c a l r ihl _ =>
    have h : Agrees m (plug ctx (.branch .left c a l r)) := h
    have hr := h.reads
    by_cases hl : l = .nil
    · subst hl
      refine ⟨[], c, a, r, rfl, by simp, ?_⟩
      rintro (_ | fuel) hfuel
      · simp at hfuel
      · simp [leftmost, ptr, hr.load, hr.rbLeft]
    · obtain ⟨spine, c', a', x, hx, hspine, hrun⟩ := ihl h.near hl
      refine ⟨spine ++ [⟨.left, c, a, r⟩], c', a', x, ?_, ?_, ?_⟩
      · rw [plug_append, ← hx]
        rfl
      · simpa [or_imp, forall_and] using hspine
      · rintro (_ | fuel) hfuel
        · simp at hfuel
        · have hnext : spine.length < fuel := by simpa using hfuel
          have hne := h.near.ptr_ne_zero hl
          change leftmost (fuel + 1) a m = some a'
          simp only [leftmost, hr.load, hr.rbLeft, bind_eq_bind, bind_some,
            if_neg hne]
          exact hrun fuel hnext

lemma unlink_spec {f : Frame Ptr} (h : Agrees m (plug (f :: ctx) (.branch d c a t .nil))) :
    ∃ m₁ m₂, m.modifyIf (ptr t) (.rbSetParent f.label) = some m₁ ∧
      m₁.modify f.label (.setChild f.dir (ptr t)) = some m₂ ∧ Agrees m₂ (plug (f :: ctx) t) := by
  have hap := h.apart
  obtain ⟨m₁, hm₁, ht₁, hctx₁, _⟩ := h.lift
  have hout : f.label ∉ t.inorder := fun hmem => hap.near_ctx _ hmem (by simp)
  exact ⟨m₁, _, hm₁, m₁.modify_eq hctx₁.1 _,
    agrees_plug.mpr ⟨ht₁.store hout _, hctx₁.relink hap.ctx_nodup _, hap.nodup_near⟩⟩

variable {fuel : Nat} {spine : List (Frame Ptr)}

lemma eraseTwo_spec {c' : Color}
    (h : Agrees m (plug ctx (.branch .left c a x (plug spine (.branch .right c' b t .nil)))))
    (hx : x ≠ .nil) (hspine : ∀ f ∈ spine, f.dir = .left)
    (hleft : leftmost fuel (ptr (plug spine (.branch .right c' b t .nil))) m = some b) :
    ∃ m', eraseTwo fuel a m = some ((ptr t, topPtr (spine ++ ⟨.right, c, b, x⟩ :: ctx),
        colorWord c'), m') ∧
      Agrees m' (plug (spine ++ ⟨.right, c, b, x⟩ :: ctx) t) := by
  have ha := h.reads
  have hsucc :
      Agrees m (plug (spine ++ ⟨.right, c, a, x⟩ :: ctx) (.branch .right c' b t .nil)) := by
    rw [plug_append]
    exact h
  have hb := hsucc.reads
  have hap := hsucc.apart
  have hlabels := hap.label_ctx
  simp only [labels_append, labels_cons, mem_append, mem_cons, not_or] at hlabels
  obtain ⟨hb_spine, ⟨hba, hb_x⟩, hb_ctx⟩ := hlabels
  -- the successor is unlinked from its parent, which may be the node itself
  obtain ⟨m₁, m₂, hm₁, hm₂, h₂, hparent⟩ : ∃ m₁ m₂,
      m.modifyIf (ptr t) (.rbSetParent (topPtr (spine ++ ⟨.right, c, a, x⟩ :: ctx))) = some m₁ ∧
      m₁.modify (topPtr (spine ++ ⟨.right, c, a, x⟩ :: ctx)) (.setChild
        (if topPtr (spine ++ ⟨.right, c, a, x⟩ :: ctx) = a then .right else .left) (ptr t)) =
        some m₂ ∧
      Agrees m₂ (plug (spine ++ ⟨.right, c, a, x⟩ :: ctx) t) ∧
      (if topPtr (spine ++ ⟨.right, c, a, x⟩ :: ctx) = a then b
        else topPtr (spine ++ ⟨.right, c, a, x⟩ :: ctx)) =
        topPtr (spine ++ ⟨.right, c, b, x⟩ :: ctx) := by
    cases spine with
    | nil =>
      obtain ⟨m₁, m₂, hm₁, hm₂, h₂⟩ := unlink_spec hsucc
      exact ⟨m₁, m₂, hm₁, by simpa [topPtr] using hm₂, h₂, by simp [topPtr]⟩
    | cons g spine =>
      obtain ⟨m₁, m₂, hm₁, hm₂, h₂⟩ := unlink_spec hsucc
      have hdir : g.dir = .left := hspine g mem_cons_self
      have hga : g.label ≠ a := by
        intro heq
        have hnodup := hap.ctx_nodup
        rw [cons_append, labels_cons, cons_append, nodup_cons] at hnodup
        exact hnodup.1 (by simp [labels_append, heq])
      rw [hdir] at hm₂
      exact ⟨m₁, m₂, hm₁, by simpa [topPtr, hga] using hm₂, h₂, by simp [topPtr, hga]⟩
  have h₂' : Agrees m₂ (plug ctx (.branch .left c a x (plug spine t))) := by
    rw [plug_append] at h₂
    exact h₂
  have hfresh : b ∉ labels ctx ++ (branch .left c a x (plug spine t)).inorder := by
    have hplug : b ∉ (plug spine t).inorder := by
      rw [(inorder_plug_perm spine t).mem_iff, mem_append, not_or]
      exact ⟨hb_spine, hap.near⟩
    simp [hb_ctx, hba, hb_x, hplug]
  obtain ⟨m', hm', h'⟩ := takePlace_spec h₂' hx hb.nonnull hb.aligned hfresh
  refine ⟨m', ?_, ?_⟩
  · have hright : (m.node b).rbRight = ptr t := hb.near
    simp only [eraseTwo, ha.load, ha.rbRight, hleft, hb.load, hright, hb.rbParent, hb.rbColor, hm₁,
      hm₂, hparent, hm', bind_eq_bind, bind_some]
  · rw [plug_append]
    exact h'

/-! ## The whole removal -/

/-- What is left after unlinking a node of colour `c` is repaired if needed. -/
lemma repair_spec (hfuel : ctx.length + 1 < fuel) (h : Agrees m (plug ctx t)) (ht : t.Ok 0)
    (hctx : CtxOk c.weight ctx) (hred : c = .red → t.color = .black) :
    ∃ m' t', (if colorWord c = rbBlack then rbEraseColor fuel (ptr t) (topPtr ctx) m else some m) =
        some m' ∧ Agrees m' t' ∧ t'.Rules ∧ t'.inorder = (plug ctx t).inorder := by
  cases c with
  | red =>
    refine ⟨m, plug ctx t, by simp [colorWord, rbRed, rbBlack], h, ?_, rfl⟩
    exact rules_plug.mpr ⟨0, ht, hctx, by simp [hred rfl]⟩
  | black =>
    have hbudget : budget ctx t < fuel := by
      unfold budget
      split <;> omega
    refine rbEraseColor_spec hbudget h hctx ?_
    by_cases hblack : t.color = .black
    · exact .inl ⟨hblack, ht⟩
    · have hcolor := Color.ne_black.mp hblack
      obtain ⟨a, x, y, rfl⟩ := eq_branch_of_red .left hcolor
      obtain ⟨hx, hy, _⟩ := ok_red.mp ht
      refine .inr ⟨hcolor, ?_⟩
      rw [blacken_branch]
      exact ok_black.mpr ⟨hx, hy⟩

/-- A node with an empty subtree has black height zero below it. -/
lemma rules_plug_one (h : (plug ctx (.branch d c a t .nil)).Rules) :
    t.Ok 0 ∧ CtxOk c.weight ctx ∧ (c = .red → t.color = .black) := by
  obtain ⟨k, hok, hctx, _⟩ := rules_plug.mp h
  obtain ⟨j, ht, hnil, rfl, hred⟩ := ok_branch.mp hok
  obtain rfl : j = 0 := hnil
  exact ⟨ht, by simpa using hctx, fun hc => (hred hc).1⟩

lemma erase_middle {l r : List Ptr} (h : (l ++ a :: r).Nodup) : (l ++ a :: r).erase a = l ++ r := by
  have hnot : a ∉ l := fun hmem => (nodup_append.mp h).2.2 a hmem a mem_cons_self rfl
  rw [erase_append_right _ hnot, erase_cons_head]

lemma labelsBefore_of_left (h : ∀ f ∈ spine, f.dir = .left) :
    labelsBefore spine = [] := by
  induction spine with
  | nil => rfl
  | cons f spine ih =>
    rw [labelsBefore, ih fun g hg => h g (mem_cons_of_mem _ hg), h f mem_cons_self]
    rfl

lemma frames_lt (ctx : List (Frame Ptr)) (d : Dir) (c : Color) (a : Ptr) (x y : ColorTree Ptr) :
    ctx.length < (plug ctx (.branch d c a x y)).inorder.length := by
  rw [(inorder_plug_perm ctx _).length_eq, length_append,
    (inorder_branch_perm d c a x y).length_eq, length_cons]
  have := length_le_labels ctx
  omega

lemma rbErase_spec (h : Agrees m t) (hrules : t.Rules) (hfuel : t.inorder.length < fuel)
    (ha : a ∈ t.inorder) :
    ∃ m' t', rbErase fuel a m = some m' ∧ Agrees m' t' ∧ t'.Rules ∧
      t'.inorder = t.inorder.erase a := by
  obtain ⟨ctx, c, x, y, rfl⟩ := exists_plug_of_mem ha
  have hr := h.reads
  have hnodup := h.nodup
  have hlen : ctx.length + 1 < fuel := lt_of_le_of_lt (frames_lt ctx .left c a x y) hfuel
  rw [inorder_plug, inorder_branch] at hnodup ⊢
  simp only [append_assoc, cons_append] at hnodup ⊢
  rw [← append_assoc] at hnodup ⊢
  rw [erase_middle hnodup]
  by_cases hx : x = .nil
  · subst hx
    obtain ⟨m₁, hm₁, h₁⟩ := eraseOne_spec (d := .right) h
    obtain ⟨hy, hctx, hred⟩ := rules_plug_one (d := .right) hrules
    obtain ⟨m', t', hm', h', hrules', hseq⟩ := repair_spec hlen h₁ hy hctx hred
    refine ⟨m', t', ?_, h', hrules', by simp [hseq, inorder_plug, inorder]⟩
    have hleft : (m.node a).rbLeft = 0 := hr.near
    simp only [rbErase, hr.load, hleft, hr.rbRight, hm₁, if_true, bind_eq_bind,
      bind_some, hm']
  have hleft : (m.node a).rbLeft ≠ 0 := by
    rw [hr.rbLeft]
    exact h.near.ptr_ne_zero hx
  by_cases hy : y = .nil
  · subst hy
    obtain ⟨m₁, hm₁, h₁⟩ := eraseOne_spec h
    obtain ⟨hx, hctx, hred⟩ := rules_plug_one hrules
    obtain ⟨m', t', hm', h', hrules', hseq⟩ := repair_spec hlen h₁ hx hctx hred
    refine ⟨m', t', ?_, h', hrules', by simp [hseq, inorder_plug, inorder]⟩
    have hright : (m.node a).rbRight = 0 := hr.far
    simp only [rbErase, hr.load, if_neg hleft, hright, if_true, bind_eq_bind,
      bind_some]
    simp only [hr.rbLeft, hm₁, bind_some, hm']
  · obtain ⟨spine, c', b, t, rfl, hspine, hrun⟩ := leftmost_spec h.far hy
    have hwhole : plug ctx (.branch .left c a x (plug spine (.branch .right c' b t .nil))) =
        plug (spine ++ ⟨.right, c, a, x⟩ :: ctx) (.branch .right c' b t .nil) := by
      rw [plug_append]
      rfl
    rw [hwhole] at hrules hfuel
    have hlen : spine.length + (ctx.length + 1) + 1 < fuel := by
      have hframes := lt_of_le_of_lt (frames_lt _ .right c' b t .nil) hfuel
      rwa [length_append] at hframes
    obtain ⟨m₁, hm₁, h₁⟩ := eraseTwo_spec h hx hspine (hrun fuel (by omega))
    obtain ⟨ht, hctx, hred⟩ := rules_plug_one hrules
    have hctx₁ := ctxOk_relabel spine ctx .right c a b x hctx
    have hframes : (spine ++ ⟨.right, c, b, x⟩ :: ctx).length + 1 < fuel := by
      rwa [length_append]
    obtain ⟨m', t', hm', h', hrules', hseq⟩ := repair_spec hframes h₁ ht hctx₁ hred
    refine ⟨m', t', ?_, h', hrules', ?_⟩
    · have hright : (m.node a).rbRight ≠ 0 := by
        rw [hr.rbRight]
        exact h.far.ptr_ne_zero hy
      simp only [rbErase, hr.load, if_neg hleft, if_neg hright, hm₁, bind_eq_bind,
        bind_some, hm']
    · rw [hseq, plug_append, plug, inorder_plug, Frame.fill, inorder_branch,
        inorder_plug, inorder_plug, inorder_branch, labelsBefore_of_left hspine]
      simp [inorder]

/-! ## Both updates -/

lemma insert_spec (h : Agrees m (plug ctx .nil)) (hrules : (plug ctx .nil).Rules)
    (hfuel : (plug ctx .nil).inorder.length < fuel) (ha : a ≠ 0) (ha_al : Aligned a)
    (hnew : a ∉ (plug ctx .nil).inorder) :
    ∃ m' t', (rbLinkNode a (linkOf ctx) m).bind (rbInsertColor fuel a) = some m' ∧
      Agrees m' t' ∧ t'.Rules ∧ t'.inorder = labelsBefore ctx ++ a :: labelsAfter ctx := by
  have hperm := inorder_plug_perm ctx .nil
  have hlabels : a ∉ labels ctx := fun hmem => hnew (hperm.mem_iff.mpr (by simp [hmem]))
  have hlen : ctx.length < fuel := by
    refine (length_le_labels ctx).trans_lt ?_
    simpa [hperm.length_eq, inorder] using hfuel
  obtain ⟨k, hk, hctx, _⟩ := rules_plug.mp hrules
  obtain rfl : k = 0 := hk
  obtain ⟨m₁, hm₁, h₁⟩ := h.rbLinkNode ha ha_al hlabels
  have hleaf : (branch .left .red a .nil .nil : ColorTree Ptr).Ok 0 :=
    ok_red.mpr ⟨rfl, rfl, rfl, rfl⟩
  obtain ⟨m', t', hm', h', hrules', hseq⟩ := rbInsertColor_spec hlen h₁ hleaf hctx
  refine ⟨m', t', by rw [hm₁]; exact hm', h', hrules', ?_⟩
  simp [hseq, inorder_plug, inorder_branch, inorder]

/-- Linking a new leaf and `rb_insert_color`, and `rb_erase`, terminate in a memory
that holds a tree by the rules with the node inserted or removed. -/
theorem rb_tree_updates (m : Mem) (t : ColorTree Ptr) (h : Agrees m t) (hrules : t.Rules)
    (fuel : Nat) (hfuel : t.inorder.length < fuel) :
    (∀ ctx a, t = plug ctx .nil → a ≠ 0 → Aligned a → a ∉ t.inorder →
      ∃ m' t', (rbLinkNode a (linkOf ctx) m).bind (rbInsertColor fuel a) = some m' ∧
        Agrees m' t' ∧ t'.Rules ∧ t.inorder = labelsBefore ctx ++ labelsAfter ctx ∧
        t'.inorder = labelsBefore ctx ++ a :: labelsAfter ctx) ∧
    ∀ a ∈ t.inorder, ∃ m' t', rbErase fuel a m = some m' ∧ Agrees m' t' ∧ t'.Rules ∧
      t'.inorder = t.inorder.erase a := by
  refine ⟨?_, fun a ha => rbErase_spec h hrules hfuel ha⟩
  rintro ctx a rfl ha ha_al hnew
  obtain ⟨m', t', hm', h', hrules', hseq⟩ := insert_spec h hrules hfuel ha ha_al hnew
  exact ⟨m', t', hm', h', hrules', by simp [inorder_plug, inorder], hseq⟩

/-- A black root at 8 with red children at 4 and 12. -/
def threeNodes : Mem where
  node p := if p = 8 then ⟨1, 12, 4⟩ else ⟨8, 0, 0⟩
  root := 8

theorem rb_tree_updates_three :
    (∃ m' t', (rbLinkNode 16 (.child 12 .right) threeNodes).bind (rbInsertColor 4 16) = some m' ∧
      Agrees m' t' ∧ t'.Rules ∧ t'.inorder = [4, 8, 12, 16]) ∧
    ∃ m' t', rbErase 4 8 threeNodes = some m' ∧ Agrees m' t' ∧ t'.Rules ∧ t'.inorder = [4, 12] := by
  have hagrees : Agrees threeNodes (.node .black 8 (.node .red 4 .nil .nil)
      (.node .red 12 .nil .nil)) := by
    refine ⟨⟨⟨?_, ?_, ?_, ?_, ?_⟩, ⟨⟨?_, ?_, ?_, ?_, ?_⟩, trivial, trivial⟩,
      ⟨?_, ?_, ?_, ?_, ?_⟩, trivial, trivial⟩, rfl, ?_⟩ <;> decide
  have hrules : (node .black 8 (.node .red 4 .nil .nil)
      (.node .red 12 .nil .nil) : ColorTree Ptr).Rules :=
    ⟨rfl, 1, 0, ⟨0, rfl, rfl, rfl, fun _ => ⟨rfl, rfl⟩⟩, ⟨0, rfl, rfl, rfl, fun _ => ⟨rfl, rfl⟩⟩,
      rfl, by simp⟩
  obtain ⟨hinsert, herase⟩ := rb_tree_updates _ _ hagrees hrules 4 (by decide)
  refine ⟨?_, herase 8 (by decide)⟩
  obtain ⟨m', t', hm', h', hrules', _, hseq⟩ := hinsert
    [⟨.right, .red, 12, .nil⟩, ⟨.right, .black, 8, .node .red 4 .nil .nil⟩] 16 rfl (by decide)
    (by decide) (by decide)
  exact ⟨m', t', hm', h', hrules', hseq⟩

end R0Kernel.Rbtree
