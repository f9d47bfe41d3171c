import R0Kernel.Lib.Rbtree.Rotate

/-! # Insertion

`rb_insert_color` restores the rules above a new red leaf: each round either
moves the red node two levels up or ends with rotations.
-/

namespace R0Kernel.Rbtree

open R0Kernel.RedBlack ColorTree Option

variable {a b : Ptr} {c : Color} {d : Dir} {t x y : ColorTree Ptr}
  {ctx : List (Frame Ptr)} {m : Mem} {n : Nat} {f : Frame Ptr} {fuel : Nat}

/-! ## Linking a leaf -/

/-- The empty child position of a context. -/
def linkOf : List (Frame Ptr) → Link
  | [] => .root
  | f :: _ => .child f.label f.dir

lemma rep_leaf (ha : a ≠ 0) (haligned : Aligned a) {parent : Ptr}
    (hnode : m.node a = ⟨parent, 0, 0⟩) :
    Rep m.node parent (.branch .left .red a .nil .nil) := by
  refine rep_branch.mpr ⟨ha, haligned, ?_, ?_, ?_, trivial, trivial⟩
  · rw [hnode, pack_red]
  · rw [hnode]
    rfl
  · rw [hnode]
    rfl

lemma Agrees.rbLinkNode (h : Agrees m (plug ctx .nil)) (ha : a ≠ 0) (haligned : Aligned a)
    (hnew : a ∉ labels ctx) :
    ∃ m', rbLinkNode a (linkOf ctx) m = some m' ∧
      Agrees m' (plug ctx (.branch .left .red a .nil .nil)) := by
  obtain ⟨_, hctx, hnodup⟩ := agrees_plug.mp h
  have hlabels : (labels ctx).Nodup := by simpa [inorder] using hnodup
  have hstored : CtxRep (m.store a ⟨topPtr ctx, 0, 0⟩) ctx 0 := hctx.store hnew _
  have hnodup' : (labels ctx ++ (branch .left .red a .nil .nil).inorder).Nodup := by
    rw [nodup_branch_iff]
    constructor <;> simp [inorder, hlabels, hnew]
  cases ctx with
  | nil =>
    refine ⟨{ m.store a ⟨0, 0, 0⟩ with root := a }, ?_,
      agrees_plug.mpr ⟨rep_leaf ha haligned (m.store_node_self a _), rfl, hnodup'⟩⟩
    simp [Rbtree.rbLinkNode, linkOf, Link.parent, m.modify_eq ha]
  | cons f ctx =>
    have hf : f.label ≠ 0 := hctx.1
    have hne : a ≠ f.label := fun heq => hnew (by simp [heq])
    refine ⟨_, ?_, agrees_plug.mpr ⟨rep_leaf ha haligned ?_, hstored.relink hlabels a, hnodup'⟩⟩
    · simp [Rbtree.rbLinkNode, linkOf, Link.parent, m.modify_eq ha, Mem.modify_eq _ hf, topPtr]
    · rw [Mem.store_node_of_ne _ _ hne, Mem.store_node_self]

/-! ## The loop -/

lemma Agrees.side (h : Agrees m (plug (f :: ctx) t)) (hne : ptr t ≠ ptr f.sib) :
    (if (m.node f.label).rbLeft = ptr t then Dir.left else Dir.right) = f.dir := by
  have hr := h.of_near.reads
  cases hd : f.dir with
  | left =>
    have hnear : (m.node f.label).rbLeft = ptr t := by
      have := hr.near
      rwa [hd] at this
    rw [if_pos hnear]
  | right =>
    have hfar : (m.node f.label).rbLeft = ptr f.sib := by
      have := hr.far
      rwa [hd] at this
    rw [if_neg (by rw [hfar]; exact hne.symm)]

lemma Agrees.ptr_ne_zero (h : Agrees m (plug ctx t)) (ht : t ≠ .nil) : ptr t ≠ 0 := by
  obtain ⟨c, a, x, y, rfl⟩ := eq_branch .left ht
  exact h.reads.nonnull

lemma Agrees.ptr_ne_sib (h : Agrees m (plug (f :: ctx) t)) (ht : t ≠ .nil ∨ f.sib ≠ .nil) :
    ptr t ≠ ptr f.sib := by
  intro heq
  have hzero : ptr t ≠ 0 := by
    rcases ht with ht | hsib
    · exact h.ptr_ne_zero ht
    · rw [heq]
      exact (Agrees.of_near h).far.ptr_ne_zero hsib
  have ht := (ptr_mem_or_zero t).resolve_left hzero
  have hsib := (ptr_mem_or_zero f.sib).resolve_left (heq ▸ hzero)
  exact (Agrees.of_near h).apart.near_far _ ht (heq ▸ hsib)

lemma insertLoop_exit (h : Agrees m (plug ctx (.branch d c a x y)))
    (htop : ctx = [] ∨ topColor ctx = .black) : insertLoop (fuel + 1) a m = some m := by
  have hr := h.reads
  unfold insertLoop
  simp only [hr.load, hr.rbParent, bind_eq_bind, bind_some]
  cases ctx with
  | nil => rfl
  | cons f ctx =>
    have hf := Agrees.reads (Agrees.of_near h)
    have hblack : f.color = .black := by simpa [topColor] using htop
    simp [topPtr, hf.nonnull, hf.load, hf.rbIsRed, hblack]

section Rotations

variable {p g : Ptr} {s u : ColorTree Ptr}

lemma insertRotate_outer (h : Agrees m (plug ctx
      (.branch d .black g (.branch d .red p (.branch d .red a x y) s) u))) :
    ∃ m', insertRotate d a p g m = some (a, m') ∧
      Agrees m' (plug ctx (.branch d .black p (.branch d .red a x y) (.branch d .red g s u))) := by
  have hp := h.near.reads
  have hne : ptr s ≠ a := by
    have := h.near.near.ptr_ne_sib (.inl branch_ne_nil)
    rw [ptr_branch] at this
    exact this.symm
  obtain ⟨m₁, hm₁, h₁⟩ := h.near.recolor recolors_rbSetBlack
  obtain ⟨m₂, hm₂, h₂⟩ := h₁.of_near.recolor recolors_rbSetRed
  obtain ⟨m₃, hm₃, h₃⟩ := h₂.rotate_flip
  refine ⟨m₃, ?_, h₃⟩
  simp [insertRotate, hp.load, hp.far, hne, hm₁, hm₂, hm₃]

lemma insertRotate_inner (h : Agrees m (plug ctx
      (.branch d .black g (.branch d .red p s (.branch d .red a x y)) u))) :
    ∃ m', insertRotate d a p g m = some (p, m') ∧
      Agrees m' (plug ctx (.branch d .black a (.branch d .red p s x) (.branch d .red g y u))) := by
  have hp := h.near.reads
  obtain ⟨m₀, hm₀, h₀⟩ := h.near.rotate
  obtain ⟨m₁, hm₁, h₁⟩ := h₀.recolor recolors_rbSetBlack
  obtain ⟨m₂, hm₂, h₂⟩ := h₁.of_near.recolor recolors_rbSetRed
  obtain ⟨m₃, hm₃, h₃⟩ := h₂.rotate_flip
  refine ⟨m₃, ?_, h₃⟩
  simp [insertRotate, hp.load, hp.far, hm₀, hm₁, hm₂, hm₃]

end Rotations

/-- The memory holds a tree with the sequence that obeys the rules, except that
its root may be red. -/
def Fixed (m : Mem) (sequence : List Ptr) : Prop :=
  ∃ t, Agrees m t ∧ t.inorder = sequence ∧ t ≠ .nil ∧ ∃ n, t.Ok n

lemma plug_ne_nil (ht : t ≠ .nil) : plug ctx t ≠ .nil := by
  induction ctx generalizing t with
  | nil => exact ht
  | cons f ctx ih => exact ih branch_ne_nil

/-- A red node under a red parent has a black grandparent. -/
lemma exists_frames (hctx : CtxOk n ctx) (hnot : ¬ (ctx = [] ∨ topColor ctx = .black)) :
    ∃ f g rest, ctx = f :: g :: rest ∧ f.color = .red ∧ g.color = .black := by
  rw [not_or] at hnot
  cases ctx with
  | nil => exact absurd rfl hnot.1
  | cons f ctx =>
    have hred : f.color = .red := Color.ne_black.mp hnot.2
    have htop := (hctx.2.1 hred).2
    cases ctx with
    | nil => cases htop
    | cons g ctx => exact ⟨f, g, ctx, rfl, hred, htop⟩

lemma insertLoop_round {e d' : Dir} {p g : Ptr} {s u : ColorTree Ptr}
    (h : Agrees m (plug ctx (.branch d' .black g (.branch e .red p (.branch d .red a x y) s) u))) :
    insertLoop (fuel + 1) a m =
      if u.color = .red then
        (m.modify (ptr u) .rbSetBlack).bind fun m => (m.modify p .rbSetBlack).bind fun m =>
          (m.modify g .rbSetRed).bind fun m => insertLoop fuel g m
      else (insertRotate d' a p g m).bind fun r => insertLoop fuel r.1 r.2 := by
  have ha := h.near.near.reads
  have hp := h.near.reads
  have hg := h.reads
  have hside : (if p = (m.node g).rbLeft then Dir.left else Dir.right) = d' := by
    have := h.near.side (h.near.ptr_ne_sib (.inl branch_ne_nil))
    simpa only [ptr_branch, eq_comm] using this
  have hred := h.far.isRedNode
  rw [insertLoop]
  simp only [ha.load, ha.rbParent, topPtr, hp.nonnull, hp.load, hp.rbIsRed, hp.rbParent, hg.load,
    hside, hg.far, hred, bind_eq_bind, bind_some, decide_true, Bool.not_true,
    Bool.false_eq_true, if_false, decide_eq_true_eq]

lemma insertLoop_spec (hfuel : ctx.length < fuel)
    (h : Agrees m (plug ctx (.branch d .red a x y))) (hok : (branch d .red a x y).Ok n)
    (hctx : CtxOk n ctx) :
    ∃ m', insertLoop fuel a m = some m' ∧
      Fixed m' (plug ctx (.branch d .red a x y)).inorder := by
  induction fuel generalizing ctx d a x y n m with
  | zero => simp at hfuel
  | succ fuel ih =>
    by_cases hexit : ctx = [] ∨ topColor ctx = .black
    · refine ⟨m, insertLoop_exit h hexit, _, h, rfl, plug_ne_nil branch_ne_nil, ?_⟩
      rcases hexit with rfl | htop
      · exact ⟨n, hok⟩
      · exact (rules_plug.mpr ⟨n, hok, hctx, fun _ => htop⟩).2
    · obtain ⟨f, g, ctx, rfl, hfred, hgblack⟩ := exists_frames hctx hexit
      obtain ⟨e, _, p, s⟩ := f
      obtain ⟨d', _, gp, u⟩ := g
      obtain rfl : _ = Color.red := hfred
      obtain rfl : _ = Color.black := hgblack
      obtain ⟨hs, hf, hu, _, hctx⟩ := hctx
      have hsblack := (hf rfl).1
      have h : Agrees m (plug ctx
        (.branch d' .black gp (.branch e .red p (.branch d .red a x y) s) u)) := h
      change ∃ m', insertLoop (fuel + 1) a m = some m' ∧ Fixed m' (plug ctx
        (.branch d' .black gp (.branch e .red p (.branch d .red a x y) s) u)).inorder
      rw [insertLoop_round h]
      split
      next hured =>
        obtain ⟨ua, ux, uy, rfl⟩ := eq_branch_of_red d' hured
        obtain ⟨hux, huy, _⟩ := ok_red.mp hu
        obtain ⟨m₁, hm₁, h₁⟩ := h.far.recolor recolors_rbSetBlack
        obtain ⟨m₂, hm₂, h₂⟩ := h₁.of_far.near.recolor recolors_rbSetBlack
        obtain ⟨m₃, hm₃, h₃⟩ := h₂.of_near.recolor recolors_rbSetRed
        have hok' : (branch d' .red gp (.branch e .black p (.branch d .red a x y) s)
            (.branch d' .black ua ux uy)).Ok (n + 1) :=
          ok_red.mpr ⟨ok_black.mpr ⟨hok, hs⟩,
            ok_black.mpr ⟨hux, huy⟩, by simp, by simp⟩
        obtain ⟨m', hm', hfixed⟩ := ih (by simp at hfuel; omega) h₃ hok' hctx
        refine ⟨m', by simp [hm₁, hm₂, hm₃, hm'], ?_⟩
        convert hfixed using 1
        apply inorder_plug_congr
        simp only [inorder_branch]
      next hublack =>
        have hublack := Color.ne_red.mp hublack
        obtain ⟨x', y', ht⟩ : ∃ x' y', branch d .red a x y = .branch d' .red a x' y' := by
          rcases Dir.eq_or_eq_flip d' d with rfl | rfl
          · exact ⟨x, y, rfl⟩
          · exact ⟨y, x, branch_flip _ _ _ _ _⟩
        rw [ht] at h hok ⊢
        obtain ⟨hx, hy, hxblack, hyblack⟩ := ok_red.mp hok
        cases fuel with
        | zero => simp at hfuel
        | succ fuel =>
          rcases Dir.eq_or_eq_flip d' e with rfl | rfl
          · obtain ⟨m', hm', h'⟩ := insertRotate_outer h
            refine ⟨m', ?_, _, h', ?_, plug_ne_nil branch_ne_nil, ?_⟩
            · simpa [hm'] using insertLoop_exit h'.near (.inr rfl)
            · apply inorder_plug_congr
              cases e <;> simp [branch, inorder]
            · exact (rules_plug.mpr ⟨n + 1, ok_black.mpr ⟨hok,
                ok_red.mpr ⟨hs, hu, hsblack, hublack⟩⟩, hctx, by simp⟩).2
          · rw [branch_flip] at h
            obtain ⟨m', hm', h'⟩ := insertRotate_inner h
            refine ⟨m', ?_, _, h', ?_, plug_ne_nil branch_ne_nil, ?_⟩
            · simpa [hm'] using insertLoop_exit h'.near (.inr rfl)
            · apply inorder_plug_congr
              cases d' <;> simp [branch, inorder, Dir.flip]
            · exact (rules_plug.mpr ⟨n + 1, ok_black.mpr
                ⟨ok_red.mpr ⟨hs, hx, hsblack, hxblack⟩,
                  ok_red.mpr ⟨hy, hu, hyblack, hublack⟩⟩, hctx, by simp⟩).2

lemma rbInsertColor_spec (hfuel : ctx.length < fuel)
    (h : Agrees m (plug ctx (.branch d .red a x y))) (hok : (branch d .red a x y).Ok n)
    (hctx : CtxOk n ctx) :
    ∃ m' t', rbInsertColor fuel a m = some m' ∧ Agrees m' t' ∧ t'.Rules ∧
      t'.inorder = (plug ctx (.branch d .red a x y)).inorder := by
  obtain ⟨m₁, hm₁, t, h₁, hseq, hne, k, hk⟩ := insertLoop_spec hfuel h hok hctx
  obtain ⟨c, r, l, l', rfl⟩ := eq_branch .left hne
  have h₁' : Agrees m₁ (plug [] (.branch .left c r l l')) := h₁
  obtain ⟨m', hm', h'⟩ := h₁'.recolor recolors_rbSetBlack
  have hroot : m₁.root = r := h₁.root.trans (ptr_branch _ _ _ _ _)
  refine ⟨m', _, by simp [rbInsertColor, hm₁, hroot, hm'], h', ⟨by simp [plug], ?_⟩, ?_⟩
  · obtain ⟨j, hl, hl', _, _⟩ := ok_branch.mp hk
    exact ⟨j + 1, ok_black.mpr ⟨hl, hl'⟩⟩
  · rw [← hseq]
    exact inorder_recolor _ _ _ _ _ _

end R0Kernel.Rbtree
