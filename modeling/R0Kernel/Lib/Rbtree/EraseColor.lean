import R0Kernel.Lib.Rbtree.Insert

/-! # Repairing a tree that misses a black node

`__rb_erase_color` is called for a position whose subtree has one black node too
few on every path. Each round moves the position up or ends with rotations.
-/

namespace R0Kernel.Rbtree

open R0Kernel.RedBlack ColorTree

variable {a b : Ptr} {c : Color} {d : Dir} {t u v w x y : ColorTree Ptr}
  {ctx : List (Frame Ptr)} {m : Mem} {n : Nat} {e : Ptr} {c' : Color} {fuel : Nat}

/-! ## Steps of a round -/

lemma eraseRedSibling_red (h : Agrees m (plug ctx (.branch d c a t (.branch d .red b v w)))) :
    ∃ m', eraseRedSibling d a b m = some (ptr v, m') ∧
      Agrees m' (plug ctx (.branch d .black b (.branch d .red a t v) w)) := by
  have hb := h.far.reads
  obtain ⟨m₁, hm₁, h₁⟩ := h.far.recolor recolors_rbSetBlack
  obtain ⟨m₂, hm₂, h₂⟩ := h₁.of_far.recolor recolors_rbSetRed
  obtain ⟨m₃, hm₃, h₃⟩ := h₂.rotate
  have ha := h₃.near.reads
  refine ⟨m₃, ?_, h₃⟩
  simp [eraseRedSibling, hb.load, hb.rbIsRed, hm₁, hm₂, hm₃, ha.load, ha.far]

section

variable (h : Agrees m (plug ctx (.branch d c a t (.branch d .black b v w))))

include h

lemma eraseRedSibling_black :
    eraseRedSibling d a b m = some (b, m) := by
  have hb := h.far.reads
  simp [eraseRedSibling, hb.load, hb.rbIsRed]

lemma eraseNearUp_far (hw : w.color = .red) : eraseNearUp d a b m = some (b, m) := by
  have hb := h.far.reads
  have hfar := h.far.far.isBlackOrNull
  simp [eraseNearUp, hb.load, hb.far, hfar, hw]

end

lemma eraseNearUp_near
    (h : Agrees m (plug ctx
      (.branch d c a t (.branch d .black b (.branch d .red e u v) w))))
    (hw : w.color = .black) :
    ∃ m', eraseNearUp d a b m = some (e, m') ∧ Agrees m' (plug ctx
      (.branch d c a t (.branch d .black e u (.branch d .red b v w)))) := by
  have hb := h.far.reads
  have hfar := h.far.far.isBlackOrNull
  have he := h.far.near.reads
  obtain ⟨m₁, hm₁, h₁⟩ := h.far.near.recolor recolors_rbSetBlack
  obtain ⟨m₂, hm₂, h₂⟩ := h₁.of_near.recolor recolors_rbSetRed
  obtain ⟨m₃, hm₃, h₃⟩ := h₂.rotate_flip
  have ha := h₃.of_far.reads
  refine ⟨m₃, ?_, h₃.of_far⟩
  simp [eraseNearUp, hb.load, hb.far, hb.near, hfar, hw, m.modifyIf_eq he.nonnull, hm₁, hm₂, hm₃,
    ha.load, ha.far]

/-- The end of a round; the far child of the sibling is made black whatever it
is. -/
lemma eraseRotate_spec {m₁ : Mem} {f : Ptr} (hup : eraseNearUp d a b m = some (e, m₁))
    (h : Agrees m₁ (plug ctx (.branch d c a t (.branch d .black e u (.branch d c' f v w))))) :
    ∃ m', eraseRotate d a b m = some m' ∧ Agrees m' (plug ctx
      (.branch d c e (.branch d .black a t u) (.branch d .black f v w))) := by
  have ha := h.reads
  have hcolor : Recolors (.rbSetColor (colorWord c)) .black c := recolors_rbSetColor
  obtain ⟨m₂, hm₂, h₂⟩ := h.far.recolor hcolor
  obtain ⟨m₃, hm₃, h₃⟩ := h₂.of_far.recolor recolors_rbSetBlack
  have he := h₃.far.reads
  have hf := h₃.far.far.reads
  obtain ⟨m₄, hm₄, h₄⟩ := h₃.far.far.recolor recolors_rbSetBlack
  obtain ⟨m₅, hm₅, h₅⟩ := h₄.of_far.of_far.rotate
  refine ⟨m₅, ?_, h₅⟩
  simp [eraseRotate, hup, ha.load, ha.rbColor, hm₂, hm₃, he.load, he.far,
    m₃.modifyIf_eq hf.nonnull, hm₄, hm₅]

lemma bothChildrenBlack_spec (h : Agrees m (plug ctx (.branch d c b v w))) :
    bothChildrenBlack b m = some (decide (v.color = .black ∧ w.color = .black)) := by
  have hb := h.reads
  have hv := h.near.isBlackOrNull
  have hw := h.far.isBlackOrNull
  cases d with
  | left =>
    have hl : (m.node b).rbLeft = ptr v := hb.near
    have hr : (m.node b).rbRight = ptr w := hb.far
    by_cases hvb : v.color = .black <;> simp [bothChildrenBlack, hb.load, hl, hr, hv, hw, hvb]
  | right =>
    have hl : (m.node b).rbLeft = ptr w := hb.far
    have hr : (m.node b).rbRight = ptr v := hb.near
    by_cases hwb : w.color = .black <;> simp [bothChildrenBlack, hb.load, hl, hr, hv, hw, hwb]

/-! ## The loop -/

/-- The subtree has `n` black nodes on every path, or a red root that only needs
to be made black. -/
def Short (n : Nat) (t : ColorTree Ptr) : Prop :=
  t.color = .black ∧ t.Ok n ∨ t.color = .red ∧ t.blacken.Ok (n + 1)

/-- Blackening the node at which the loop ends gives a tree with the sequence that
obeys the rules. -/
def Repaired (node : Ptr) (m : Mem) (sequence : List Ptr) : Prop :=
  ∃ ctx t, node = ptr t ∧ Agrees m (plug ctx t) ∧ (plug ctx t.blacken).Rules ∧
    (plug ctx t).inorder = sequence

/-- The rounds the loop may still take at a position. -/
def budget (ctx : List (Frame Ptr)) (t : ColorTree Ptr) : Nat :=
  if t.color = .black then ctx.length + 1 else 0

def LoopOk (loop : Ptr → Ptr → Mem → Option (Ptr × Mem)) (fuel : Nat) : Prop :=
  ∀ (m : Mem) (ctx : List (Frame Ptr)) (t : ColorTree Ptr) (n : Nat), budget ctx t < fuel →
    Agrees m (plug ctx t) → CtxOk (n + 1) ctx → Short n t →
    ∃ node m', loop (ptr t) (topPtr ctx) m = some (node, m') ∧
      Repaired node m' (plug ctx t).inorder

lemma eraseBlackSibling_spec {loop : Ptr → Ptr → Mem → Option (Ptr × Mem)}
    (hloop : LoopOk loop fuel) (hfuel : 0 < fuel) (hbudget : c = .black → ctx.length + 1 < fuel)
    (h : Agrees m (plug ctx (.branch d c a t (.branch d .black b v w)))) (ht : t.Ok n)
    (hctx : CtxOk (n + 1) (⟨d, c, a, .branch d .black b v w⟩ :: ctx)) :
    ∃ node m', eraseBlackSibling loop d a b m = some (node, m') ∧
      Repaired node m' (plug ctx (.branch d c a t (.branch d .black b v w))).inorder := by
  obtain ⟨hsib, hred, hctx⟩ := hctx
  obtain ⟨hv, hw⟩ := ok_black.mp hsib
  have hboth := bothChildrenBlack_spec h.far
  unfold eraseBlackSibling
  rw [hboth]
  by_cases hblack : v.color = .black ∧ w.color = .black
  · obtain ⟨m₁, hm₁, h₁⟩ := h.far.recolor recolors_rbSetRed
    have ha := h₁.of_far.reads
    have hok : (branch d .red b v w).Ok n := ok_red.mpr ⟨hv, hw, hblack⟩
    have hnext : ∃ node m', loop a (topPtr ctx) m₁ = some (node, m') ∧
        Repaired node m' (plug ctx (.branch d c a t (.branch d .red b v w))).inorder := by
      have hgo := hloop m₁ ctx (.branch d c a t (.branch d .red b v w))
      rw [ptr_branch] at hgo
      cases c with
      | red =>
        refine hgo n ?_ h₁.of_far hctx (.inr ⟨by simp, ?_⟩)
        · simpa [budget] using hfuel
        · rw [blacken_branch]
          exact ok_black.mpr ⟨ht, hok⟩
      | black =>
        refine hgo (n + 1) ?_ h₁.of_far hctx (.inl ⟨by simp, ok_black.mpr ⟨ht, hok⟩⟩)
        simpa [budget] using hbudget rfl
    obtain ⟨node, m', hm', hrep⟩ := hnext
    refine ⟨node, m', by simp [hblack, hm₁, ha.load, ha.rbParent, hm'], ?_⟩
    convert hrep using 1
    apply inorder_plug_congr
    simp only [inorder_branch]
  · -- a red child of the sibling ends the loop
    have hrules : ∀ {e f : Ptr} {u x y : ColorTree Ptr}, u.Ok n → x.Ok n → y.Ok n →
        (plug ctx (.branch d c e (.branch d .black a t u) (.branch d .black f x y))).Rules := by
      intro e f u x y hu hx hy
      refine rules_plug.mpr ⟨n + 1 + c.weight, ok_branch.mpr ⟨n + 1,
        ok_black.mpr ⟨ht, hu⟩, ok_black.mpr ⟨hx, hy⟩, rfl, by simp⟩, hctx, ?_⟩
      intro hc
      exact (hred (by simpa using hc)).2
    obtain ⟨m', t', hm', h', hrules', hseq⟩ : ∃ m' t', eraseRotate d a b m = some m' ∧
        Agrees m' (plug ctx t') ∧ (plug ctx t').Rules ∧
        t'.inorder = (branch d c a t (.branch d .black b v w)).inorder := by
      by_cases hwred : w.color = .red
      · obtain ⟨e, x, y, rfl⟩ := eq_branch_of_red d hwred
        obtain ⟨hx, hy, _⟩ := ok_red.mp hw
        obtain ⟨m', hm', h'⟩ := eraseRotate_spec (eraseNearUp_far h hwred) h
        refine ⟨m', _, hm', h', hrules hv hx hy, ?_⟩
        cases d <;> simp [branch, inorder]
      · have hwblack := Color.ne_red.mp hwred
        have hvred : v.color = .red := Color.ne_black.mp fun hvblack => hblack ⟨hvblack, hwblack⟩
        obtain ⟨e, x, y, rfl⟩ := eq_branch_of_red d hvred
        obtain ⟨hx, hy, _⟩ := ok_red.mp hv
        obtain ⟨m₁, hm₁, h₁⟩ := eraseNearUp_near h hwblack
        obtain ⟨m', hm', h'⟩ := eraseRotate_spec hm₁ h₁
        refine ⟨m', _, hm', h', hrules hx hy hw, ?_⟩
        cases d <;> simp [branch, inorder]
    refine ⟨m'.root, m', by simp [hblack, hm'], [], plug ctx t', h'.root, h', ?_, ?_⟩
    · rw [blacken_of_black hrules'.1]
      exact hrules'
    · exact inorder_plug_congr ctx hseq

lemma ptr_plug_mem (f : Frame Ptr) (ctx : List (Frame Ptr)) (t : ColorTree Ptr) :
    ptr (plug (f :: ctx) t) ∈ labels (f :: ctx) := by
  induction ctx generalizing f t with
  | nil => simp [plug, Frame.fill]
  | cons g ctx ih =>
    exact List.mem_append_right _ (ih g (f.fill t))

lemma Agrees.ptr_ne_root {f : Frame Ptr} (h : Agrees m (plug (f :: ctx) t)) :
    ptr t ≠ m.root := by
  have hmem : m.root ∈ labels (f :: ctx) := h.root ▸ ptr_plug_mem f ctx t
  intro heq
  rcases ptr_mem_or_zero t with hzero | htree
  · have hwhole : Agrees m (plug [] (plug (f :: ctx) t)) := h
    have hne : plug ctx (f.fill t) ≠ .nil := plug_ne_nil branch_ne_nil
    have hroot := hwhole.ptr_ne_zero hne
    exact hroot (h.root.symm.trans (heq.symm.trans hzero))
  · have hdisjoint := (List.nodup_append.mp (agrees_plug.mp h).2.2).2.2
    exact hdisjoint _ hmem _ htree heq.symm

lemma eraseLoop_round (ht : t.color = .black)
    (h : Agrees m (plug ctx (.branch d c a t (.branch d c' b v w)))) :
    eraseLoop (fuel + 1) (ptr t) a m =
      (eraseRedSibling d a b m).bind fun r => eraseBlackSibling (eraseLoop fuel) d a r.1 r.2 := by
  have hblack := h.near.isBlackOrNull
  have hroot := h.near.ptr_ne_root
  have ha := h.reads
  have hside := h.near.side (h.near.ptr_ne_sib (.inr branch_ne_nil))
  have hfar := ha.far
  rw [ptr_branch] at hfar
  simp only [eraseLoop, hblack, ht, decide_true, Option.bind_eq_bind, Option.bind_some,
    Bool.true_and, bne_iff_ne, ne_eq, hroot, not_false_eq_true, if_true, ha.load, hside, hfar]

lemma eraseLoop_spec (fuel : Nat) : LoopOk (eraseLoop fuel) fuel := by
  induction fuel with
  | zero => exact fun m ctx t n hbudget => absurd hbudget (Nat.not_lt_zero _)
  | succ fuel ih =>
    intro m ctx t n hbudget h hctx hshort
    have hblack := h.isBlackOrNull
    rcases hshort with ⟨hcolor, hok⟩ | ⟨hcolor, hok⟩
    · cases ctx with
      | nil =>
        have hroot : ptr t = m.root := h.root.symm
        refine ⟨ptr t, m, ?_, [], t, rfl, h, ?_, rfl⟩
        · rw [hroot] at hblack ⊢
          simp [eraseLoop, hblack]
        · rw [blacken_of_black hcolor]
          exact ⟨hcolor, n, hok⟩
      | cons f ctx =>
        obtain ⟨d, c, a, s⟩ := f
        have hlen : ctx.length + 1 < fuel := by
          simpa [budget, hcolor] using hbudget
        have hfuel : 0 < fuel := by omega
        obtain ⟨c', b, v, w, rfl⟩ := eq_branch d (ne_nil_of_ok hctx.1)
        change ∃ node m', eraseLoop (fuel + 1) (ptr t) a m = some (node, m') ∧
          Repaired node m' (plug ctx (.branch d c a t (.branch d c' b v w))).inorder
        rw [eraseLoop_round hcolor h]
        cases c' with
        | black =>
          rw [eraseRedSibling_black h]
          exact eraseBlackSibling_spec ih hfuel (fun _ => hlen) h hok hctx
        | red =>
          obtain ⟨hsib, hred, hctx⟩ := hctx
          obtain ⟨hv, hw, hvblack, hwblack⟩ := ok_red.mp hsib
          obtain rfl : c = .black := by
            by_contra hne
            simpa using (hred (Color.ne_black.mp hne)).1
          obtain ⟨e, x, y, rfl⟩ : ∃ e x y, v = .branch d .black e x y := by
            obtain ⟨c', e, x, y, rfl⟩ := eq_branch d (ne_nil_of_ok hv)
            obtain rfl : c' = .black := by simpa using hvblack
            exact ⟨e, x, y, rfl⟩
          obtain ⟨m₁, hm₁, h₁⟩ := eraseRedSibling_red h
          rw [hm₁, ptr_branch]
          have hctx₁ : CtxOk (n + 1) (⟨d, .red, a, .branch d .black e x y⟩ ::
              ⟨d, .black, b, w⟩ :: ctx) :=
            ⟨hv, fun _ => ⟨hvblack, rfl⟩, hw, by simp, hctx⟩
          obtain ⟨node, m', hm', hrep⟩ :=
            eraseBlackSibling_spec ih hfuel (by simp) h₁.near hok hctx₁
          refine ⟨node, m', hm', ?_⟩
          convert hrep using 1
          apply inorder_plug_congr
          cases d <;> simp [branch, inorder, Frame.fill]
    · refine ⟨ptr t, m, ?_, ctx, t, rfl, h, ?_, rfl⟩
      · simp [eraseLoop, hblack, hcolor]
      · exact rules_plug.mpr ⟨n + 1, hok, hctx, by simp⟩

lemma rbEraseColor_spec (hfuel : budget ctx t < fuel) (h : Agrees m (plug ctx t))
    (hctx : CtxOk (n + 1) ctx) (hshort : Short n t) :
    ∃ m' t', rbEraseColor fuel (ptr t) (topPtr ctx) m = some m' ∧ Agrees m' t' ∧ t'.Rules ∧
      t'.inorder = (plug ctx t).inorder := by
  obtain ⟨node, m₁, hm₁, ctx₁, t₁, rfl, h₁, hrules, hseq⟩ :=
    eraseLoop_spec fuel m ctx t n hfuel h hctx hshort
  by_cases ht : t₁ = .nil
  · subst ht
    refine ⟨m₁, _, ?_, h₁, hrules, hseq⟩
    rw [rbEraseColor, hm₁]
    simp [Mem.modifyIf, ptr]
  · obtain ⟨c, a, x, y, rfl⟩ := eq_branch .left ht
    obtain ⟨m', hm', h'⟩ := h₁.recolor recolors_rbSetBlack
    refine ⟨m', _, ?_, h', hrules, ?_⟩
    · have hne := h₁.reads.nonnull
      simp [rbEraseColor, hm₁, m₁.modifyIf_eq hne, hm']
    · rw [← hseq]
      exact inorder_plug_congr _ (inorder_recolor _ _ _ _ _ _)

end R0Kernel.Rbtree
