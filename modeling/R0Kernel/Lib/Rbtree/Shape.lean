import R0Kernel.Lib.Rbtree.Model

/-! # Memories that hold a tree

A memory agrees with a tree of node addresses if every node's word holds its
parent and colour and its links hold the addresses of its children. Reading and
recolouring are described for a node in a context.
-/

namespace R0Kernel.Rbtree

open R0Kernel.RedBlack

/-! ## The packed word -/

def Aligned (p : Ptr) : Prop := p &&& 3 = 0

instance (p : Ptr) : Decidable (Aligned p) := inferInstanceAs (Decidable (p &&& 3 = 0))

def colorWord : Color → UInt32
  | .red => rbRed
  | .black => rbBlack

def pack (p : Ptr) (c : Color) : UInt32 := p ||| colorWord c

section Words

variable {p q : Ptr} {c c' : Color}

lemma and_or_distrib (a b c : UInt32) : (a ||| b) &&& c = (a &&& c) ||| (b &&& c) := by
  apply UInt32.eq_of_toBitVec_eq
  ext i
  simp [Bool.and_or_distrib_right]

section

variable (hp : Aligned p)

include hp

lemma Aligned.and_not_three : p &&& ~~~3 = p := by
  have hsplit := and_or_distrib 3 (~~~3) p
  rw [UInt32.and_comm 3 p, hp, UInt32.and_comm (~~~3) p] at hsplit
  simpa using hsplit.symm

lemma Aligned.and_one : p &&& 1 = 0 := by
  have hone : (1 : UInt32) = 3 &&& 1 := by decide
  rw [hone, ← UInt32.and_assoc, hp]
  rfl

lemma Aligned.and_not_one : p &&& ~~~1 = p := by
  have hthree : (~~~3 &&& ~~~1 : UInt32) = ~~~3 := by decide
  rw [← hp.and_not_three, UInt32.and_assoc, hthree]

lemma pack_and_not_three : pack p c &&& ~~~3 = p := by
  have hc : colorWord c &&& ~~~3 = 0 := by cases c <;> decide
  rw [pack, and_or_distrib, hp.and_not_three, hc]
  simp

lemma pack_and_one : pack p c &&& 1 = colorWord c := by
  have hc : colorWord c &&& 1 = colorWord c := by cases c <;> decide
  rw [pack, and_or_distrib, hp.and_one, hc]
  simp

lemma pack_and_three : pack p c &&& 3 = colorWord c := by
  have hc : colorWord c &&& 3 = colorWord c := by cases c <;> decide
  have hp' : p &&& 3 = 0 := hp
  rw [pack, and_or_distrib, hp', hc]
  simp

lemma pack_and_not_one : pack p c &&& ~~~1 = p := by
  have hc : colorWord c &&& ~~~1 = 0 := by cases c <;> decide
  rw [pack, and_or_distrib, hp.and_not_one, hc]
  simp

end

lemma pack_or_one : pack p c ||| 1 = pack p .black := by
  have hc : colorWord c ||| 1 = colorWord .black := by cases c <;> decide
  rw [pack, UInt32.or_assoc, hc, pack]

lemma pack_red : pack p .red = p := by
  simp [pack, colorWord, rbRed]

end Words

/-! ## Trees in memory -/

def ptr : ColorTree Ptr → Ptr
  | .nil => 0
  | .node _ a _ _ => a

@[simp] lemma ptr_branch (d : Dir) (c : Color) (a : Ptr) (x y : ColorTree Ptr) :
    ptr (.branch d c a x y) = a := by
  cases d <;> rfl

/-- The node at `a` has the given parent, colour and children. -/
structure Holds (node : Ptr → RbNode) (parent a : Ptr) (c : Color) (l r : Ptr) : Prop where
  nonnull : a ≠ 0
  aligned : Aligned a
  word : (node a).rbParentColor = pack parent c
  left : (node a).rbLeft = l
  right : (node a).rbRight = r

/-- The memory holds the tree under a parent. -/
def Rep (node : Ptr → RbNode) (parent : Ptr) : ColorTree Ptr → Prop
  | .nil => True
  | .node c a l r => Holds node parent a c (ptr l) (ptr r) ∧ Rep node a l ∧ Rep node a r

variable {node node' : Ptr → RbNode} {parent a : Ptr} {c c' : Color} {d : Dir}
  {t x y : ColorTree Ptr} {ctx : List (Frame Ptr)} {f : Frame Ptr} {m m' : Mem}

lemma rep_branch : Rep node parent (.branch d c a x y) ↔
    a ≠ 0 ∧ Aligned a ∧ (node a).rbParentColor = pack parent c ∧
      (node a).child d = ptr x ∧ (node a).child d.flip = ptr y ∧ Rep node a x ∧ Rep node a y := by
  cases d with
  | left =>
    constructor
    · rintro ⟨⟨h1, h2, h3, h4, h5⟩, hx, hy⟩
      exact ⟨h1, h2, h3, h4, h5, hx, hy⟩
    · rintro ⟨h1, h2, h3, h4, h5, hx, hy⟩
      exact ⟨⟨h1, h2, h3, h4, h5⟩, hx, hy⟩
  | right =>
    constructor
    · rintro ⟨⟨h1, h2, h3, h4, h5⟩, hy, hx⟩
      exact ⟨h1, h2, h3, h5, h4, hx, hy⟩
    · rintro ⟨h1, h2, h3, h5, h4, hx, hy⟩
      exact ⟨⟨h1, h2, h3, h4, h5⟩, hy, hx⟩

lemma Rep.congr (h : Rep node parent t) (hsame : ∀ b ∈ t.inorder, node' b = node b) :
    Rep node' parent t := by
  induction t generalizing parent with
  | nil => trivial
  | node c a l r ihl ihr =>
    obtain ⟨⟨h1, h2, h3, h4, h5⟩, hl, hr⟩ := h
    have ha : node' a = node a := hsame a (by simp [ColorTree.inorder])
    refine ⟨⟨h1, h2, ha ▸ h3, ha ▸ h4, ha ▸ h5⟩, ihl hl fun b hb => hsame b ?_,
      ihr hr fun b hb => hsame b ?_⟩
    · simp [ColorTree.inorder, hb]
    · simp [ColorTree.inorder, hb]

/-- The address of the node above the hole. -/
def topPtr : List (Frame Ptr) → Ptr
  | [] => 0
  | f :: _ => f.label

/-- The memory holds the context of a hole that is filled with `p`. -/
def CtxRep (m : Mem) : List (Frame Ptr) → Ptr → Prop
  | [], p => m.root = p
  | f :: ctx, p => f.label ≠ 0 ∧ Aligned f.label ∧
      (m.node f.label).rbParentColor = pack (topPtr ctx) f.color ∧
      (m.node f.label).child f.dir = p ∧ (m.node f.label).child f.dir.flip = ptr f.sib ∧
      Rep m.node f.label f.sib ∧ CtxRep m ctx f.label

lemma CtxRep.congr {p : Ptr} (h : CtxRep m ctx p) (hroot : m'.root = m.root)
    (hsame : ∀ b ∈ labels ctx, m'.node b = m.node b) : CtxRep m' ctx p := by
  induction ctx generalizing p with
  | nil => exact hroot.trans h
  | cons f ctx ih =>
    obtain ⟨h1, h2, h3, h4, h5, h6, h7⟩ := h
    have hf : m'.node f.label = m.node f.label := hsame _ (by simp)
    refine ⟨h1, h2, hf ▸ h3, hf ▸ h4, hf ▸ h5, h6.congr fun b hb => hsame b (by simp [hb]),
      ih h7 fun b hb => hsame b (by simp [hb])⟩

lemma rep_plug : Rep m.node 0 (plug ctx t) ∧ m.root = ptr (plug ctx t) ↔
    Rep m.node (topPtr ctx) t ∧ CtxRep m ctx (ptr t) := by
  induction ctx generalizing t with
  | nil => exact Iff.rfl
  | cons f ctx ih =>
    rw [plug, ih, Frame.fill, rep_branch, ptr_branch]
    constructor
    · rintro ⟨⟨h1, h2, h3, h4, h5, h6, h7⟩, h8⟩
      exact ⟨h6, h1, h2, h3, h4, h5, h7, h8⟩
    · rintro ⟨h6, h1, h2, h3, h4, h5, h7, h8⟩
      exact ⟨⟨h1, h2, h3, h4, h5, h6, h7⟩, h8⟩

/-- The memory holds the tree, whose nodes are distinct. -/
structure Agrees (m : Mem) (t : ColorTree Ptr) : Prop where
  rep : Rep m.node 0 t
  root : m.root = ptr t
  nodup : t.inorder.Nodup

lemma agrees_plug : Agrees m (plug ctx t) ↔
    Rep m.node (topPtr ctx) t ∧ CtxRep m ctx (ptr t) ∧ (labels ctx ++ t.inorder).Nodup := by
  constructor
  · rintro ⟨hrep, hroot, hnodup⟩
    obtain ⟨ht, hctx⟩ := rep_plug.mp ⟨hrep, hroot⟩
    exact ⟨ht, hctx, (inorder_plug_perm ctx t).nodup_iff.mp hnodup⟩
  · rintro ⟨ht, hctx, hnodup⟩
    obtain ⟨hrep, hroot⟩ := rep_plug.mpr ⟨ht, hctx⟩
    exact ⟨hrep, hroot, (inorder_plug_perm ctx t).nodup_iff.mpr hnodup⟩

end R0Kernel.Rbtree
