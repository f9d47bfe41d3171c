import Mathlib

/-! # Red-black trees and their contexts

Binary trees with coloured, labelled nodes, seen from a subtree in a context of
frames. The two sides are named by a direction, so that a fact and its mirror
image are one statement.
-/

namespace R0Kernel.RedBlack

open List

inductive Color where
  | red
  | black
  deriving DecidableEq

/-- What a node of the colour adds to the black height. -/
def Color.weight : Color → Nat
  | .red => 0
  | .black => 1

lemma Color.ne_red {c : Color} : c ≠ .red ↔ c = .black := by
  cases c <;> simp

lemma Color.ne_black {c : Color} : c ≠ .black ↔ c = .red := by
  cases c <;> simp

inductive Dir where
  | left
  | right
  deriving DecidableEq

def Dir.flip : Dir → Dir
  | .left => .right
  | .right => .left

@[simp] lemma Dir.flip_flip (d : Dir) : d.flip.flip = d := by
  cases d <;> rfl

lemma Dir.eq_or_eq_flip (d e : Dir) : e = d ∨ e = d.flip := by
  cases d <;> cases e <;> simp [Dir.flip]

inductive ColorTree (α : Type*) where
  | nil
  | node (color : Color) (label : α) (left right : ColorTree α)
  deriving DecidableEq

namespace ColorTree

variable {α : Type*}

/-- A node with the child `near` on side `d` and `far` on the other. -/
def branch (d : Dir) (c : Color) (a : α) (near far : ColorTree α) : ColorTree α :=
  match d with
  | .left => node c a near far
  | .right => node c a far near

@[simp] lemma branch_flip (d : Dir) (c : Color) (a : α) (x y : ColorTree α) :
    branch d.flip c a x y = branch d c a y x := by
  cases d <;> rfl

variable {d : Dir} {a : α} {x y t : ColorTree α} {n : Nat}

lemma branch_ne_nil {c : Color} :
    branch d c a x y ≠ nil := by
  cases d <;> simp [branch]

lemma eq_branch (d : Dir) (ht : t ≠ nil) :
    ∃ c a x y, t = branch d c a x y := by
  cases t with
  | nil => exact absurd rfl ht
  | node c a l r =>
    cases d with
    | left => exact ⟨c, a, l, r, rfl⟩
    | right => exact ⟨c, a, r, l, rfl⟩

/-- The colour of the root; an empty tree counts as black. -/
def color : ColorTree α → Color
  | nil => .black
  | node c _ _ _ => c

@[simp] lemma color_branch (d : Dir) (c : Color) (a : α) (x y : ColorTree α) :
    (branch d c a x y).color = c := by
  cases d <;> rfl

lemma eq_branch_of_red (d : Dir) (ht : t.color = .red) :
    ∃ a x y, t = branch d .red a x y := by
  obtain ⟨c, a, x, y, rfl⟩ := eq_branch d (t := t) (by rintro rfl; simp [color] at ht)
  obtain rfl : c = .red := by simpa using ht
  exact ⟨a, x, y, rfl⟩

def inorder : ColorTree α → List α
  | nil => []
  | node _ a l r => l.inorder ++ a :: r.inorder

lemma inorder_branch (d : Dir) (c : Color) (a : α) (x y : ColorTree α) :
    (branch d c a x y).inorder =
      match d with
      | .left => x.inorder ++ a :: y.inorder
      | .right => y.inorder ++ a :: x.inorder := by
  cases d <;> rfl

lemma inorder_branch_perm (d : Dir) (c : Color) (a : α) (x y : ColorTree α) :
    (branch d c a x y).inorder.Perm (a :: (x.inorder ++ y.inorder)) := by
  cases d with
  | left => exact perm_middle
  | right => exact perm_middle.trans (perm_append_comm.cons a)

@[simp] lemma mem_inorder_branch {d : Dir} {c : Color} {a b : α} {x y : ColorTree α} :
    b ∈ (branch d c a x y).inorder ↔ b = a ∨ b ∈ x.inorder ∨ b ∈ y.inorder := by
  rw [(inorder_branch_perm d c a x y).mem_iff]
  simp

lemma inorder_recolor (d : Dir) (c c' : Color) (a : α) (x y : ColorTree α) :
    (branch d c a x y).inorder = (branch d c' a x y).inorder := by
  cases d <;> rfl

lemma inorder_rotate (d : Dir) (c c' : Color) (a b : α) (x y z : ColorTree α) :
    (branch d c a x (branch d c' b y z)).inorder =
      (branch d c' b (branch d c a x y) z).inorder := by
  cases d <;> simp [branch, inorder]

/-- Every path from the root to an empty subtree has `n` black nodes, and no red
node has a red child. -/
def Ok : Nat → ColorTree α → Prop
  | n, nil => n = 0
  | n, node c _ l r => ∃ m, l.Ok m ∧ r.Ok m ∧ n = m + c.weight ∧
      (c = .red → l.color = .black ∧ r.color = .black)

lemma ok_branch {c : Color} :
    (branch d c a x y).Ok n ↔ ∃ m, x.Ok m ∧ y.Ok m ∧ n = m + c.weight ∧
      (c = .red → x.color = .black ∧ y.color = .black) := by
  cases d with
  | left => exact Iff.rfl
  | right =>
    constructor
    · rintro ⟨m, hy, hx, hn, hc⟩
      exact ⟨m, hx, hy, hn, fun h => (hc h).symm⟩
    · rintro ⟨m, hx, hy, hn, hc⟩
      exact ⟨m, hy, hx, hn, fun h => (hc h).symm⟩

lemma ok_red :
    (branch d .red a x y).Ok n ↔ x.Ok n ∧ y.Ok n ∧ x.color = .black ∧ y.color = .black := by
  rw [ok_branch]
  constructor
  · rintro ⟨m, hx, hy, rfl, hc⟩
    exact ⟨hx, hy, hc rfl⟩
  · rintro ⟨hx, hy, hc⟩
    exact ⟨n, hx, hy, rfl, fun _ => hc⟩

lemma ok_black :
    (branch d .black a x y).Ok (n + 1) ↔ x.Ok n ∧ y.Ok n := by
  rw [ok_branch]
  constructor
  · rintro ⟨m, hx, hy, hn, _⟩
    obtain rfl : n = m := by simpa [Color.weight] using hn
    exact ⟨hx, hy⟩
  · rintro ⟨hx, hy⟩
    exact ⟨n, hx, hy, rfl, by simp⟩

lemma ne_nil_of_ok (h : t.Ok (n + 1)) : t ≠ nil := by
  rintro rfl
  simp [Ok] at h

def blacken : ColorTree α → ColorTree α
  | nil => nil
  | node _ a l r => node .black a l r

@[simp] lemma blacken_branch (d : Dir) (c : Color) (a : α) (x y : ColorTree α) :
    (branch d c a x y).blacken = branch d .black a x y := by
  cases d <;> rfl

@[simp] lemma color_blacken (t : ColorTree α) : t.blacken.color = .black := by
  cases t <;> rfl

lemma blacken_of_black (h : t.color = .black) : t.blacken = t := by
  cases t with
  | nil => rfl
  | node c a l r => exact congrArg (node · a l r) h.symm

/-- The red-black rules of a whole tree. -/
def Rules (t : ColorTree α) : Prop := t.color = .black ∧ ∃ n, t.Ok n

end ColorTree

/-! ## Contexts -/

/-- A node with a hole on side `dir` and the subtree `sib` on the other. -/
structure Frame (α : Type*) where
  dir : Dir
  color : Color
  label : α
  sib : ColorTree α

namespace Frame

variable {α : Type*}

def fill (f : Frame α) (t : ColorTree α) : ColorTree α :=
  ColorTree.branch f.dir f.color f.label t f.sib

end Frame

variable {α : Type*}

/-- Put a tree into the hole of a context, the innermost frame first. -/
def plug : List (Frame α) → ColorTree α → ColorTree α
  | [], t => t
  | f :: ctx, t => plug ctx (f.fill t)

/-- The colour above the hole. The place above the root counts as red: the root
may not be red. -/
def topColor : List (Frame α) → Color
  | [] => .red
  | f :: _ => f.color

/-- The context obeys the rules around a hole for a tree of black height `n`. -/
def CtxOk : Nat → List (Frame α) → Prop
  | _, [] => True
  | n, f :: ctx => f.sib.Ok n ∧ (f.color = .red → f.sib.color = .black ∧ topColor ctx = .black) ∧
      CtxOk (n + f.color.weight) ctx

lemma rules_plug {ctx : List (Frame α)} {t : ColorTree α} :
    (plug ctx t).Rules ↔
      ∃ n, t.Ok n ∧ CtxOk n ctx ∧ (t.color = .red → topColor ctx = .black) := by
  induction ctx generalizing t with
  | nil =>
    constructor
    · rintro ⟨hblack, n, hn⟩
      refine ⟨n, hn, trivial, fun hred => ?_⟩
      cases hred.symm.trans hblack
    · rintro ⟨n, hn, _, hroot⟩
      refine ⟨?_, n, hn⟩
      by_contra hne
      cases hroot (Color.ne_black.mp hne)
  | cons f ctx ih =>
    rw [plug, ih]
    constructor
    · rintro ⟨n, hok, hctx, htop⟩
      obtain ⟨m, ht, hsib, rfl, hc⟩ := ColorTree.ok_branch.mp hok
      refine ⟨m, ht, ⟨hsib, fun hred => ⟨(hc hred).2, htop (by simpa [Frame.fill] using hred)⟩,
        hctx⟩, fun hred => ?_⟩
      by_contra hne
      simp [(hc (Color.ne_black.mp hne)).1] at hred
    · rintro ⟨n, ht, ⟨hsib, hf, hctx⟩, htop⟩
      refine ⟨n + f.color.weight, ColorTree.ok_branch.mpr ⟨n, ht, hsib, rfl, fun hred => ?_⟩, hctx,
        fun hred => (hf (by simpa [Frame.fill] using hred)).2⟩
      refine ⟨?_, (hf hred).1⟩
      by_contra hne
      have hblack := htop (Color.ne_black.mp hne)
      simp [topColor, hred] at hblack

/-- The labels of a context in order, before and after the hole. -/
def labelsBefore : List (Frame α) → List α
  | [] => []
  | f :: ctx => labelsBefore ctx ++
      match f.dir with
      | .left => []
      | .right => f.sib.inorder ++ [f.label]

def labelsAfter : List (Frame α) → List α
  | [] => []
  | f :: ctx =>
    (match f.dir with
    | .left => f.label :: f.sib.inorder
    | .right => []) ++ labelsAfter ctx

lemma inorder_plug (ctx : List (Frame α)) (t : ColorTree α) :
    (plug ctx t).inorder = labelsBefore ctx ++ t.inorder ++ labelsAfter ctx := by
  induction ctx generalizing t with
  | nil => simp [plug, labelsBefore, labelsAfter]
  | cons f ctx ih =>
    rw [plug, ih, Frame.fill, ColorTree.inorder_branch, labelsBefore, labelsAfter]
    cases f.dir <;> simp

def labels (ctx : List (Frame α)) : List α :=
  ctx.flatMap fun f => f.label :: f.sib.inorder

@[simp] lemma labels_cons (f : Frame α) (ctx : List (Frame α)) :
    labels (f :: ctx) = f.label :: f.sib.inorder ++ labels ctx := rfl

lemma inorder_plug_perm (ctx : List (Frame α)) (t : ColorTree α) :
    (plug ctx t).inorder.Perm (labels ctx ++ t.inorder) := by
  induction ctx generalizing t with
  | nil => exact List.Perm.refl _
  | cons f ctx ih =>
    have hfill := ColorTree.inorder_branch_perm f.dir f.color f.label t f.sib
    have hrest : (labels ctx ++ (t.inorder ++ f.sib.inorder)).Perm
        (f.sib.inorder ++ labels ctx ++ t.inorder) := by
      rw [← append_assoc, append_assoc f.sib.inorder]
      exact perm_append_comm
    refine (ih (f.fill t)).trans ((hfill.append_left _).trans (perm_middle.trans ?_))
    exact hrest.cons f.label

lemma length_le_labels (ctx : List (Frame α)) : ctx.length ≤ (labels ctx).length := by
  induction ctx with
  | nil => exact le_refl _
  | cons f ctx ih =>
    rw [labels_cons, cons_append, length_cons, length_cons, length_append]
    exact Nat.succ_le_succ (ih.trans (Nat.le_add_left _ _))

lemma plug_append (inner outer : List (Frame α)) (t : ColorTree α) :
    plug (inner ++ outer) t = plug outer (plug inner t) := by
  induction inner generalizing t with
  | nil => rfl
  | cons f inner ih => exact ih (f.fill t)

lemma labels_append (inner outer : List (Frame α)) :
    labels (inner ++ outer) = labels inner ++ labels outer := flatMap_append

lemma exists_plug_of_mem {a : α} {t : ColorTree α} (h : a ∈ t.inorder) :
    ∃ ctx c l r, t = plug ctx (.branch .left c a l r) := by
  induction t with
  | nil => cases h
  | node c b l r ihl ihr =>
    simp only [ColorTree.inorder, mem_append, mem_cons] at h
    rcases h with hl | rfl | hr
    · obtain ⟨ctx, c', x, y, hctx⟩ := ihl hl
      refine ⟨ctx ++ [⟨.left, c, b, r⟩], c', x, y, ?_⟩
      rw [plug_append, ← hctx]
      rfl
    · exact ⟨[], c, l, r, rfl⟩
    · obtain ⟨ctx, c', x, y, hctx⟩ := ihr hr
      refine ⟨ctx ++ [⟨.right, c, b, l⟩], c', x, y, ?_⟩
      rw [plug_append, ← hctx]
      rfl

lemma ctxOk_relabel (inner outer : List (Frame α)) (d : Dir) (c : Color) (a b : α)
    (sib : ColorTree α) {n : Nat} (h : CtxOk n (inner ++ ⟨d, c, a, sib⟩ :: outer)) :
    CtxOk n (inner ++ ⟨d, c, b, sib⟩ :: outer) := by
  induction inner generalizing n with
  | nil => exact h
  | cons f inner ih =>
    obtain ⟨hsib, hred, hrest⟩ := h
    refine ⟨hsib, ?_, ih hrest⟩
    cases inner <;> exact hred

lemma inorder_plug_congr (ctx : List (Frame α)) {t t' : ColorTree α}
    (h : t.inorder = t'.inorder) : (plug ctx t).inorder = (plug ctx t').inorder := by
  rw [inorder_plug, inorder_plug, h]

end R0Kernel.RedBlack
