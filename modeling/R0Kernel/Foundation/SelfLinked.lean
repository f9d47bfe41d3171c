import Mathlib

/-!
# Binary trees whose empty links lead back

Binary trees in memory where every node has two children and a parent, a missing child is a link
of the node to itself, and so is the parent of the root. A tree is seen from a subtree in a context
of frames; the two sides are named, so that a fact and its mirror image are one statement.
-/

namespace R0Kernel.SelfLinked

open BinaryTree Multiset

variable {α : Type*}

inductive Side where
  | left
  | right
  deriving DecidableEq

def Side.flip : Side → Side
  | .left => .right
  | .right => .left

lemma Side.flip_ne (s : Side) : s.flip ≠ s := by
  cases s <;> decide

inductive Field where
  | child (s : Side)
  | parent
  deriving DecidableEq

/-- What the fields of all nodes hold. -/
abbrev Links (α : Type*) := Field → α → α

namespace Links

variable [DecidableEq α]

def set (m : Links α) (f : Field) (a v : α) : Links α := fun g b =>
  if g = f ∧ b = a then v else m g b

/-- All fields of a node lead back to it. -/
def init (m : Links α) (a : α) : Links α := fun g b => if b = a then a else m g b

variable (m : Links α)

include m

@[simp]
lemma set_self (f : Field) (a v : α) : m.set f a v f a = v :=
  if_pos ⟨rfl, rfl⟩

lemma set_of_field_ne {f g : Field} (a v b : α) (h : g ≠ f) :
    m.set f a v g b = m g b :=
  if_neg fun hc => h hc.1

lemma set_of_ne (f g : Field) {a b : α} (v : α) (h : b ≠ a) :
    m.set f a v g b = m g b :=
  if_neg fun hc => h hc.2

lemma set_comm {f g : Field} {a b : α} (v w : α) (h : a ≠ b) :
    (m.set f a v).set g b w = (m.set g b w).set f a v := by
  funext k c
  simp only [set]
  by_cases hc : c = b
  · simp [hc, h.symm]
  · simp [hc]

@[simp]
lemma init_self (f : Field) (a : α) : m.init a f a = a :=
  if_pos rfl

lemma init_of_ne (f : Field) {a b : α} (h : b ≠ a) : m.init a f b = m f b :=
  if_neg h

end Links

/-! ### Trees in contexts -/

def top : BinaryTree α → Option α
  | nil => none
  | node a _ _ => some a

def ids : BinaryTree α → Multiset α
  | nil => 0
  | node a l r => a ::ₘ (ids l + ids r)

/-- A node with the child `near` on the side `s` and `far` on the other. -/
def branch (s : Side) (a : α) (near far : BinaryTree α) : BinaryTree α :=
  match s with
  | .left => node a near far
  | .right => node a far near

/-- A node with a hole on one side. -/
structure Frame (α : Type*) where
  side : Side
  node : α
  sib : BinaryTree α

def Frame.fill (f : Frame α) (t : BinaryTree α) : BinaryTree α := branch f.side f.node t f.sib

/-- A tree in the context of frames, the innermost one first. -/
def plug : List (Frame α) → BinaryTree α → BinaryTree α
  | [], t => t
  | f :: C, t => plug C (f.fill t)

def ctxIds : List (Frame α) → Multiset α
  | [] => 0
  | f :: C => f.node ::ₘ (ids f.sib + ctxIds C)

/-- The parent of what is in the hole, with `p` the parent of the whole tree. -/
def owner (p : Option α) : List (Frame α) → Option α
  | [] => p
  | f :: _ => some f.node

lemma mem_near {s t : Multiset α} {a b : α} (h : b ∈ s) : b ∈ a ::ₘ (s + t) :=
  mem_cons_of_mem (mem_add.mpr (.inl h))

lemma mem_far {s t : Multiset α} {a b : α} (h : b ∈ t) : b ∈ a ::ₘ (s + t) :=
  mem_cons_of_mem (mem_add.mpr (.inr h))

@[simp]
lemma top_branch (s : Side) (a : α) (x y : BinaryTree α) : top (branch s a x y) = some a := by
  cases s <;> rfl

@[simp]
lemma ids_branch (s : Side) (a : α) (x y : BinaryTree α) :
    ids (branch s a x y) = a ::ₘ (ids x + ids y) := by
  cases s with
  | left => rfl
  | right => exact congrArg (a ::ₘ ·) (add_comm _ _)

lemma ids_plug (C : List (Frame α)) (t : BinaryTree α) : ids (plug C t) = ids t + ctxIds C := by
  induction C generalizing t with
  | nil => exact (add_zero _).symm
  | cons f C ih =>
    rw [plug, ih, Frame.fill, ids_branch, ctxIds, cons_add, add_cons, add_assoc]

lemma ctxIds_append (C D : List (Frame α)) : ctxIds (C ++ D) = ctxIds C + ctxIds D := by
  induction C with
  | nil => exact (zero_add _).symm
  | cons f C ih =>
    rw [List.cons_append, ctxIds, ctxIds, ih, cons_add, add_assoc]

lemma plug_append (C D : List (Frame α)) (t : BinaryTree α) :
    plug (C ++ D) t = plug D (plug C t) := by
  induction C generalizing t with
  | nil => rfl
  | cons f C ih => exact ih _

lemma top_plug_cons (f : Frame α) (C : List (Frame α)) (t t' : BinaryTree α) :
    top (plug (f :: C) t) = top (plug (f :: C) t') := by
  induction C generalizing f t t' with
  | nil => rw [plug, plug, plug, plug, Frame.fill, Frame.fill, top_branch, top_branch]
  | cons g C ih => exact ih g (f.fill t) (f.fill t')

lemma top_eq_none {t : BinaryTree α} : top t = none ↔ t = nil := by
  cases t with
  | nil => exact ⟨fun _ => rfl, fun _ => rfl⟩
  | node a l r => exact ⟨nofun, nofun⟩

lemma exists_of_top {t : BinaryTree α} {a : α} (h : top t = some a) :
    ∃ l r, t = node a l r := by
  cases t with
  | nil => cases h
  | node b l r => exact ⟨l, r, by rw [Option.some.inj h]⟩

lemma mem_ids_of_top {t : BinaryTree α} {a : α} (h : top t = some a) : a ∈ ids t := by
  obtain ⟨l, r, rfl⟩ := exists_of_top h
  exact mem_cons_self _ _

lemma exists_plug {t : BinaryTree α} {a : α} (h : a ∈ ids t) :
    ∃ C l r, t = plug C (node a l r) := by
  induction t with
  | nil => cases h
  | node b l r ihl ihr =>
    rcases mem_cons.mp h with rfl | h
    · exact ⟨[], l, r, rfl⟩
    · rcases mem_add.mp h with h | h
      · obtain ⟨C, l', r', rfl⟩ := ihl h
        exact ⟨C ++ [⟨.left, b, r⟩], l', r', by rw [plug_append]; rfl⟩
      · obtain ⟨C, l', r', rfl⟩ := ihr h
        exact ⟨C ++ [⟨.right, b, l⟩], l', r', by rw [plug_append]; rfl⟩

/-! ### Traversal from the top -/

/-- The nodes of a tree, each before its subtrees and the left subtree first. -/
def pre : BinaryTree α → List α
  | nil => []
  | node a l r => a :: (pre l ++ pre r)

/-- What a traversal still has to visit after the tree in the hole: the right subtrees of the frames
entered on the left. -/
def rest : List (Frame α) → List α
  | [] => []
  | ⟨.left, _, sib⟩ :: C => pre sib ++ rest C
  | ⟨.right, _, _⟩ :: C => rest C

lemma coe_pre (t : BinaryTree α) : (↑(pre t) : Multiset α) = ids t := by
  induction t with
  | nil => rfl
  | node a l r ihl ihr => rw [pre, ids, ← cons_coe, ← coe_add, ihl, ihr]

lemma mem_pre {t : BinaryTree α} {a : α} : a ∈ pre t ↔ a ∈ ids t := by
  rw [← coe_pre, mem_coe]

lemma length_le_card_ctxIds (C : List (Frame α)) :
    C.length + (rest C).length ≤ (ctxIds C).card := by
  induction C with
  | nil => exact le_rfl
  | cons f C ih =>
    obtain ⟨side, a, sib⟩ := f
    rw [ctxIds, card_cons, card_add, ← coe_pre, coe_card,
      List.length_cons]
    cases side with
    | left =>
      rw [rest, List.length_append]
      dsimp only
      omega
    | right =>
      rw [rest]
      omega

/-! ### The tree that the links represent -/

/-- The links of the nodes of a tree, whose top has the parent `p`. -/
def Rep (m : Links α) (p : Option α) : BinaryTree α → Prop
  | nil => True
  | node a l r => m .parent a = p.getD a ∧ m (.child .left) a = (top l).getD a ∧
      m (.child .right) a = (top r).getD a ∧ Rep m (some a) l ∧ Rep m (some a) r

/-- The links of the nodes of a context, with `q` in its hole. -/
def CtxRep (m : Links α) (p : Option α) : List (Frame α) → Option α → Prop
  | [], _ => True
  | f :: C, q => m .parent f.node = (owner p C).getD f.node ∧
      m (.child f.side) f.node = q.getD f.node ∧
      m (.child f.side.flip) f.node = (top f.sib).getD f.node ∧
      Rep m (some f.node) f.sib ∧ CtxRep m p C (some f.node)

variable {m m' : Links α} {p q : Option α} {s t l r : BinaryTree α} {C : List (Frame α)}
  {f : Frame α} {a b c new old : α}

lemma rep_branch {d : Side} {x y : BinaryTree α} :
    Rep m p (branch d a x y) ↔ m .parent a = p.getD a ∧ m (.child d) a = (top x).getD a ∧
      m (.child d.flip) a = (top y).getD a ∧ Rep m (some a) x ∧ Rep m (some a) y := by
  cases d with
  | left => exact Iff.rfl
  | right =>
    constructor
    · rintro ⟨hp, hl, hr, hy, hx⟩
      exact ⟨hp, hr, hl, hx, hy⟩
    · rintro ⟨hp, hr, hl, hx, hy⟩
      exact ⟨hp, hl, hr, hy, hx⟩

lemma rep_plug : Rep m p (plug C t) ↔ CtxRep m p C (top t) ∧ Rep m (owner p C) t := by
  induction C generalizing t with
  | nil => exact ⟨fun h => ⟨trivial, h⟩, fun h => h.2⟩
  | cons f C ih =>
    rw [plug, ih, Frame.fill, top_branch, rep_branch]
    constructor
    · rintro ⟨hC, hp, hnear, hfar, ht, hsib⟩
      exact ⟨⟨hp, hnear, hfar, hsib, hC⟩, ht⟩
    · rintro ⟨⟨hp, hnear, hfar, hsib, hC⟩, ht⟩
      exact ⟨hC, hp, hnear, hfar, ht, hsib⟩

lemma Rep.congr (h : Rep m p t) (hm : ∀ a ∈ ids t, ∀ f, m' f a = m f a) : Rep m' p t := by
  induction t generalizing p with
  | nil => trivial
  | node a l r ihl ihr =>
    obtain ⟨hp, hl, hr, hrepl, hrepr⟩ := h
    have ha := hm a (mem_cons_self _ _)
    refine ⟨(ha _).trans hp, (ha _).trans hl, (ha _).trans hr, ihl hrepl ?_, ihr hrepr ?_⟩
    · exact fun b hb => hm b (mem_near hb)
    · exact fun b hb => hm b (mem_far hb)

lemma CtxRep.congr (h : CtxRep m p C q) (hm : ∀ a ∈ ctxIds C, ∀ f, m' f a = m f a) :
    CtxRep m' p C q := by
  induction C generalizing q with
  | nil => trivial
  | cons f C ih =>
    obtain ⟨hp, hnear, hfar, hsib, hC⟩ := h
    have hf := hm f.node (mem_cons_self _ _)
    refine ⟨(hf _).trans hp, (hf _).trans hnear, (hf _).trans hfar, hsib.congr ?_, ih hC ?_⟩
    · exact fun b hb => hm b (mem_near hb)
    · exact fun b hb => hm b (mem_far hb)

/-- Another parent for the top of a tree, whose other nodes keep their links. -/
lemma Rep.reparent (h : Rep m p (node a l r))
    (hp : m' .parent a = q.getD a) (hchild : ∀ s, m' (.child s) a = m (.child s) a)
    (hm : ∀ b ∈ ids l + ids r, ∀ f, m' f b = m f b) : Rep m' q (node a l r) := by
  obtain ⟨-, hl, hr, hrepl, hrepr⟩ := h
  refine ⟨hp, (hchild _).trans hl, (hchild _).trans hr, hrepl.congr ?_, hrepr.congr ?_⟩
  · exact fun b hb => hm b (mem_add.mpr (.inl hb))
  · exact fun b hb => hm b (mem_add.mpr (.inr hb))

/-- Another node in the hole of a context, whose other links stay. -/
lemma CtxRep.redirect (h : CtxRep m p (f :: C) q) (q' : Option α)
    (hnear : m' (.child f.side) f.node = q'.getD f.node)
    (hself : ∀ g, g ≠ .child f.side → m' g f.node = m g f.node)
    (hm : ∀ a ∈ ids f.sib + ctxIds C, ∀ g, m' g a = m g a) : CtxRep m' p (f :: C) q' := by
  obtain ⟨hp, -, hfar, hsib, hC⟩ := h
  have hflip : Field.child f.side.flip ≠ .child f.side := fun heq =>
    f.side.flip_ne (Field.child.inj heq)
  have hparent : Field.parent ≠ .child f.side := nofun
  refine ⟨(hself _ hparent).trans hp, hnear, (hself _ hflip).trans hfar, hsib.congr ?_, hC.congr ?_⟩
  · exact fun b hb => hm b (mem_add.mpr (.inl hb))
  · exact fun b hb => hm b (mem_add.mpr (.inr hb))

section Writes

variable [DecidableEq α]

lemma Rep.init (h : Rep m p t) (hb : b ∉ ids t) : Rep (m.init b) p t :=
  h.congr fun _ ha f => m.init_of_ne f (ne_of_mem_of_not_mem ha hb)

lemma rep_init_self (m : Links α) (b : α) : Rep (m.init b) none (node b nil nil) :=
  ⟨m.init_self .., m.init_self .., m.init_self .., trivial, trivial⟩

/-- A link of a node back to itself takes what was there out of the tree. -/
lemma Rep.detach (h : Rep m p (plug (f :: C) t)) (hnodup : (ctxIds (f :: C)).Nodup) :
    Rep (m.set (.child f.side) f.node f.node) p (plug (f :: C) nil) := by
  obtain ⟨hf, -⟩ := nodup_cons.mp hnodup
  refine rep_plug.mpr ⟨(rep_plug.mp h).1.redirect none (m.set_self ..) ?_ ?_, trivial⟩
  · exact fun g hg => m.set_of_field_ne _ _ _ hg
  · intro a ha g
    apply m.set_of_ne
    rintro rfl
    exact hf ha

/-- A tree from elsewhere is hung into the place of another one. -/
lemma Rep.attach (h : Rep m p (plug (f :: C) t)) (hs : Rep m q (node b l r))
    (hnodup : (ids (node b l r) + ctxIds (f :: C)).Nodup) :
    Rep ((m.set (.child f.side) f.node b).set .parent b f.node) p (plug (f :: C) (node b l r)) := by
  obtain ⟨hnb, hnC, hdisj⟩ := nodup_add.mp hnodup
  obtain ⟨hb, -⟩ := nodup_cons.mp hnb
  obtain ⟨hf, -⟩ := nodup_cons.mp hnC
  have hbf : b ≠ f.node := by
    rintro rfl
    exact disjoint_left.mp hdisj (mem_cons_self _ _) (mem_cons_self _ _)
  have hbC : b ∉ ids f.sib + ctxIds C := fun hmem =>
    disjoint_left.mp hdisj (mem_cons_self _ _) (mem_cons_of_mem hmem)
  have hfs : f.node ∉ ids (node b l r) := fun hmem =>
    disjoint_left.mp hdisj hmem (mem_cons_self _ _)
  refine rep_plug.mpr ⟨(rep_plug.mp h).1.redirect (some b) ?_ ?_ ?_, hs.reparent ?_ ?_ ?_⟩
  · rw [Links.set_of_ne _ _ _ _ hbf.symm, Links.set_self]
    rfl
  · intro g hg
    rw [Links.set_of_ne _ _ _ _ hbf.symm, Links.set_of_field_ne _ _ _ _ hg]
  · intro a ha g
    rw [Links.set_of_ne, Links.set_of_ne]
    · rintro rfl
      exact hf ha
    · rintro rfl
      exact hbC ha
  · exact Links.set_self ..
  · intro s
    have hs : Field.child s ≠ .parent := nofun
    rw [Links.set_of_field_ne _ _ _ _ hs, Links.set_of_ne _ _ _ _ hbf]
  · intro a ha g
    rw [Links.set_of_ne, Links.set_of_ne]
    · rintro rfl
      exact hfs (mem_cons_of_mem ha)
    · rintro rfl
      exact hb ha

/-- The node `new` takes over a child, if there is one. -/
def adopt (m : Links α) (d : Side) (new : α) : Option α → Links α
  | none => m
  | some b => (m.set (.child d) new b).set .parent b new

lemma Rep.adopt {d : Side} {far : BinaryTree α} (h : Rep m p (plug (⟨d, new, far⟩ :: C) nil))
    (ht : Rep m q t) (hnodup : (ids t + ctxIds (⟨d, new, far⟩ :: C)).Nodup) :
    Rep (adopt m d new (top t)) p (plug (⟨d, new, far⟩ :: C) t) := by
  cases t with
  | nil => exact h
  | node b l r => exact h.attach ht hnodup

lemma adopt_of_ne {d : Side} {g : Field} (hnew : a ≠ new) (h : q ≠ some a) :
    adopt m d new q g a = m g a := by
  cases q with
  | none => rfl
  | some b =>
    rw [adopt, Links.set_of_ne _ _ _ _ fun heq => h (congrArg some heq.symm),
      Links.set_of_ne _ _ _ _ hnew]

end Writes

end R0Kernel.SelfLinked
