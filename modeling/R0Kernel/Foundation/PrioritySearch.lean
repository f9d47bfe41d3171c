import R0Kernel.Foundation.SelfLinked

/-!
# Priority search trees

Binary trees that are heaps on a key and tries on the bits of it at the same time. A new node goes
down the trie and takes the place of the first node that it is above of, which goes on in its
stead; a node that is taken out is replaced by the larger of its children, all the way down.
-/

namespace R0Kernel.PrioritySearch

open BinaryTree SelfLinked Multiset

variable {α κ : Type*} [LinearOrder κ]

def Side.bit : Side → Bool
  | .left => false
  | .right => true

section Definitions

variable (key : α → κ) (bit : Nat → κ → Bool)

/-- The tree at depth `d` is a heap on the keys, and the nodes below each node are on the side of
their bit for its depth. -/
def Pst : Nat → BinaryTree α → Prop
  | _, nil => True
  | d, node a l r => (∀ x ∈ ids l, key x < key a ∧ bit d (key x) = false) ∧
      (∀ x ∈ ids r, key x < key a ∧ bit d (key x) = true) ∧ Pst (d + 1) l ∧ Pst (d + 1) r

/-- Insert `x` into a tree at depth `d`. -/
def ins (d : Nat) (x : α) : BinaryTree α → BinaryTree α
  | nil => node x nil nil
  | node a l r =>
    if key a < key x then
      if bit d (key a) then node x l (ins (d + 1) a r) else node x (ins (d + 1) a l) r
    else if bit d (key x) then node a l (ins (d + 1) x r) else node a (ins (d + 1) x l) r

/-- The two keys have the same bits above depth `d`. -/
def Agree (d : Nat) (u v : κ) : Prop := ∀ i < d, bit i u = bit i v

end Definitions

/-- Take out the top: the child that `pick` says is the larger one comes up. -/
def dropTop (pick : α → α → Prop) [DecidableRel pick] : BinaryTree α → BinaryTree α
  | nil => nil
  | node _ nil nil => nil
  | node _ (node b x y) nil => node b (dropTop pick (node b x y)) nil
  | node _ nil (node c x y) => node c nil (dropTop pick (node c x y))
  | node _ (node b x y) (node c z w) =>
    if pick b c then node b (dropTop pick (node b x y)) (node c z w)
    else node c (node b x y) (dropTop pick (node c z w))

/-- Nodes one below the other, on the left, above a tree. -/
def chain : List α → BinaryTree α → BinaryTree α
  | [], t => t
  | a :: as, t => node a (chain as t) nil

variable {key : α → κ} {bit bit' : Nat → κ → Bool} {d n : Nat} {a x : α} {l r t t' : BinaryTree α}
  {C : List (Frame α)} {as : List α}

/-! ### Heaps in contexts -/

lemma pst_branch {s : Side} {y z : BinaryTree α} :
    Pst key bit d (branch s a y z) ↔
      (∀ x ∈ ids y, key x < key a ∧ bit d (key x) = Side.bit s) ∧
      (∀ x ∈ ids z, key x < key a ∧ bit d (key x) = Side.bit s.flip) ∧
      Pst key bit (d + 1) y ∧ Pst key bit (d + 1) z := by
  cases s with
  | left => exact Iff.rfl
  | right =>
    constructor
    · rintro ⟨hz, hy, hpz, hpy⟩
      exact ⟨hy, hz, hpy, hpz⟩
    · rintro ⟨hy, hz, hpy, hpz⟩
      exact ⟨hz, hy, hpz, hpy⟩

lemma Pst.congr {key' : α → κ} (h : Pst key bit d t) (hkey : ∀ x ∈ ids t, key' x = key x) :
    Pst key' bit d t := by
  induction t generalizing d with
  | nil => trivial
  | node a l r ihl ihr =>
    obtain ⟨hl, hr, hpl, hpr⟩ := h
    refine ⟨?_, ?_, ihl hpl fun x hx => hkey x (mem_near hx), ihr hpr fun x hx =>
      hkey x (mem_far hx)⟩
    · intro x hx
      rw [hkey x (mem_near hx), hkey a (mem_cons_self _ _)]
      exact hl x hx
    · intro x hx
      rw [hkey x (mem_far hx), hkey a (mem_cons_self _ _)]
      exact hr x hx

lemma Pst.sub (h : Pst key bit d (plug C t)) : Pst key bit (d + C.length) t := by
  induction C generalizing t with
  | nil => exact h
  | cons f C ih =>
    obtain ⟨-, -, ht, -⟩ := pst_branch.mp (ih h)
    exact ht

/-- A subtree may lose nodes as long as it stays a priority search tree itself. -/
lemma Pst.shrink (h : Pst key bit d (plug C t)) (hids : ∀ x ∈ ids t', x ∈ ids t)
    (ht' : Pst key bit (d + C.length) t') : Pst key bit d (plug C t') := by
  induction C generalizing t t' with
  | nil => exact ht'
  | cons f C ih =>
    obtain ⟨hnear, hfar, -, hsib⟩ := pst_branch.mp (Pst.sub (C := C) h)
    apply ih h
    · intro x hx
      rw [Frame.fill, ids_branch, mem_cons, mem_add] at hx ⊢
      exact hx.imp_right (Or.imp_left (hids x))
    · exact pst_branch.mpr ⟨fun x hx => hnear x (hids x hx), hfar, ht', hsib⟩

omit [LinearOrder κ] in
lemma Agree.succ {u v : κ} (h : Agree bit d u v) (hd : bit d u = bit d v) :
    Agree bit (d + 1) u v := by
  intro i hi
  rcases Nat.lt_succ_iff_lt_or_eq.mp hi with hi | rfl
  · exact h i hi
  · exact hd

/-- The nodes of a subtree have the bits of the way to it in common. -/
lemma Pst.agree (h : Pst key bit d (plug C t))
    (hagree : ∀ x ∈ ids (plug C t), ∀ y ∈ ids (plug C t), Agree bit d (key x) (key y)) :
    ∀ x ∈ ids t, ∀ y ∈ ids t, Agree bit (d + C.length) (key x) (key y) := by
  induction C generalizing t with
  | nil => exact hagree
  | cons f C ih =>
    obtain ⟨hnear, -, -, -⟩ := pst_branch.mp (Pst.sub (C := C) h)
    have hmem : ∀ x ∈ ids t, x ∈ ids (f.fill t) := fun x hx => by
      rw [Frame.fill, ids_branch]
      exact mem_near hx
    intro x hx y hy
    exact (ih h hagree x (hmem x hx) y (hmem y hy)).succ ((hnear x hx).2.trans (hnear y hy).2.symm)

/-- Another way to read the bits, the same from depth `n` on. -/
lemma Pst.shift (h : Pst key bit d t)
    (hbit : ∀ x ∈ ids t, ∀ i, bit' (n + i) (key x) = bit i (key x)) :
    Pst key bit' (n + d) t := by
  induction t generalizing d with
  | nil => trivial
  | node a l r ihl ihr =>
    obtain ⟨hl, hr, hpl, hpr⟩ := h
    refine ⟨?_, ?_, ihl hpl fun x hx => hbit x (mem_near hx), ihr hpr fun x hx =>
      hbit x (mem_far hx)⟩
    · intro x hx
      rw [hbit x (mem_near hx)]
      exact hl x hx
    · intro x hx
      rw [hbit x (mem_far hx)]
      exact hr x hx

/-! ### Insertion -/

lemma ids_ins (d : Nat) (x : α) (t : BinaryTree α) : ids (ins key bit d x t) = x ::ₘ ids t := by
  induction t generalizing d x with
  | nil => rfl
  | node a l r ihl ihr =>
    rw [ins]
    split_ifs
    · rw [ids, ihr, ids, add_cons]
    · rw [ids, ihl, ids, cons_add]
    · rw [ids, ihr, ids, add_cons, cons_swap]
    · rw [ids, ihl, ids, cons_add, cons_swap]

/-- A node goes on below `up`, to the side of its bit. -/
lemma pst_branch_ins {s : Side} {up down : α} {y z : BinaryTree α}
    (hy : ∀ w ∈ ids y, key w < key up ∧ bit d (key w) = Side.bit s)
    (hz : ∀ w ∈ ids z, key w < key up ∧ bit d (key w) = Side.bit s.flip)
    (hdown : key down < key up) (hbit : bit d (key down) = Side.bit s)
    (hins : Pst key bit (d + 1) (ins key bit (d + 1) down y)) (hpz : Pst key bit (d + 1) z) :
    Pst key bit d (branch s up (ins key bit (d + 1) down y) z) := by
  refine pst_branch.mpr ⟨?_, hz, hins, hpz⟩
  intro w hw
  rw [ids_ins, mem_cons] at hw
  rcases hw with rfl | hw
  · exact ⟨hdown, hbit⟩
  · exact hy w hw

lemma Pst.ins (h : Pst key bit d t) (hx : ∀ y ∈ ids t, key y ≠ key x) :
    Pst key bit d (ins key bit d x t) := by
  induction t generalizing d x with
  | nil => exact ⟨fun _ hy => (nomatch hy), fun _ hy => (nomatch hy), trivial, trivial⟩
  | node a l r ihl ihr =>
    obtain ⟨hl, hr, hpl, hpr⟩ := h
    rw [PrioritySearch.ins]
    split
    next hlt =>
      -- `x` comes in here and `a` goes on
      have hup : ∀ {s : BinaryTree α} {v : Bool},
          (∀ w ∈ ids s, key w < key a ∧ bit d (key w) = v) →
          ∀ w ∈ ids s, key w < key x ∧ bit d (key w) = v := fun hs w hw =>
        ⟨(hs w hw).1.trans hlt, (hs w hw).2⟩
      split
      next hbit =>
        exact pst_branch_ins (s := .right) (hup hr) (hup hl) hlt hbit
          (ihr hpr fun w hw => (hr w hw).1.ne) hpl
      next hbit =>
        exact pst_branch_ins (s := .left) (hup hl) (hup hr) hlt (Bool.eq_false_of_not_eq_true hbit)
          (ihl hpl fun w hw => (hl w hw).1.ne) hpr
    next hle =>
      have hgt : key x < key a :=
        lt_of_le_of_ne (not_lt.mp hle) (hx a (mem_cons_self _ _)).symm
      split
      next hbit =>
        refine pst_branch_ins (s := .right) hr hl hgt hbit (ihr hpr ?_) hpl
        exact fun w hw => hx w (mem_far hw)
      next hbit =>
        refine pst_branch_ins (s := .left) hl hr hgt (Bool.eq_false_of_not_eq_true hbit)
          (ihl hpl ?_) hpr
        exact fun w hw => hx w (mem_near hw)

/-! ### Removal -/

/-- What is below the top. -/
def below : BinaryTree α → Multiset α
  | nil => 0
  | node _ l r => ids l + ids r

section Drop

variable (pick : α → α → Prop) [DecidableRel pick]

/-- The top is a leaf, or one of its children, the one that `pick` says, comes up. -/
lemma dropTop_cases (a : α) (l r : BinaryTree α) :
    (l = nil ∧ r = nil ∧ dropTop pick (node a l r) = nil) ∨
      ∃ s b x y far, node a l r = branch s a (node b x y) far ∧
        dropTop pick (node a l r) = branch s b (dropTop pick (node b x y)) far ∧
        ∀ c, top far = some c → (s = .left ∧ pick b c) ∨ (s = .right ∧ ¬ pick c b) := by
  cases l with
  | nil =>
    cases r with
    | nil => exact .inl ⟨rfl, rfl, rfl⟩
    | node c z w => exact .inr ⟨.right, c, z, w, nil, rfl, rfl, nofun⟩
  | node b x y =>
    cases r with
    | nil => exact .inr ⟨.left, b, x, y, nil, rfl, rfl, nofun⟩
    | node c z w =>
      right
      by_cases hpick : pick b c
      · refine ⟨.left, b, x, y, node c z w, rfl, if_pos hpick, ?_⟩
        rintro _ ⟨⟩
        exact .inl ⟨rfl, hpick⟩
      · refine ⟨.right, c, z, w, node b x y, rfl, if_neg hpick, ?_⟩
        rintro _ ⟨⟩
        exact .inr ⟨rfl, hpick⟩

variable {pick}

lemma ids_dropTop (t : BinaryTree α) : ids (dropTop pick t) = below t := by
  induction t with
  | nil => rfl
  | node a l r ihl ihr =>
    rcases dropTop_cases pick a l r with ⟨rfl, rfl, hdrop⟩ | ⟨s, b, x, y, far, hsplit, hdrop, -⟩
    · rfl
    · rw [hdrop, ids_branch]
      cases s with
      | left =>
        obtain ⟨-, rfl, rfl⟩ := node.inj hsplit
        rw [ihl, below, below, ids, cons_add]
      | right =>
        obtain ⟨-, rfl, rfl⟩ := node.inj hsplit
        rw [ihr, below, below, ids, add_cons, add_comm]

/-- Taking out the top keeps a priority search tree, if `pick` finds the larger child. -/
lemma Pst.dropTop (h : Pst key bit d t)
    (hagree : ∀ x ∈ ids t, ∀ y ∈ ids t, Agree bit d (key x) (key y))
    (hpick : ∀ n, ∀ x ∈ ids t, ∀ y ∈ ids t, Agree bit n (key x) (key y) →
      bit n (key x) = false → bit n (key y) = true → (pick x y ↔ key y < key x)) :
    Pst key bit d (dropTop pick t) := by
  induction t generalizing d with
  | nil => trivial
  | node a l r ihl ihr =>
    rcases dropTop_cases pick a l r with
      ⟨rfl, rfl, hdrop⟩ | ⟨s, b, x, y, far, hsplit, hdrop, hchosen⟩
    · rw [hdrop]
      trivial
    · -- the claim for the child that comes up
      have hih : Pst key bit (d + 1) (node b x y) →
          (∀ u ∈ ids (node b x y), ∀ v ∈ ids (node b x y), Agree bit (d + 1) (key u) (key v)) →
          Pst key bit (d + 1) (PrioritySearch.dropTop pick (node b x y)) := by
        intro hp hag
        cases s with
        | left =>
          obtain ⟨-, rfl, rfl⟩ := node.inj hsplit
          exact ihl hp hag fun n u hu v hv => hpick n u (mem_near hu) v (mem_near hv)
        | right =>
          obtain ⟨-, rfl, rfl⟩ := node.inj hsplit
          exact ihr hp hag fun n u hu v hv => hpick n u (mem_far hu) v (mem_far hv)
      rw [hsplit, ids_branch] at hagree hpick
      rw [hsplit] at h
      obtain ⟨hnear, hfar, hpnear, hpfar⟩ := pst_branch.mp h
      have hb : b ∈ ids (node b x y) := mem_cons_self _ _
      rw [hdrop]
      refine pst_branch.mpr ⟨?_, ?_, hih hpnear ?_, hpfar⟩
      · intro z hz
        rw [ids_dropTop] at hz
        refine ⟨?_, (hnear z (mem_cons_of_mem hz)).2⟩
        obtain ⟨hx, hy, -, -⟩ := hpnear
        rcases mem_add.mp hz with hz | hz
        · exact (hx z hz).1
        · exact (hy z hz).1
      · intro z hz
        refine ⟨?_, (hfar z hz).2⟩
        cases far with
        | nil => cases hz
        | node c u v =>
          have hc : c ∈ ids (node c u v) := mem_cons_self _ _
          have hcb : key c < key b := by
            rcases hchosen c rfl with ⟨rfl, hp⟩ | ⟨rfl, hp⟩
            · exact (hpick d b (mem_near hb) c (mem_far hc) (hagree b (mem_near hb) c (mem_far hc))
                (hnear b hb).2 (hfar c hc).2).mp hp
            · have hle := mt (hpick d c (mem_far hc) b (mem_near hb)
                (hagree c (mem_far hc) b (mem_near hb)) (hfar c hc).2 (hnear b hb).2).mpr hp
              refine lt_of_le_of_ne (not_lt.mp hle) fun heq => ?_
              have hbits := (hfar c hc).2.symm.trans (heq ▸ (hnear b hb).2)
              cases hbits
          rcases mem_cons.mp hz with rfl | hz
          · exact hcb
          · obtain ⟨hu, hv, -, -⟩ := hpfar
            rcases mem_add.mp hz with hz | hz
            · exact (hu z hz).1.trans hcb
            · exact (hv z hz).1.trans hcb
      · intro u hu v hv
        exact (hagree u (mem_near hu) v (mem_near hv)).succ
          ((hnear u hu).2.trans (hnear v hv).2.symm)

end Drop

/-- Every node of the frames takes the place of the one above it, the innermost place getting `c`:
the node that is left over, and the tree. -/
def climb : List (Frame α) → α → BinaryTree α → α × BinaryTree α
  | [], c, t => (c, t)
  | f :: C, c, t => climb C f.node (branch f.side c t f.sib)

omit [LinearOrder κ] in
lemma climb_concat (C : List (Frame α)) (f : Frame α) (c : α) (t : BinaryTree α) :
    climb (C ++ [f]) c t =
      (f.node, branch f.side (climb C c t).1 (climb C c t).2 f.sib) := by
  induction C generalizing c t with
  | nil => rfl
  | cons g C ih => exact ih ..

omit [LinearOrder κ] in
lemma climb_mem (f : Frame α) (C : List (Frame α)) (c : α) (t : BinaryTree α) :
    (climb (f :: C) c t).1 ∈ ctxIds (f :: C) := by
  induction C generalizing f c t with
  | nil => exact mem_cons_self _ _
  | cons g C ih =>
    exact mem_far (ih g f.node _)

/-! ### Chains -/

omit [LinearOrder κ] in
/-- A chain is a context of frames with holes on the left. -/
lemma chain_eq_plug (as : List α) (t : BinaryTree α) :
    chain as t = plug (as.reverse.map fun a => ⟨.left, a, nil⟩) t := by
  induction as with
  | nil => rfl
  | cons a as ih =>
    rw [List.reverse_cons, List.map_append, plug_append, ← ih]
    rfl

omit [LinearOrder κ] in
lemma chain_concat (as : List α) (a : α) (t : BinaryTree α) :
    chain (as ++ [a]) t = chain as (node a t nil) := by
  induction as with
  | nil => rfl
  | cons b as ih => rw [List.cons_append, chain, chain, ih]

omit [LinearOrder κ] in
lemma ids_chain (as : List α) (t : BinaryTree α) : ids (chain as t) = ↑as + ids t := by
  induction as with
  | nil => exact (zero_add _).symm
  | cons a as ih =>
    rw [chain, ids, ih, ids, add_zero, ← cons_coe, cons_add]

/-- Decreasing nodes above a tree whose bits are clear as far as the nodes reach. -/
lemma pst_chain (hsorted : as.Pairwise fun a b => key b < key a)
    (hbelow : ∀ a ∈ as, ∀ x ∈ ids t, key x < key a)
    (hbit : ∀ x, x ∈ as ∨ x ∈ ids t → ∀ i, d ≤ i → i < d + as.length → bit i (key x) = false)
    (ht : Pst key bit (d + as.length) t) : Pst key bit d (chain as t) := by
  induction as generalizing d with
  | nil => exact ht
  | cons a as ih =>
    obtain ⟨hhead, hrest⟩ := List.pairwise_cons.mp hsorted
    rw [List.length_cons] at hbit ht
    have hmem : ∀ x ∈ ids (chain as t), x ∈ as ∨ x ∈ ids t := by
      intro x hx
      rwa [ids_chain, mem_add] at hx
    refine ⟨?_, fun x hx => (nomatch hx), ih hrest ?_ ?_ ?_, trivial⟩
    · intro x hx
      have hin := hmem x hx
      refine ⟨?_, hbit x (hin.imp_left (List.mem_cons_of_mem a)) d le_rfl (by omega)⟩
      rcases hin with hin | hin
      · exact hhead x hin
      · exact hbelow a List.mem_cons_self x hin
    · exact fun b hb => hbelow b (List.mem_cons_of_mem a hb)
    · intro x hx i hle hlt
      exact hbit x (hx.imp_left (List.mem_cons_of_mem a)) i (by omega) (by omega)
    · rwa [add_right_comm]

end R0Kernel.PrioritySearch
