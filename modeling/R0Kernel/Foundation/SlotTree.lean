import Mathlib

/-! # Trees of slot arrays

A node has a payload and one slot for every digit; a slot is empty, holds a leaf
or holds a node. The payload marks each slot. Keys are lists of digits from the
root. An update works at a hole in a context of frames.
-/

namespace R0Kernel

open Function List Finset

inductive SlotTree (ι ρ α : Type) where
  | null
  | leaf (value : α)
  | node (info : ρ) (slots : ι → SlotTree ι ρ α)

namespace SlotTree

variable {ι ρ α β : Type}

/-- A tree without what is below its root. -/
inductive Head (ρ α : Type) where
  | null
  | leaf (value : α)
  | node (info : ρ)

def head : SlotTree ι ρ α → Head ρ α
  | null => .null
  | leaf x => .leaf x
  | node r _ => .node r

@[simp] lemma head_null : (null : SlotTree ι ρ α).head = .null := rfl

@[simp] lemma head_leaf (x : α) : (leaf x : SlotTree ι ρ α).head = .leaf x := rfl

@[simp] lemma head_node (r : ρ) (s : ι → SlotTree ι ρ α) : (node r s).head = .node r := rfl

def Head.isNull : Head ρ α → Bool
  | null => true
  | _ => false

@[simp] lemma Head.isNull_null : (null : Head ρ α).isNull = true := rfl

@[simp] lemma Head.isNull_leaf (x : α) : (leaf x : Head ρ α).isNull = false := rfl

@[simp] lemma Head.isNull_node (r : ρ) : (node r : Head ρ α).isNull = false := rfl

def isNull (t : SlotTree ι ρ α) : Bool := t.head.isNull

@[simp] lemma isNull_iff {t : SlotTree ι ρ α} : t.isNull = true ↔ t = null := by
  cases t <;> simp [isNull]

@[simp] lemma head_eq_null {t : SlotTree ι ρ α} : t.head = .null ↔ t = null := by
  cases t <;> simp [head]

@[simp] lemma Head.isNull_eq_true {hd : Head ρ α} : hd.isNull = true ↔ hd = .null := by
  cases hd <;> simp

/-! ## Reading a key -/

section Read

variable (mark : ρ → ι → β) (zero : β)

/-- The leaf at a key, if any, with its slot's mark. The mark of the root is given. -/
def read : β → SlotTree ι ρ α → List ι → Option α × β
  | b, null, [] => (none, b)
  | b, leaf x, [] => (some x, b)
  | _, node r s, d :: ds => read (mark r d) (s d) ds
  | _, _, _ => (none, zero)

@[simp] lemma read_null_nil (b : β) :
    read mark zero b (null : SlotTree ι ρ α) [] = (none, b) := rfl

@[simp] lemma read_null_cons (b : β) (d : ι) (ds : List ι) :
    read mark zero b (null : SlotTree ι ρ α) (d :: ds) = (none, zero) := rfl

@[simp] lemma read_leaf_nil (b : β) (x : α) :
    read mark zero b (leaf x : SlotTree ι ρ α) [] = (some x, b) := rfl

@[simp] lemma read_node_nil (b : β) (r : ρ) (s : ι → SlotTree ι ρ α) :
    read mark zero b (node r s) [] = (none, zero) := rfl

@[simp] lemma read_node_cons (b : β) (r : ρ) (s : ι → SlotTree ι ρ α) (d : ι) (ds : List ι) :
    read mark zero b (node r s) (d :: ds) = read mark zero (mark r d) (s d) ds := rfl

lemma read_zero_null (ds : List ι) :
    read mark zero zero (null : SlotTree ι ρ α) ds = (none, zero) := by
  cases ds <;> rfl

lemma read_blank {b : β} {r : ρ} {s : ι → SlotTree ι ρ α} (hs : ∀ d, s d = null)
    (hmark : ∀ d, mark r d = zero) (ds : List ι) :
    read mark zero b (node r s) ds = (none, zero) := by
  cases ds with
  | nil => rfl
  | cons d ds => rw [read_node_cons, hs, hmark, read_zero_null]

end Read

/-! ## Contexts -/

structure Frame (ι ρ α : Type) where
  info : ρ
  slots : ι → SlotTree ι ρ α
  hole : ι

def route : List (Frame ι ρ α) → List ι
  | [] => []
  | f :: ctx => route ctx ++ [f.hole]

@[simp] lemma length_route (ctx : List (Frame ι ρ α)) : (route ctx).length = ctx.length := by
  induction ctx with
  | nil => rfl
  | cons f ctx ih => simp [route, ih]

def topMark (mark : ρ → ι → β) (b : β) : List (Frame ι ρ α) → β
  | [] => b
  | f :: _ => mark f.info f.hole

/-- The frame has the other's slots and marks, except for the mark of the hole. -/
structure Frame.Like (mark : ρ → ι → β) (f g : Frame ι ρ α) : Prop where
  slots : f.slots = g.slots
  hole : f.hole = g.hole
  mark : ∀ d, d ≠ g.hole → mark f.info d = mark g.info d

lemma Frame.Like.refl (mark : ρ → ι → β) (f : Frame ι ρ α) : f.Like mark f :=
  ⟨rfl, rfl, fun _ _ => rfl⟩

lemma forall_like_refl (mark : ρ → ι → β) (ctx : List (Frame ι ρ α)) :
    Forall₂ (Frame.Like mark) ctx ctx :=
  forall₂_same.mpr fun f _ => .refl mark f

variable {ctx : List (Frame ι ρ α)} {h : Nat} {t : SlotTree ι ρ α} {mark : ρ → ι → β}

lemma route_congr {ctx' : List (Frame ι ρ α)} (h : Forall₂ (Frame.Like mark) ctx ctx') :
    route ctx = route ctx' := by
  induction h with
  | nil => rfl
  | cons hfg _ ih => rw [route, route, ih, hfg.hole]

variable [DecidableEq ι]

def Frame.fill (f : Frame ι ρ α) (t : SlotTree ι ρ α) : SlotTree ι ρ α :=
  node f.info (update f.slots f.hole t)

/-- Fill the hole of a context, the innermost frame first. -/
def plug : List (Frame ι ρ α) → SlotTree ι ρ α → SlotTree ι ρ α
  | [], t => t
  | f :: ctx, t => plug ctx (f.fill t)

lemma fill_slot (r : ρ) (s : ι → SlotTree ι ρ α) (d : ι) :
    (Frame.mk r s d).fill (s d) = node r s := by
  simp [Frame.fill]

lemma head_plug_cons (f : Frame ι ρ α) (ctx : List (Frame ι ρ α)) (t : SlotTree ι ρ α) :
    ∃ r, (plug (f :: ctx) t).head = .node r := by
  induction ctx generalizing f t with
  | nil => exact ⟨f.info, rfl⟩
  | cons g ctx ih => exact ih g (f.fill t)

section Read

variable {mark : ρ → ι → β} {zero : β}

lemma read_plug (b : β) (ctx : List (Frame ι ρ α)) (t : SlotTree ι ρ α) (ds : List ι) :
    read mark zero b (plug ctx t) (route ctx ++ ds) = read mark zero (topMark mark b ctx) t ds := by
  induction ctx generalizing t ds with
  | nil => rfl
  | cons f ctx ih =>
    rw [plug, route, append_assoc, ih]
    simp [Frame.fill, topMark]

variable {ctx ctx' : List (Frame ι ρ α)} {t t' : SlotTree ι ρ α} {ds : List ι}

/-- A key reads the same in two contexts of the same slots if it does so below the
hole. -/
lemma read_plug_congr {b b' : β} (hctx : Forall₂ (Frame.Like mark) ctx ctx')
    (h : ∀ es, ds = route ctx ++ es →
      read mark zero (topMark mark b ctx) t es = read mark zero (topMark mark b' ctx') t' es) :
    read mark zero b (plug ctx t) ds = read mark zero b' (plug ctx' t') ds := by
  induction hctx generalizing t t' with
  | nil => exact h ds rfl
  | @cons f g ctx ctx' hfg _ ih =>
    apply ih
    rintro (_ | ⟨d, es⟩) hes
    · rfl
    · by_cases hd : d = g.hole
      · subst hd
        have hread := h es (by rw [hes, route, append_assoc, hfg.hole]; rfl)
        simpa [Frame.fill, hfg.hole, topMark] using hread
      · simp [Frame.fill, hfg.hole, hfg.slots, hd, hfg.mark d hd]

/-- Only the key of the hole changes. -/
lemma read_plug_of_ne {b b' : β} (hctx : Forall₂ (Frame.Like mark) ctx ctx')
    (hlen : ds.length = ctx.length) (hne : ds ≠ route ctx) :
    read mark zero b (plug ctx t) ds = read mark zero b' (plug ctx' t') ds := by
  refine read_plug_congr hctx fun es hes => absurd hes ?_
  rintro rfl
  rw [length_append, length_route, Nat.add_eq_left, length_eq_zero_iff] at hlen
  simp [hlen] at hne

end Read

/-! ## Local invariants -/

/-- The tree has the given height and every node satisfies a condition on its
height above the leaves, its payload and the heads of its slots. -/
def Inv (P : Nat → ρ → (ι → Head ρ α) → Prop) : Nat → SlotTree ι ρ α → Prop
  | _, null => True
  | 0, leaf _ => True
  | 0, node _ _ => False
  | _ + 1, leaf _ => False
  | h + 1, node r s => P h r (fun d => (s d).head) ∧ ∀ d, Inv P h (s d)

variable {P : Nat → ρ → (ι → Head ρ α) → Prop} {Q : Head ρ α → Prop}

section

omit [DecidableEq ι]

@[simp] lemma inv_null (h : Nat) : Inv P h (null : SlotTree ι ρ α) := by
  cases h <;> trivial

@[simp] lemma inv_node {h : Nat} {r : ρ} {s : ι → SlotTree ι ρ α} :
    Inv P (h + 1) (node r s) ↔ P h r (fun d => (s d).head) ∧ ∀ d, Inv P h (s d) := Iff.rfl

lemma Inv.cases_zero {t : SlotTree ι ρ α} (h : Inv P 0 t) : t = null ∨ ∃ x, t = leaf x := by
  cases t with
  | null => exact .inl rfl
  | leaf x => exact .inr ⟨x, rfl⟩
  | node r s => exact h.elim

lemma Inv.cases_succ {k : Nat} {t : SlotTree ι ρ α} (h : Inv P (k + 1) t) :
    t = null ∨ ∃ r s, t = node r s := by
  cases t with
  | null => exact .inl rfl
  | leaf x => exact h.elim
  | node r s => exact .inr ⟨r, s, rfl⟩

end

/-- The condition on the frames of a context whose hole is filled with a tree of
height `h` and the given head, and on the head of the whole tree. -/
def CtxInv (P : Nat → ρ → (ι → Head ρ α) → Prop) (Q : Head ρ α → Prop) :
    Nat → List (Frame ι ρ α) → Head ρ α → Prop
  | _, [], hd => Q hd
  | h, f :: ctx, hd => P h f.info (update (fun d => (f.slots d).head) f.hole hd) ∧
      (∀ d, d ≠ f.hole → Inv P h (f.slots d)) ∧ CtxInv P Q (h + 1) ctx (.node f.info)

lemma inv_fill {f : Frame ι ρ α} :
    Inv P (h + 1) (f.fill t) ↔
      P h f.info (update (fun d => (f.slots d).head) f.hole t.head) ∧
        (∀ d, d ≠ f.hole → Inv P h (f.slots d)) ∧ Inv P h t := by
  have hheads : (fun d => (update f.slots f.hole t d).head) =
      update (fun d => (f.slots d).head) f.hole t.head := by
    funext d
    by_cases hd : d = f.hole
    · simp [hd]
    · simp [hd]
  rw [Frame.fill, inv_node, hheads]
  refine and_congr_right fun _ => ⟨fun hs => ⟨fun d hd => ?_, ?_⟩, fun hs d => ?_⟩
  · simpa [hd] using hs d
  · simpa using hs f.hole
  · by_cases hd : d = f.hole
    · simpa [hd] using hs.2
    · simpa [hd] using hs.1 d hd

lemma CtxInv.topMark {M : β → Head ρ α → Prop} {b : β} {hd : Head ρ α}
    (hctx : CtxInv P (M b) h ctx hd) (hP : ∀ h r heads d, P h r heads → M (mark r d) (heads d)) :
    M (topMark mark b ctx) hd := by
  cases ctx with
  | nil => exact hctx
  | cons f ctx =>
    have hmark := hP _ _ _ f.hole hctx.1
    rwa [update_self] at hmark

lemma inv_plug :
    Inv P (h + ctx.length) (plug ctx t) ∧ Q (plug ctx t).head ↔
      Inv P h t ∧ CtxInv P Q h ctx t.head := by
  induction ctx generalizing h t with
  | nil => exact Iff.rfl
  | cons f ctx ih =>
    have hlen : h + (f :: ctx).length = h + 1 + ctx.length := by
      rw [length_cons, add_right_comm, add_assoc]
    rw [hlen, plug, ih, inv_fill]
    constructor
    · rintro ⟨⟨hf, hs, ht⟩, hctx⟩
      exact ⟨ht, hf, hs, hctx⟩
    · rintro ⟨ht, hf, hs, hctx⟩
      exact ⟨⟨hf, hs, ht⟩, hctx⟩

lemma Inv.depth {H : Nat} {r : ρ} {s : ι → SlotTree ι ρ α} (hinv : Inv P H (plug ctx (node r s))) :
    ∃ h, h + 1 + ctx.length = H := by
  induction ctx generalizing r s with
  | nil =>
    cases H with
    | zero => exact hinv.elim
    | succ h => exact ⟨h, rfl⟩
  | cons f ctx ih =>
    obtain ⟨h, rfl⟩ := ih hinv
    have hplug : Inv P (h + 1 + ctx.length) (plug ctx (f.fill (node r s))) ∧ True :=
      ⟨hinv, trivial⟩
    obtain ⟨hfill, _⟩ := (inv_plug (Q := fun _ => True)).mp hplug
    obtain ⟨_, _, hnode⟩ := inv_fill.mp hfill
    cases h with
    | zero => exact hnode.elim
    | succ k => exact ⟨k, by rw [length_cons]; omega⟩

/-! ## Occupied slots -/

section Occupied

variable [Fintype ι]

/-- The number of slots that are not empty. -/
def occupied (heads : ι → Head ρ α) : Nat :=
  (univ.filter fun d => (heads d).isNull = false).card

variable {heads : ι → Head ρ α} {d : ι}

omit [DecidableEq ι] in
lemma occupied_eq_zero : occupied heads = 0 ↔ ∀ d, heads d = .null := by
  simp [occupied, filter_eq_empty_iff]

omit [DecidableEq ι] in
lemma occupied_congr {heads' : ι → Head ρ α} (h : ∀ d, (heads d).isNull = (heads' d).isNull) :
    occupied heads = occupied heads' := by
  simp only [occupied, h]

lemma occupied_add_one {hd : Head ρ α} (hd' : hd.isNull = false) :
    occupied (update heads d hd) = occupied (update heads d .null) + 1 := by
  have hinsert : (univ.filter fun e => (update heads d hd e).isNull = false) =
      insert d (univ.filter fun e => (update heads d .null e).isNull = false) := by
    ext e
    by_cases he : e = d
    · simp [he, hd']
    · simp [he]
  rw [occupied, hinsert, card_insert_of_notMem (by simp)]
  rfl

lemma eq_null_of_occupied_one {e : ι} (hone : occupied heads = 1)
    (hsome : (heads d).isNull = false) (hne : e ≠ d) : heads e = .null := by
  have hself : update heads d (heads d) = heads := update_eq_self d heads
  have hrest : occupied heads = occupied (update heads d .null) + 1 := by
    rw [← occupied_add_one hsome, hself]
  have hzero : occupied (update heads d .null) = 0 := by omega
  have hnull := occupied_eq_zero.mp hzero e
  rwa [update_of_ne hne] at hnull

end Occupied

end SlotTree

end R0Kernel
