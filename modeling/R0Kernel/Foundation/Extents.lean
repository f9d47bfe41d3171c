import Mathlib

/-!
# Lists of disjoint ranges

A list whose elements each cover a range of numbers, from `lo` up to but not including `hi`, in
ascending order and without an overlap. An element that fits between two stretches of such a list
can be put there, and one may be narrowed or left out. If the ranges add up to the stretch they lie
in, they leave no gap in it.
-/

namespace R0Kernel.Extents

open List

variable {α : Type*} {lo hi : α → Nat} {l before rest : List α} {x : α}

/-- The ranges are in ascending order, and none begins before the one in front of it ends. -/
structure Ordered (lo hi : α → Nat) (l : List α) : Prop where
  nonempty : ∀ a ∈ l, lo a < hi a
  apart : l.Pairwise fun a b => hi a ≤ lo b

/-- The range from `a` to `b` meets no range of the list. -/
def Free (lo hi : α → Nat) (l : List α) (a b : Nat) : Prop := ∀ x ∈ l, hi x ≤ a ∨ b ≤ lo x

lemma Ordered.nil : Ordered lo hi ([] : List α) := ⟨by simp, .nil⟩

section

variable (h : Ordered lo hi (x :: l))

include h

lemma Ordered.of_cons : Ordered lo hi l :=
  ⟨fun a ha => h.nonempty a (mem_cons_of_mem _ ha), h.apart.of_cons⟩

lemma Ordered.hi_le {a : α} (ha : a ∈ l) : hi x ≤ lo a :=
  rel_of_pairwise_cons h.apart ha

/-- Everything behind an element is at least as far. -/
lemma Ordered.le_lo {a : α} (ha : a ∈ x :: l) : lo x ≤ lo a := by
  rcases mem_cons.mp ha with rfl | ha
  · exact le_rfl
  · exact (h.nonempty x mem_cons_self).le.trans (h.hi_le ha)

end

lemma Ordered.insert (h : Ordered lo hi (before ++ rest)) (hx : lo x < hi x)
    (hbefore : ∀ a ∈ before, hi a ≤ lo x) (hrest : ∀ a ∈ rest, hi x ≤ lo a) :
    Ordered lo hi (before ++ x :: rest) := by
  obtain ⟨hfirst, hsecond, hcross⟩ := pairwise_append.mp h.apart
  constructor
  · intro a ha
    rcases mem_append.mp ha with ha | ha
    · exact h.nonempty a (mem_append_left _ ha)
    · rcases mem_cons.mp ha with rfl | ha
      · exact hx
      · exact h.nonempty a (mem_append_right _ ha)
  · refine pairwise_append.mpr ⟨hfirst, pairwise_cons.mpr ⟨hrest, hsecond⟩, ?_⟩
    intro a ha b hb
    rcases mem_cons.mp hb with rfl | hb
    · exact hbefore a ha
    · exact hcross a ha b hb

lemma Ordered.sublist {l' : List α} (h : Ordered lo hi l) (hl : l'.Sublist l) :
    Ordered lo hi l' :=
  ⟨fun a ha => h.nonempty a (hl.subset ha), h.apart.sublist hl⟩

/-- What stands before and behind an element. -/
lemma Ordered.around (h : Ordered lo hi (before ++ x :: rest)) :
    lo x < hi x ∧ (∀ a ∈ before, hi a ≤ lo x) ∧ ∀ a ∈ rest, hi x ≤ lo a := by
  obtain ⟨-, hsecond, hcross⟩ := pairwise_append.mp h.apart
  exact ⟨h.nonempty x (by simp), fun a ha => hcross a ha x mem_cons_self,
    fun a ha => rel_of_pairwise_cons hsecond ha⟩

/-- An element may give way to one that covers a part of its range. -/
lemma Ordered.narrow {y : α} (h : Ordered lo hi (before ++ x :: rest)) (hlo : lo x ≤ lo y)
    (hy : lo y < hi y) (hhi : hi y ≤ hi x) : Ordered lo hi (before ++ y :: rest) := by
  obtain ⟨-, hbefore, hrest⟩ := h.around
  exact (h.sublist (by simp)).insert hy (fun a ha => (hbefore a ha).trans hlo)
    fun a ha => hhi.trans (hrest a ha)

section Tiles

variable {a b : Nat}

/-- The ranges follow one another from `a` to `b` without a gap. -/
def Tiles (lo hi : α → Nat) : Nat → List α → Nat → Prop
  | a, [], b => a = b
  | a, x :: l, b => lo x = a ∧ Tiles lo hi (hi x) l b

lemma Ordered.sum_le (h : Ordered lo hi l) (hlo : ∀ x ∈ l, a ≤ lo x)
    (hhi : ∀ x ∈ l, hi x ≤ b) :
    (l.map fun x => hi x - lo x).sum ≤ b - a := by
  induction l generalizing a with
  | nil => simp
  | cons x l ih =>
    have htail := ih h.of_cons (fun y hy => h.hi_le hy)
      fun y hy => hhi y (mem_cons_of_mem _ hy)
    have hx := h.nonempty x mem_cons_self
    have hax := hlo x mem_cons_self
    have hxb := hhi x mem_cons_self
    rw [map_cons, sum_cons]
    omega

/-- Ranges that add up to the stretch they lie in leave no gap. -/
lemma Ordered.tiles (h : Ordered lo hi l) (hab : a ≤ b) (hlo : ∀ x ∈ l, a ≤ lo x)
    (hhi : ∀ x ∈ l, hi x ≤ b) (hsum : (l.map fun x => hi x - lo x).sum = b - a) :
    Tiles lo hi a l b := by
  induction l generalizing a with
  | nil =>
    simp only [map_nil, sum_nil] at hsum
    simp only [Tiles]
    omega
  | cons x l ih =>
    have htail : ∀ y ∈ l, hi y ≤ b := fun y hy => hhi y (mem_cons_of_mem _ hy)
    have hle := h.of_cons.sum_le (fun y hy => h.hi_le hy) htail
    have hx := h.nonempty x mem_cons_self
    have hax := hlo x mem_cons_self
    have hxb := hhi x mem_cons_self
    rw [map_cons, sum_cons] at hsum
    -- the ranges behind `x` cannot make up for a gap in front of it
    refine ⟨by omega, ih h.of_cons hxb (fun y hy => h.hi_le hy) htail (by omega)⟩

variable {β : Type*} {body : α → List β}

variable (h : Tiles lo hi a l b) (hbody : ∀ x ∈ l, lo x + (body x).length = hi x)

include h hbody

lemma Tiles.length_flatMap : a + (l.flatMap body).length = b := by
  induction l generalizing a with
  | nil => simpa [Tiles] using h
  | cons x l ih =>
    obtain ⟨rfl, htail⟩ := h
    have hx := hbody x mem_cons_self
    have hl := ih htail fun y hy => hbody y (mem_cons_of_mem _ hy)
    rw [flatMap_cons, length_append]
    omega

/-- What stands at a place of the whole is what the range over that place holds there. -/
lemma Tiles.of_getElem? {i : Nat} {v : β} (hv : (l.flatMap body)[i]? = some v) :
    ∃ x ∈ l, lo x ≤ a + i ∧ (body x)[a + i - lo x]? = some v := by
  induction l generalizing a i with
  | nil => simp at hv
  | cons x l ih =>
    obtain ⟨rfl, htail⟩ := h
    rw [flatMap_cons] at hv
    by_cases hin : i < (body x).length
    · rw [getElem?_append_left hin] at hv
      exact ⟨x, mem_cons_self, by omega, by simpa using hv⟩
    · have hx := hbody x mem_cons_self
      rw [getElem?_append_right (by omega)] at hv
      obtain ⟨y, hy, hlo, hval⟩ := ih htail (fun y hy => hbody y (mem_cons_of_mem _ hy)) hv
      have hplace : hi x + (i - (body x).length) = lo x + i := by omega
      rw [hplace] at hlo hval
      exact ⟨y, mem_cons_of_mem _ hy, hlo, hval⟩

end Tiles

end R0Kernel.Extents
