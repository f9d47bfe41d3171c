import Mathlib
import R0Kernel.Foundation.LinkChain

/-!
# Circular lists with heads

Doubly linked lists in which the last element leads back to the head. An element that is in no list
is a list of its own, so that the pointers of all elements are a permutation and its inverse, and
linking and unlinking multiply it with a transposition. A list is read off from its head along the
pointers.
-/

namespace R0Kernel.ListHead

open Equiv LinkChain Function

variable {α : Type}

@[ext]
structure Heads (α : Type) where
  next : α → α
  prev : α → α

namespace Heads

variable [DecidableEq α] (m : Heads α)

def setNext (a v : α) : Heads α := { m with next := update m.next a v }

def setPrev (a v : α) : Heads α := { m with prev := update m.prev a v }

/-- Link an element between two others. -/
def add (new prev next : α) : Heads α :=
  (((m.setPrev next new).setNext new next).setPrev new prev).setNext prev new

/-- Link an element before another. -/
def addTail (new head : α) : Heads α := m.add new (m.prev head) head

/-- Link two elements, and so unlink what is between them. -/
def del (prev next : α) : Heads α := (m.setPrev next prev).setNext prev next

/-- A list of its own. -/
def init (a : α) : Heads α := (m.setNext a a).setPrev a a

/-- Unlink an element and make it a list of its own. -/
def delInit (entry : α) : Heads α := (m.del (m.prev entry) (m.next entry)).init entry

/-- Unlink an element and link it before another. -/
def moveTail (entry head : α) : Heads α :=
  (m.del (m.prev entry) (m.next entry)).addTail entry head

def isEmpty (head : α) : Bool := decide (m.next head = head)

/-! ### Permutations -/

variable {m} {σ : Perm α} {new head entry : α}

/-- The pointers that follow a permutation, forwards and backwards. -/
def ofPerm (σ : Perm α) : Heads α := ⟨σ, σ.symm⟩

lemma addTail_ofPerm (head : α) (hnew : σ new = new) :
    (ofPerm σ).addTail new head = ofPerm (swap new head * σ) := by
  have hback : σ.symm new = new := σ.symm_apply_eq.mpr hnew.symm
  ext z
  · change update (update σ new head) (σ.symm head) new z = swap new head (σ z)
    by_cases hz : z = σ.symm head
    · rw [hz, update_self, σ.apply_symm_apply, swap_apply_right]
    · rw [update_of_ne hz]
      by_cases hz' : z = new
      · rw [hz', update_self, hnew, swap_apply_left]
      · rw [update_of_ne hz', swap_apply_of_ne_of_ne]
        · exact fun h => hz' (σ.injective (h.trans hnew.symm))
        · exact fun h => hz (σ.eq_symm_apply.mpr h)
  · change update (update σ.symm head new) new (σ.symm head) z =
      σ.symm ((swap new head).symm z)
    rw [symm_swap]
    by_cases hz : z = new
    · rw [hz, update_self, swap_apply_left]
    · rw [update_of_ne hz]
      by_cases hz' : z = head
      · rw [hz', update_self, swap_apply_right, hback]
      · rw [update_of_ne hz', swap_apply_of_ne_of_ne hz hz']

lemma delInit_ofPerm (σ : Perm α) (entry : α) :
    (ofPerm σ).delInit entry = ofPerm (swap entry (σ entry) * σ) := by
  ext z
  · change update (update σ (σ.symm entry) (σ entry)) entry entry z =
      swap entry (σ entry) (σ z)
    by_cases hz : z = entry
    · rw [hz, update_self, swap_apply_right]
    · rw [update_of_ne hz]
      by_cases hz' : z = σ.symm entry
      · rw [hz', update_self, σ.apply_symm_apply, swap_apply_left]
      · rw [update_of_ne hz', swap_apply_of_ne_of_ne]
        · exact fun h => hz' (σ.eq_symm_apply.mpr h)
        · exact fun h => hz (σ.injective h)
  · change update (update σ.symm (σ entry) (σ.symm entry)) entry entry z =
      σ.symm ((swap entry (σ entry)).symm z)
    rw [symm_swap]
    by_cases hz : z = entry
    · rw [hz, update_self, swap_apply_left, σ.symm_apply_apply]
    · rw [update_of_ne hz]
      by_cases hz' : z = σ entry
      · rw [hz', update_self, swap_apply_right]
      · rw [update_of_ne hz', swap_apply_of_ne_of_ne hz hz']

/-- What an element points to before it is linked does not matter. -/
lemma addTail_setSelf (hne : new ≠ head) (a b : α) :
    ((m.setNext new a).setPrev new b).addTail new head = m.addTail new head := by
  have hback : update m.prev new b head = m.prev head := update_of_ne hne.symm ..
  ext z
  · simp only [addTail, add, setNext, setPrev, hback, update_idem]
  · simp only [addTail, add, setNext, setPrev, hback]
    by_cases hz : z = new
    · rw [hz, update_self, update_self]
    · rw [update_of_ne hz, update_of_ne hz, update_comm hne,
        update_of_ne hz]

lemma moveTail_ofPerm (hne : entry ≠ head) : (ofPerm σ).moveTail entry head =
    ofPerm (swap entry head * (swap entry (σ entry) * σ)) := by
  have hfixed : (swap entry (σ entry) * σ) entry = entry := swap_apply_right ..
  rw [← addTail_ofPerm head hfixed, ← delInit_ofPerm]
  exact (addTail_setSelf hne entry entry).symm

/-- Moving the next element before one that is then unlinked is the same as unlinking it. -/
lemma swap_mul_moved (hne : σ entry ≠ entry) :
    let τ := swap (σ entry) entry * (swap (σ entry) (σ (σ entry)) * σ)
    swap entry (τ entry) * τ = swap entry (σ entry) * σ := by
  intro τ
  ext z
  simp only [τ, Perm.mul_apply]
  by_cases hback : σ (σ entry) = entry
  · simp [hback]
  · grind

end Heads

/-! ### Lists -/

/-- The list of a head: along the pointers from the head and back to it. -/
structure IsRing (σ : Perm α) (h : α) (l : List α) : Prop where
  linked : Linked σ h (h :: l)
  nodup : (h :: l).Nodup

namespace IsRing

variable {σ : Perm α} {h x : α} {l₁ l₂ : List α}

lemma exists_prev (hring : IsRing σ h (l₁ ++ l₂)) : ∃ a ∈ h :: l₁, σ a = l₂.headD h := by
  have hlinked := hring.linked
  exact (linked_append.mp hlinked).1.exists_last (by simp)

variable [DecidableEq α]

lemma insert (hring : IsRing σ h (l₁ ++ l₂)) (hx : σ x = x) (hout : x ∉ h :: (l₁ ++ l₂)) :
    IsRing (swap x (l₂.headD h) * σ) h (l₁ ++ x :: l₂) := by
  obtain ⟨z, hz, hlast⟩ := hring.exists_prev
  obtain ⟨hlinked, hnodup⟩ := hring
  rw [← List.cons_append] at hlinked hnodup hout
  obtain ⟨hfirst, hsecond⟩ := linked_append.mp hlinked
  obtain ⟨hnodup₁, hnodup₂, hdisjoint⟩ := List.nodup_append'.mp hnodup
  have hne : ∀ a ∈ h :: l₁ ++ l₂, σ a ≠ x := fun a ha heq =>
    hout (σ.injective (heq.trans hx.symm) ▸ ha)
  refine ⟨?_, ?_⟩
  · rw [← List.cons_append]
    refine linked_append.mpr ⟨hfirst.retarget ?_ (fun a ha heq => ?_) (fun a ha heq => ?_), ?_, ?_⟩
    · intro hin
      cases l₂ with
      | nil => exact (List.nodup_cons.mp hnodup₁).1 hin
      | cons y l₂ => exact hdisjoint (List.mem_of_mem_tail hin) (by simp)
    · rw [Perm.mul_apply, heq, swap_apply_right]
      rfl
    · exact swap_apply_of_ne_of_ne (hne a (List.mem_append_left _ ha)) heq
    · rw [Perm.mul_apply, hx, swap_apply_left]
    · refine hsecond.congr fun a ha =>
        swap_apply_of_ne_of_ne (hne a (List.mem_append_right _ ha)) ?_
      intro heq
      exact hdisjoint (σ.injective (heq.trans hlast.symm) ▸ hz) ha
  · rw [← List.cons_append, List.nodup_middle]
    exact List.nodup_cons.mpr ⟨hout, hnodup⟩

lemma remove (hring : IsRing σ h (l₁ ++ x :: l₂)) :
    IsRing (swap x (σ x) * σ) h (l₁ ++ l₂) := by
  obtain ⟨z, hz, hprev⟩ := hring.exists_prev
  obtain ⟨hlinked, hnodup⟩ := hring
  rw [← List.cons_append] at hlinked hnodup
  obtain ⟨hfirst, hnext, hsecond⟩ := linked_append.mp hlinked
  obtain ⟨hout, hnodup'⟩ := List.nodup_cons.mp (List.nodup_middle.mp hnodup)
  have hdisjoint := (List.nodup_append'.mp hnodup').2.2
  refine ⟨?_, by rwa [← List.cons_append]⟩
  refine linked_append.mpr ⟨hfirst.retarget ?_ (fun a ha heq => ?_) (fun a ha heq => ?_), ?_⟩
  · exact fun hin => hout (List.mem_append_left _ (List.mem_of_mem_tail hin))
  · rw [Perm.mul_apply, heq, ← hnext]
    exact swap_apply_left ..
  · refine swap_apply_of_ne_of_ne heq fun heq' => ?_
    exact hout (List.mem_append_left _ (σ.injective heq' ▸ ha))
  · refine hsecond.congr fun a ha => swap_apply_of_ne_of_ne (fun heq => ?_) fun heq => ?_
    · exact hdisjoint (σ.injective (heq.trans hprev.symm) ▸ hz) ha
    · exact hout (List.mem_append_right _ (σ.injective heq ▸ ha))

end IsRing

/-! ### One head -/

section OneHead

variable {N : Type} {m : Heads (Option N)} {x y : N} {l l₁ l₂ : List N}

/-- The pointers of a head, which is `none`, and of elements: those of the list are in it, and every
other one is on its own. -/
structure Holds (m : Heads (Option N)) (l : List N) : Prop where
  exists_perm : ∃ σ : Perm (Option N), m = .ofPerm σ ∧ IsRing σ none (l.map some) ∧
    ∀ x, x ∉ l → σ (some x) = some x

@[simp]
lemma headD_map_some (l : List N) : (l.map some).headD none = l.head? := by
  cases l <;> rfl

lemma Holds.nodup (h : Holds m l) : l.Nodup := by
  obtain ⟨σ, -, hring, -⟩ := h.exists_perm
  exact (List.nodup_map_iff (Option.some_injective N)).mp (List.nodup_cons.mp hring.nodup).2

lemma Holds.next_head (h : Holds m l) : m.next none = l.head? := by
  obtain ⟨σ, rfl, hring, -⟩ := h.exists_perm
  exact hring.linked.1.trans (headD_map_some l)

lemma Holds.next (h : Holds m (l₁ ++ x :: l₂)) : m.next (some x) = l₂.head? := by
  obtain ⟨σ, rfl, hring, -⟩ := h.exists_perm
  have hlinked := hring.linked
  rw [List.map_append, ← List.cons_append] at hlinked
  exact (linked_append.mp hlinked).2.1.trans (headD_map_some l₂)

lemma Holds.next_of_not_mem (h : Holds m l) (hx : x ∉ l) : m.next (some x) = some x := by
  obtain ⟨σ, rfl, -, hself⟩ := h.exists_perm
  exact hself x hx

lemma Holds.isEmpty_of_not_mem [DecidableEq N] (h : Holds m l) (hx : x ∉ l) :
    m.isEmpty (some x) = true :=
  decide_eq_true (h.next_of_not_mem hx)

lemma Holds.isEmpty_of_mem [DecidableEq N] (h : Holds m (l₁ ++ x :: l₂)) :
    m.isEmpty (some x) = false := by
  apply decide_eq_false
  rw [h.next]
  intro heq
  have hnodup := (List.nodup_append'.mp h.nodup).2.1
  exact (List.nodup_cons.mp hnodup).1 (List.mem_of_mem_head? heq)

lemma Holds.init_of_not_mem [DecidableEq N] (h : Holds m l) (hx : x ∉ l) : m.init (some x) = m := by
  obtain ⟨σ, rfl, -, hself⟩ := h.exists_perm
  have hback : σ.symm (some x) = some x := σ.symm_apply_eq.mpr (hself x hx).symm
  ext1
  · exact update_eq_self_iff.mpr (hself x hx).symm
  · exact update_eq_self_iff.mpr hback.symm

lemma holds_nil : Holds (⟨id, id⟩ : Heads (Option N)) [] :=
  ⟨1, rfl, ⟨⟨rfl, trivial⟩, List.nodup_singleton _⟩, fun _ _ => rfl⟩

variable [DecidableEq N]

/-- An element that is on its own is linked before the rest of the list. -/
lemma Holds.add (h : Holds m (l₁ ++ l₂)) (hx : x ∉ l₁ ++ l₂) :
    Holds (m.addTail (some x) l₂.head?) (l₁ ++ x :: l₂) := by
  obtain ⟨σ, rfl, hring, hself⟩ := h.exists_perm
  rw [List.map_append] at hring
  have hout : some x ∉ none :: (l₁.map some ++ l₂.map some) := by
    simpa using hx
  refine ⟨_, Heads.addTail_ofPerm _ (hself x hx), ?_, fun z hz => ?_⟩
  · rw [← headD_map_some, List.map_append]
    exact hring.insert (hself x hx) hout
  · have hz' : z ∉ l₁ ++ l₂ ∧ z ≠ x := by simp_all
    rw [Perm.mul_apply, hself z hz'.1]
    refine swap_apply_of_ne_of_ne (by simpa using hz'.2) fun heq => hz'.1 ?_
    exact List.mem_append_right _ (List.mem_of_mem_head? heq.symm)

variable (h : Holds m (l₁ ++ x :: l₂))

include h

lemma Holds.del : Holds (m.delInit (some x)) (l₁ ++ l₂) := by
  have hnext := h.next
  obtain ⟨σ, rfl, hring, hself⟩ := h.exists_perm
  refine ⟨_, Heads.delInit_ofPerm _ _, ?_, fun z hz => ?_⟩
  · rw [List.map_append] at hring ⊢
    exact hring.remove
  · by_cases hzx : z = x
    · rw [hzx]
      exact swap_apply_right ..
    · have hz' : z ∉ l₁ ++ x :: l₂ := by simp_all
      rw [Perm.mul_apply, hself z hz']
      refine swap_apply_of_ne_of_ne (by simpa using hzx) fun heq => hz ?_
      exact List.mem_append_right _ (List.mem_of_mem_head? (heq.trans hnext).symm)

/-- Another element takes the place of an element. -/
lemma Holds.replace (hy : y ∉ l₁ ++ x :: l₂) :
    Holds ((m.moveTail (some y) (some x)).delInit (some x)) (l₁ ++ y :: l₂) := by
  have hne : some y ≠ some x := by simp_all
  have hmove : m.moveTail (some y) (some x) = m.addTail (some y) (some x) := by
    obtain ⟨σ, rfl, -, hself⟩ := h.exists_perm
    rw [Heads.moveTail_ofPerm hne, Heads.addTail_ofPerm _ (hself y hy), hself y hy, swap_self]
    rfl
  rw [hmove]
  have hadd : Holds (m.addTail (some y) (some x)) ((l₁ ++ [y]) ++ x :: l₂) := by
    simpa using h.add hy
  simpa using hadd.del

/-- The next element, or the head, takes the place of an element. -/
lemma Holds.replace_next :
    Holds ((m.moveTail l₂.head? (some x)).delInit (some x)) (l₁ ++ l₂) := by
  have hdel := h.del
  have hnext := h.next
  have hne : l₂.head? ≠ some x := hnext ▸ of_decide_eq_false h.isEmpty_of_mem
  obtain ⟨σ, rfl, -, -⟩ := h.exists_perm
  have hσ : σ (some x) = l₂.head? := hnext
  rw [Heads.delInit_ofPerm] at hdel
  rw [Heads.moveTail_ofPerm hne, Heads.delInit_ofPerm, ← hσ, Heads.swap_mul_moved (hσ.symm ▸ hne)]
  exact hdel

end OneHead

end R0Kernel.ListHead
