import Mathlib.Data.List.Nodup
import Mathlib.Logic.Function.Basic

/-!
# Chains of links

Chains in a store that gives each element the next one, with a value that stands for the end. A
chain is a list of elements in which each leads to the one behind it and the last to the end; what a
chain is depends on the links of its own elements only.
-/

namespace R0Kernel.LinkChain

open List

variable {α : Type}

/-- Each element leads to the one behind it, and the last to `stop`. -/
def Linked (next : α → α) (stop : α) : List α → Prop
  | [] => True
  | a :: l => next a = l.headD stop ∧ Linked next stop l

section Linked

variable {next next' : α → α} {stop : α} {l l' : List α} {a : α}

@[simp]
lemma linked_nil : Linked next stop [] := trivial

@[simp]
lemma linked_cons : Linked next stop (a :: l) ↔ next a = l.headD stop ∧ Linked next stop l := .rfl

lemma linked_append :
    Linked next stop (l ++ l') ↔ Linked next (l'.headD stop) l ∧ Linked next stop l' := by
  induction l with
  | nil => simp
  | cons a l ih =>
    rw [cons_append, linked_cons, linked_cons, ih, and_assoc]
    cases l <;> rfl

section

variable (h : Linked next stop l)

include h

lemma Linked.congr (hagree : ∀ a ∈ l, next' a = next a) :
    Linked next' stop l := by
  induction l with
  | nil => trivial
  | cons a l ih =>
    obtain ⟨hhead, htail⟩ := forall_mem_cons.mp hagree
    exact ⟨hhead.trans h.1, ih h.2 htail⟩

lemma Linked.drop (n : Nat) : Linked next stop (l.drop n) := by
  rw [← take_append_drop n l] at h
  exact (linked_append.mp h).2

lemma Linked.next_of_getElem? {i : Nat} (hi : l[i]? = some a) :
    next a = l[i + 1]?.getD stop := by
  induction l generalizing i with
  | nil => simp at hi
  | cons b l ih =>
    cases i with
    | zero =>
      obtain rfl := Option.some.inj hi
      rw [h.1]
      cases l <;> rfl
    | succ i => exact ih h.2 hi

/-- The links to one element lead to another instead. -/
lemma Linked.retarget {stop' : α} (hstop : stop ∉ l.tail)
    (hto : ∀ a ∈ l, next a = stop → next' a = stop')
    (hkeep : ∀ a ∈ l, next a ≠ stop → next' a = next a) : Linked next' stop' l := by
  induction l with
  | nil => trivial
  | cons a l ih =>
    obtain ⟨htoHead, htoTail⟩ := forall_mem_cons.mp hto
    obtain ⟨hkeepHead, hkeepTail⟩ := forall_mem_cons.mp hkeep
    cases l with
    | nil => exact ⟨htoHead h.1, trivial⟩
    | cons b l =>
      have hb : next a = b := h.1
      refine ⟨?_, ih h.2 (fun hin => hstop (mem_cons_of_mem b hin)) htoTail hkeepTail⟩
      rw [hkeepHead fun heq => hstop (by simp [← hb, heq]), hb]
      rfl

end

lemma Linked.next_last (h : Linked next stop (l ++ [a])) : next a = stop :=
  (linked_append.mp h).2.1

lemma Linked.exists_last (h : Linked next stop l) (hne : l ≠ []) : ∃ a ∈ l, next a = stop := by
  obtain ⟨l, a, rfl⟩ := eq_nil_or_concat l |>.resolve_left hne
  rw [concat_eq_append] at h ⊢
  exact ⟨a, by simp, h.next_last⟩

variable [DecidableEq α]

lemma Linked.update_last (h : Linked next stop (l ++ [a])) (hnodup : (l ++ [a]).Nodup) (b : α) :
    Linked (Function.update next a b) b (l ++ [a]) := by
  obtain ⟨hinit, -⟩ := linked_append.mp h
  have hout : a ∉ l := fun hin => (nodup_append'.mp hnodup).2.2 hin (mem_singleton_self a)
  refine linked_append.mpr ⟨hinit.congr fun c hc => ?_, by simp⟩
  have hne : c ≠ a := fun heq => hout (heq ▸ hc)
  exact Function.update_of_ne hne ..

end Linked

end R0Kernel.LinkChain
