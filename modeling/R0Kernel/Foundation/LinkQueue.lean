import Mathlib

/-!
# Queues linked by the places that point to their entries

Each entry of such a queue knows the next entry and the place that holds the pointer to it: the
head of the queue or the `next` field of the entry before. `Holds` says which list a state of the
pointers represents, and unlinking an entry takes it out of that list.
-/

namespace R0Kernel.LinkQueue

open Function List Option

variable {α : Type*}

/-- A place that holds a pointer to an entry. -/
inductive Link (α : Type*) where
  | head
  | next (q : α)
deriving DecidableEq

/-- The pointers of a queue. An entry that is not in the queue has no `prev`. -/
structure Links (α : Type*) where
  first : Option α
  last : Link α
  next : α → Option α
  prev : α → Option (Link α)

def Links.get (s : Links α) : Link α → Option α
  | .head => s.first
  | .next q => s.next q

/-- The pointers lead from the place `p` through the entries of a list to the end. -/
def Chain (s : Links α) : Link α → List α → Prop
  | p, [] => s.get p = none ∧ s.last = p
  | p, q :: l => s.get p = some q ∧ s.prev q = some p ∧ Chain s (.next q) l

structure Holds (s : Links α) (l : List α) : Prop where
  chain : Chain s .head l
  nodup : l.Nodup

section Chains

variable {s s' : Links α} {p : Link α} {q : α} {l l₁ l₂ : List α}

lemma Chain.get_eq_head (h : Chain s p l) : s.get p = l.head? := by
  cases l with
  | nil => exact h.1
  | cons q l => exact h.1

lemma Chain.congr (h : Chain s p l) (hget : s'.get p = s.get p)
    (hnext : ∀ q ∈ l, s'.next q = s.next q) (hprev : ∀ q ∈ l, s'.prev q = s.prev q)
    (hlast : s'.last = s.last) : Chain s' p l := by
  induction l generalizing p with
  | nil => exact ⟨hget.trans h.1, hlast.trans h.2⟩
  | cons q l ih =>
    obtain ⟨hq, hback, hrest⟩ := h
    refine ⟨hget.trans hq, (hprev q mem_cons_self).trans hback, ih hrest ?_ ?_ ?_⟩
    · exact hnext q mem_cons_self
    · intro r hr
      exact hnext r (mem_cons_of_mem q hr)
    · intro r hr
      exact hprev r (mem_cons_of_mem q hr)

/-- The place that points to an entry is the start of the chain or in an entry before it. -/
lemma Chain.prev_eq (h : Chain s p (l₁ ++ q :: l₂)) :
    (l₁ = [] ∧ s.prev q = some p) ∨ ∃ x ∈ l₁, s.prev q = some (.next x) := by
  induction l₁ generalizing p with
  | nil => exact .inl ⟨rfl, h.2.1⟩
  | cons x l₁ ih =>
    right
    rcases ih h.2.2 with ⟨-, hq⟩ | ⟨y, hy, hq⟩
    · exact ⟨x, mem_cons_self, hq⟩
    · exact ⟨y, mem_cons_of_mem x hy, hq⟩

lemma Chain.next_eq (h : Chain s p (l₁ ++ q :: l₂)) : s.next q = l₂.head? := by
  induction l₁ generalizing p with
  | nil => exact h.2.2.get_eq_head
  | cons x l₁ ih => exact ih h.2.2

end Chains

section Unlink

variable [DecidableEq α]

namespace Links

def set (s : Links α) : Link α → Option α → Links α
  | .head, v => { s with first := v }
  | .next q, v => { s with next := update s.next q v }

/-- Let the entry behind `q`, or the end of the queue, point back to the place `p`. -/
def pointBack (s : Links α) (p : Link α) : Option α → Links α
  | some r => { s with prev := update s.prev r (some p) }
  | none => { s with last := p }

def setRemoved (s : Links α) (q : α) : Links α :=
  { s with prev := update s.prev q none }

/-- Take out the entry `q` that the place `p` points to. The entry keeps its `next`. -/
def unlinkAt (s : Links α) (p : Link α) (q : α) : Links α :=
  ((s.set p (s.next q)).pointBack p (s.next q)).setRemoved q

/-- Take an entry out; `none` if it is not in the queue, as its `prev` cannot be followed. -/
def unlink (s : Links α) (q : α) : Option (Links α) :=
  (s.prev q).map fun p => s.unlinkAt p q

variable (s : Links α) {p e : Link α} {q r : α}

lemma get_unlinkAt : (s.unlinkAt e q).get p = (s.set e (s.next q)).get p := by
  cases p <;> cases hnext : s.next q <;> simp only [unlinkAt, hnext] <;> rfl

lemma get_unlinkAt_self : (s.unlinkAt e q).get e = s.next q := by
  rw [get_unlinkAt]
  cases e with
  | head => rfl
  | next x => exact update_self ..

lemma get_unlinkAt_of_ne (h : p ≠ e) : (s.unlinkAt e q).get p = s.get p := by
  rw [get_unlinkAt]
  cases e with
  | head =>
    cases p with
    | head => exact absurd rfl h
    | next x => rfl
  | next y =>
    cases p with
    | head => rfl
    | next x => exact update_of_ne (fun heq => h (congrArg Link.next heq)) ..

lemma set_prev (v : Option α) : (s.set p v).prev = s.prev := by
  cases p <;> rfl

lemma set_last (v : Option α) : (s.set p v).last = s.last := by
  cases p <;> rfl

lemma prev_setRemoved_of_ne (h : r ≠ q) : (s.setRemoved q).prev r = s.prev r :=
  update_of_ne h ..

lemma prev_unlinkAt_of_ne (hrq : r ≠ q) (h : s.next q ≠ some r) :
    (s.unlinkAt e q).prev r = s.prev r := by
  rw [unlinkAt, prev_setRemoved_of_ne _ hrq]
  cases hnext : s.next q with
  | none => exact congrFun (s.set_prev none) r
  | some r' =>
    have hne : r ≠ r' := fun heq => h (heq ▸ hnext)
    rw [pointBack, set_prev]
    exact update_of_ne hne ..

lemma prev_unlinkAt_next (hrq : r ≠ q) (h : s.next q = some r) :
    (s.unlinkAt e q).prev r = some e := by
  rw [unlinkAt, prev_setRemoved_of_ne _ hrq, h]
  exact update_self ..

lemma last_unlinkAt_of_none (h : s.next q = none) : (s.unlinkAt e q).last = e := by
  rw [unlinkAt, h]
  rfl

lemma last_unlinkAt_of_some (h : s.next q = some r) : (s.unlinkAt e q).last = s.last := by
  rw [unlinkAt, h]
  exact set_last ..

end Links

variable {s : Links α} {p e : Link α} {q : α} {l l₁ l₂ : List α}

/-- The chain behind the unlinked entry now starts at the place that pointed to it. -/
lemma Chain.unlinkAt_tail (h : Chain s (.next q) l) (hnodup : (q :: l).Nodup)
    (hstart : ∀ x ∈ l, e ≠ .next x) : Chain (s.unlinkAt e q) e l := by
  have hnext := h.get_eq_head
  cases l with
  | nil => exact ⟨(s.get_unlinkAt_self).trans hnext, s.last_unlinkAt_of_none hnext⟩
  | cons r l =>
    obtain ⟨hq, hnodup'⟩ := nodup_cons.mp hnodup
    obtain ⟨hr, -⟩ := nodup_cons.mp hnodup'
    have hrq : r ≠ q := fun heq => hq (heq ▸ mem_cons_self)
    refine ⟨(s.get_unlinkAt_self).trans hnext, s.prev_unlinkAt_next hrq hnext,
      h.2.2.congr ?_ ?_ ?_ (s.last_unlinkAt_of_some hnext)⟩
    · apply s.get_unlinkAt_of_ne
      exact (hstart r mem_cons_self).symm
    · intro x hx
      have hxe : Link.next x ≠ e := (hstart x (mem_cons_of_mem r hx)).symm
      exact s.get_unlinkAt_of_ne hxe
    · intro x hx
      apply s.prev_unlinkAt_of_ne
      · exact fun heq => hq (heq ▸ mem_cons_of_mem r hx)
      · rintro heq
        obtain rfl : r = x := some.inj (hnext.symm.trans heq)
        exact hr hx

/-- Unlinking an entry of a chain, with the place `e` that points to it. -/
lemma Chain.unlinkAt (h : Chain s p (l₁ ++ q :: l₂)) (hnodup : (l₁ ++ q :: l₂).Nodup)
    (hstart : ∀ x ∈ l₁ ++ q :: l₂, p ≠ .next x) (he : s.prev q = some e) :
    Chain (s.unlinkAt e q) p (l₁ ++ l₂) := by
  induction l₁ generalizing p with
  | nil =>
    obtain ⟨-, hback, hrest⟩ := h
    obtain rfl : e = p := some.inj (he.symm.trans hback)
    apply hrest.unlinkAt_tail hnodup
    intro x hx
    exact hstart x (mem_cons_of_mem q hx)
  | cons x l₁ ih =>
    obtain ⟨hx, hnodup'⟩ := nodup_cons.mp hnodup
    have hnext := h.next_eq
    -- the place that points to `q` lies behind `x`, so it is not `p`
    have hpe : p ≠ e := by
      rcases h.prev_eq with ⟨hnil, -⟩ | ⟨y, hy, hyq⟩
      · cases hnil
      · obtain rfl : e = .next y := some.inj (he.symm.trans hyq)
        exact hstart y (mem_append_left _ hy)
    obtain ⟨hget, hback, hrest⟩ := h
    refine ⟨(s.get_unlinkAt_of_ne hpe).trans hget, ?_, ih hrest hnodup' ?_⟩
    · rw [s.prev_unlinkAt_of_ne, hback]
      · rintro rfl
        exact hx (mem_append_right _ mem_cons_self)
      · intro heq
        rw [hnext] at heq
        exact hx (mem_append_right _ (mem_cons_of_mem q (mem_of_mem_head? heq)))
    · intro y hy heq
      cases heq
      exact hx hy

/-- Unlinking an entry of the queue takes it out of the list, and its `next` still points to the
entry that was behind it. -/
lemma Holds.unlink (h : Holds s (l₁ ++ q :: l₂)) :
    ∃ s', s.unlink q = some s' ∧ Holds s' (l₁ ++ l₂) ∧ s'.next q = l₂.head? := by
  obtain ⟨e, he⟩ : ∃ e, s.prev q = some e := by
    rcases h.chain.prev_eq with ⟨-, hq⟩ | ⟨x, -, hq⟩
    · exact ⟨_, hq⟩
    · exact ⟨_, hq⟩
  refine ⟨s.unlinkAt e q, ?_, ⟨?_, ?_⟩, ?_⟩
  · rw [Links.unlink, he, map_some]
  · exact h.chain.unlinkAt h.nodup nofun he
  · exact h.nodup.sublist ((sublist_cons_self q l₂).append_left l₁)
  · have hqe : Link.next q ≠ e := by
      rintro rfl
      rcases h.chain.prev_eq with ⟨-, hq⟩ | ⟨x, hx, hq⟩
      · rw [hq] at he
        cases he
      · obtain rfl : x = q := Link.next.inj (some.inj (hq.symm.trans he))
        exact (nodup_append.mp h.nodup).2.2 x hx x mem_cons_self rfl
    exact (s.get_unlinkAt_of_ne hqe).trans h.chain.next_eq

end Unlink

end R0Kernel.LinkQueue
