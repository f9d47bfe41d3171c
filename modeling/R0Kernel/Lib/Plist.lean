import R0Kernel.Foundation.ListHead

/-!
# Priority-sorted lists

The lists of `lib/plist.c`. All nodes are on `node_list`, sorted by priority, and the first node of
each priority is also on `prio_list`. The nodes are seen in groups of one priority: a group is added
or gets longer with `plist_add`, and gets shorter, gets another first node or goes with `plist_del`.
-/

namespace R0Kernel

open ListHead List

/-- A `struct plist_head` and the nodes. In both lists `none` is the head, and `some n` the member
of the node `n`. -/
structure Plist (N : Type) where
  prio : N → Int
  prioList : Heads (Option N)
  nodeList : Heads (Option N)

namespace Plist

variable {N : Type} [DecidableEq N]

/-- `PLIST_HEAD_INIT`, and `PLIST_NODE_INIT` for all nodes. -/
def plistInit (prio : N → Int) : Plist N := ⟨prio, ⟨id, id⟩, ⟨id, id⟩⟩

def plistNodeInit (node : N) (prio : Int) (s : Plist N) : Plist N :=
  { prio := Function.update s.prio node prio
    prioList := s.prioList.init (some node)
    nodeList := s.nodeList.init (some node) }

/-- The loop of `plist_add` from `iter` on: the place it is left for, and whether it is left for
`eq_prio`. The rounds are bounded by the fuel. -/
def plistAddLoop (node : N) (s : Plist N) : (fuel : Nat) → Option N → Option (Option N × Bool)
  | 0, _ => none
  | _ + 1, none => some (none, false)
  | fuel + 1, some iter =>
    if s.prio node < s.prio iter then some (some iter, false)
    else if s.prio node = s.prio iter then some (s.prioList.next (some iter), true)
    else plistAddLoop node s fuel (s.prioList.next (some iter))

def plistAdd (fuel : Nat) (node : N) (s : Plist N) : Option (Plist N) :=
  (plistAddLoop node s fuel (s.prioList.next none)).map fun (iter, eqPrio) =>
    { s with
      prioList := if eqPrio then s.prioList else s.prioList.addTail (some node) iter
      nodeList := s.nodeList.addTail (some node) iter }

def plistDel (node : N) (s : Plist N) : Plist N :=
  let prioList :=
    if !s.prioList.isEmpty (some node) then
      let next := s.nodeList.next (some node)
      (s.prioList.moveTail next (some node)).delInit (some node)
    else s.prioList
  { s with prioList := prioList, nodeList := s.nodeList.delInit (some node) }

/-! ### Groups -/

/-- The first node of a priority and the others. -/
abbrev Group (N : Type) := N × List N

def nodes (gs : List (Group N)) : List N := gs.flatMap fun g => g.1 :: g.2

def firsts (gs : List (Group N)) : List N := gs.map Prod.fst

/-- The groups have increasing priorities. -/
structure Grouped (prio : N → Int) (gs : List (Group N)) : Prop where
  increasing : gs.Pairwise fun g g' => prio g.1 < prio g'.1
  same : ∀ g ∈ gs, ∀ n ∈ g.2, prio n = prio g.1

structure HoldsGroups (s : Plist N) (gs : List (Group N)) : Prop where
  nodeList : Holds s.nodeList (nodes gs)
  prioList : Holds s.prioList (firsts gs)

/-- A node goes to the end of the group of its priority. -/
def addTo (prio : N → Int) (n : N) : List (Group N) → List (Group N)
  | [] => [(n, [])]
  | g :: gs =>
    if prio n < prio g.1 then (n, []) :: g :: gs
    else if prio n = prio g.1 then (g.1, g.2 ++ [n]) :: gs
    else g :: addTo prio n gs

/-- The first node of a group goes, and the next one takes its place. -/
def dropFirst : List N → List (Group N) → List (Group N)
  | [], gs => gs
  | b :: l, gs => (b, l) :: gs

def delFrom (n : N) : List (Group N) → List (Group N)
  | [] => []
  | g :: gs =>
    if g.1 = n then dropFirst g.2 gs
    else if n ∈ g.2 then (g.1, g.2.erase n) :: gs
    else g :: delFrom n gs

section Lists

omit [DecidableEq N]

@[simp]
lemma nodes_nil : nodes ([] : List (Group N)) = [] := rfl

@[simp]
lemma firsts_nil : firsts ([] : List (Group N)) = [] := rfl

@[simp]
lemma nodes_append (gs gs' : List (Group N)) : nodes (gs ++ gs') = nodes gs ++ nodes gs' :=
  flatMap_append

@[simp]
lemma nodes_cons (g : Group N) (gs : List (Group N)) : nodes (g :: gs) = g.1 :: g.2 ++ nodes gs :=
  flatMap_cons

@[simp]
lemma firsts_append (gs gs' : List (Group N)) : firsts (gs ++ gs') = firsts gs ++ firsts gs' :=
  map_append

@[simp]
lemma firsts_cons (g : Group N) (gs : List (Group N)) : firsts (g :: gs) = g.1 :: firsts gs := rfl

lemma head?_nodes (gs : List (Group N)) : (nodes gs).head? = (firsts gs).head? := by
  cases gs <;> rfl

lemma firsts_sublist_nodes (gs : List (Group N)) : (firsts gs).Sublist (nodes gs) := by
  induction gs with
  | nil => exact Sublist.slnil
  | cons g gs ih =>
    rw [firsts_cons, nodes_cons, cons_append]
    exact (ih.trans (sublist_append_right ..)).cons_cons _

/-- The other nodes of a group are first in none. -/
lemma not_mem_firsts {gs₁ gs₂ : List (Group N)} {a n : N} {l : List N}
    (hnodup : (nodes (gs₁ ++ (a, l) :: gs₂)).Nodup) (hn : n ∈ l) :
    n ∉ firsts (gs₁ ++ (a, l) :: gs₂) := by
  rw [nodes_append] at hnodup
  obtain ⟨-, hrest, hbefore⟩ := nodup_append'.mp hnodup
  obtain ⟨hgroup, -, hbehind⟩ := nodup_append'.mp hrest
  have hmem : n ∈ a :: l := mem_cons_of_mem a hn
  rw [firsts_append, firsts_cons, mem_append, mem_cons]
  rintro (hin | rfl | hin)
  · exact hbefore ((firsts_sublist_nodes gs₁).subset hin) (mem_append_left _ hmem)
  · exact (nodup_cons.mp hgroup).1 hn
  · exact hbehind hmem ((firsts_sublist_nodes gs₂).subset hin)

end Lists

variable {s : Plist N} {gs gs₁ gs₂ : List (Group N)} {n : N} {l : List N}

section

variable (h : HoldsGroups s (gs₁ ++ gs₂)) (hn : n ∉ nodes (gs₁ ++ gs₂))

include h hn

/-- A node is linked before the groups behind it in both lists. -/
lemma HoldsGroups.insert :
    Holds (s.nodeList.addTail (some n) (firsts gs₂).head?) (nodes gs₁ ++ n :: nodes gs₂) ∧
      Holds (s.prioList.addTail (some n) (firsts gs₂).head?) (firsts gs₁ ++ n :: firsts gs₂) := by
  have hn' : n ∉ firsts (gs₁ ++ gs₂) := fun hin => hn ((firsts_sublist_nodes _).subset hin)
  obtain ⟨hnodes, hfirsts⟩ := h
  rw [nodes_append] at hnodes hn
  rw [firsts_append] at hfirsts hn'
  exact ⟨head?_nodes gs₂ ▸ hnodes.add hn, hfirsts.add hn'⟩

lemma HoldsGroups.addLoop {fuel : Nat} (hfuel : gs₂.length < fuel) :
    ∃ iter eqPrio, plistAddLoop n s fuel (firsts gs₂).head? = some (iter, eqPrio) ∧
      Holds (s.nodeList.addTail (some n) iter) (nodes (gs₁ ++ addTo s.prio n gs₂)) ∧
      Holds (if eqPrio then s.prioList else s.prioList.addTail (some n) iter)
        (firsts (gs₁ ++ addTo s.prio n gs₂)) := by
  obtain _ | fuel := fuel
  · omega
  have hinsert := h.insert hn
  induction gs₂ generalizing gs₁ fuel with
  | nil =>
    refine ⟨none, false, rfl, ?_, ?_⟩
    · simpa [addTo] using hinsert.1
    · simpa [addTo] using hinsert.2
  | cons g gs₂ ih =>
    have hsplit : gs₁ ++ g :: gs₂ = (gs₁ ++ [g]) ++ gs₂ := by simp
    have hnext : s.prioList.next (some g.1) = (firsts gs₂).head? := by
      have hprio := h.prioList
      rw [firsts_append] at hprio
      exact hprio.next
    rw [firsts_cons, head?_cons, plistAddLoop, hnext, addTo]
    by_cases hlt : s.prio n < s.prio g.1
    · rw [if_pos hlt, if_pos hlt]
      refine ⟨_, _, rfl, ?_, ?_⟩
      · simpa using hinsert.1
      · simpa using hinsert.2
    rw [if_neg hlt, if_neg hlt]
    rw [hsplit] at h hn
    have hinsert' := h.insert hn
    by_cases heq : s.prio n = s.prio g.1
    · rw [if_pos heq, if_pos heq]
      refine ⟨_, _, rfl, ?_, ?_⟩
      · simpa using hinsert'.1
      · simpa using h.prioList
    · rw [if_neg heq, if_neg heq]
      have hlength : gs₂.length < fuel := Nat.lt_of_succ_lt_succ hfuel
      obtain _ | fuel := fuel
      · omega
      simpa using ih h hn fuel hlength hinsert'

end

lemma HoldsGroups.add (h : HoldsGroups s gs) (hn : n ∉ nodes gs) {fuel : Nat}
    (hfuel : gs.length < fuel) :
    ∃ s', plistAdd fuel n s = some s' ∧ s'.prio = s.prio ∧ HoldsGroups s' (addTo s.prio n gs) := by
  have h' : HoldsGroups s ([] ++ gs) := h
  obtain ⟨iter, eqPrio, hloop, hnodes, hfirsts⟩ := h'.addLoop hn hfuel
  have hadd := congrArg (Option.map fun (iter, eqPrio) =>
    ({ s with
      prioList := if eqPrio then s.prioList else s.prioList.addTail (some n) iter
      nodeList := s.nodeList.addTail (some n) iter } : Plist N)) hloop
  rw [← h.prioList.next_head] at hadd
  exact ⟨_, hadd, rfl, hnodes, hfirsts⟩

/-! ### Deleting -/

lemma delFrom_append (hout : n ∉ nodes gs₁) : delFrom n (gs₁ ++ gs₂) = gs₁ ++ delFrom n gs₂ := by
  induction gs₁ with
  | nil => rfl
  | cons g gs₁ ih =>
    simp only [nodes_cons, mem_append, mem_cons, not_or] at hout
    rw [cons_append, delFrom, if_neg (Ne.symm hout.1.1), if_neg hout.1.2, ih hout.2,
      cons_append]

lemma HoldsGroups.del_first (h : HoldsGroups s (gs₁ ++ (n, l) :: gs₂)) :
    HoldsGroups (plistDel n s) (gs₁ ++ dropFirst l gs₂) := by
  obtain ⟨hnodes, hfirsts⟩ := h
  have hnodup := hnodes.nodup
  rw [nodes_append, nodes_cons, cons_append] at hnodes
  rw [firsts_append, firsts_cons] at hfirsts
  have hdel := hnodes.del
  rw [plistDel, hfirsts.isEmpty_of_mem, hnodes.next]
  cases l with
  | nil =>
    refine ⟨by simpa [dropFirst] using hdel, ?_⟩
    rw [nil_append, head?_nodes, firsts_append]
    exact hfirsts.replace_next
  | cons b l =>
    refine ⟨by simpa [dropFirst] using hdel, ?_⟩
    rw [firsts_append]
    refine hfirsts.replace ?_
    simpa using not_mem_firsts hnodup mem_cons_self

lemma HoldsGroups.del_other {a : N} (h : HoldsGroups s (gs₁ ++ (a, l) :: gs₂)) (hn : n ∈ l) :
    HoldsGroups (plistDel n s) (gs₁ ++ (a, l.erase n) :: gs₂) := by
  obtain ⟨hnodes, hfirsts⟩ := h
  rw [plistDel, hfirsts.isEmpty_of_not_mem (not_mem_firsts hnodes.nodup hn)]
  refine ⟨?_, by simpa using hfirsts⟩
  obtain ⟨l₁, l₂, hout, rfl, herase⟩ := exists_erase_eq hn
  have hsplit : nodes (gs₁ ++ (a, l₁ ++ n :: l₂) :: gs₂) =
      (nodes gs₁ ++ a :: l₁) ++ n :: (l₂ ++ nodes gs₂) := by simp
  rw [hsplit] at hnodes
  simpa [herase] using hnodes.del

lemma HoldsGroups.del (h : HoldsGroups s gs) (hn : n ∈ nodes gs) :
    HoldsGroups (plistDel n s) (delFrom n gs) := by
  obtain ⟨⟨a, l⟩, hg, hmem⟩ := mem_flatMap.mp hn
  obtain ⟨gs₁, gs₂, rfl⟩ := append_of_mem hg
  have hnodup := h.nodeList.nodup
  rw [nodes_append] at hnodup
  have hout : n ∉ nodes gs₁ := fun hin =>
    (nodup_append'.mp hnodup).2.2 hin (mem_append_left _ hmem)
  rw [delFrom_append hout, delFrom]
  obtain rfl | hl := mem_cons.mp hmem
  · rw [if_pos rfl]
    exact h.del_first
  · have hne : a ≠ n := by
      rintro rfl
      have hgroup := (nodup_append'.mp (nodup_append'.mp hnodup).2.1).1
      exact (nodup_cons.mp hgroup).1 hl
    rw [if_neg hne, if_pos hl]
    exact h.del_other hl

/-! ### Sorted lists -/

section Sorted

omit [DecidableEq N]

variable {prio : N → Int} {g : Group N} {l : List N}

lemma grouped_cons : Grouped prio (g :: gs) ↔
    (∀ m ∈ g.2, prio m = prio g.1) ∧ (∀ m ∈ nodes gs, prio g.1 < prio m) ∧ Grouped prio gs := by
  constructor
  · rintro ⟨hincreasing, hsame⟩
    obtain ⟨hlt, hincreasing⟩ := pairwise_cons.mp hincreasing
    obtain ⟨hhead, hsame⟩ := forall_mem_cons.mp hsame
    refine ⟨hhead, fun m hm => ?_, hincreasing, hsame⟩
    obtain ⟨g', hg', hm⟩ := mem_flatMap.mp hm
    obtain rfl | hm := mem_cons.mp hm
    · exact hlt g' hg'
    · exact hsame g' hg' m hm ▸ hlt g' hg'
  · rintro ⟨hhead, hlt, hincreasing, hsame⟩
    refine ⟨pairwise_cons.mpr ⟨fun g' hg' => hlt _ ?_, hincreasing⟩,
      forall_mem_cons.mpr ⟨hhead, hsame⟩⟩
    exact mem_flatMap.mpr ⟨g', hg', mem_cons_self⟩

lemma Grouped.first_le (h : Grouped prio (g :: gs)) : ∀ m ∈ nodes (g :: gs), prio g.1 ≤ prio m := by
  obtain ⟨hsame, hbehind, -⟩ := grouped_cons.mp h
  intro m hm
  rw [nodes_cons, cons_append, mem_cons, mem_append] at hm
  obtain rfl | hm | hm := hm
  · exact Int.le_refl _
  · exact (hsame m hm).ge
  · exact (hbehind m hm).le

lemma Grouped.sorted (h : Grouped prio gs) : (nodes gs).Pairwise fun a b => prio a ≤ prio b := by
  induction gs with
  | nil => exact Pairwise.nil
  | cons g gs ih =>
    obtain ⟨hsame, hlt, hgs⟩ := grouped_cons.mp h
    have hgroup : ∀ m ∈ g.1 :: g.2, prio m = prio g.1 := forall_mem_cons.mpr ⟨rfl, hsame⟩
    refine pairwise_append.mpr ⟨?_, ih hgs, fun a ha b hb => ?_⟩
    · exact pairwise_iff_forall_sublist.mpr fun hab =>
        (hgroup _ (hab.subset (by simp))).trans_le (hgroup _ (hab.subset (by simp))).ge
    · exact (hgroup a ha).trans_le (hlt b hb).le

/-- A node comes behind nodes of lower or equal value, and before those of higher value. -/
lemma filter_of_le {n : N} (h : ∀ m ∈ l, prio m ≤ prio n) :
    l.filter (prio · ≤ prio n) = l ∧ l.filter (prio n < prio ·) = [] := by
  simpa [filter_eq_self, filter_eq_nil_iff] using h

lemma filter_of_lt {n : N} (h : ∀ m ∈ l, prio n < prio m) :
    l.filter (prio · ≤ prio n) = [] ∧ l.filter (prio n < prio ·) = l := by
  simpa [filter_eq_self, filter_eq_nil_iff] using h

lemma Grouped.nodes_addTo (h : Grouped prio gs) (n : N) : nodes (addTo prio n gs) =
    (nodes gs).filter (prio · ≤ prio n) ++ n :: (nodes gs).filter (prio n < prio ·) := by
  induction gs with
  | nil => rfl
  | cons g gs ih =>
    obtain ⟨hsame, hbehind, hgs⟩ := grouped_cons.mp h
    have hgroup : ∀ m ∈ g.1 :: g.2, prio m = prio g.1 := forall_mem_cons.mpr ⟨rfl, hsame⟩
    rw [Plist.addTo, nodes_cons, filter_append, filter_append]
    by_cases hlt : prio n < prio g.1
    · obtain ⟨hle, hgt⟩ := filter_of_lt fun m hm => hlt.trans_eq (hgroup m hm).symm
      obtain ⟨hle', hgt'⟩ := filter_of_lt fun m hm => hlt.trans (hbehind m hm)
      rw [if_pos hlt, hle, hgt, hle', hgt']
      simp
    obtain ⟨hle, hgt⟩ := filter_of_le fun m hm => (hgroup m hm).trans_le (Int.not_lt.mp hlt)
    rw [if_neg hlt, hle, hgt]
    by_cases heq : prio n = prio g.1
    · obtain ⟨hle', hgt'⟩ := filter_of_lt fun m hm => heq.trans_lt (hbehind m hm)
      rw [if_pos heq, hle', hgt']
      simp
    · rw [if_neg heq, nodes_cons, ih hgs]
      simp

lemma mem_nodes_addTo {m : N} : m ∈ nodes (Plist.addTo prio n gs) ↔ m = n ∨ m ∈ nodes gs := by
  induction gs with
  | nil => simp [Plist.addTo]
  | cons g gs ih =>
    rw [Plist.addTo]
    split_ifs
    · simp
    · simp only [nodes_cons, mem_append, mem_cons]
      tauto
    · simp only [nodes_cons, mem_append, ih]
      tauto

lemma Grouped.addTo (h : Grouped prio gs) (n : N) : Grouped prio (addTo prio n gs) := by
  induction gs with
  | nil => exact grouped_cons.mpr ⟨by simp, by simp, h⟩
  | cons g gs ih =>
    obtain ⟨hsame, hbehind, hgs⟩ := grouped_cons.mp h
    rw [Plist.addTo]
    by_cases hlt : prio n < prio g.1
    · rw [if_pos hlt]
      exact grouped_cons.mpr ⟨by simp, fun m hm => hlt.trans_le (h.first_le m hm), h⟩
    rw [if_neg hlt]
    by_cases heq : prio n = prio g.1
    · rw [if_pos heq]
      refine grouped_cons.mpr ⟨fun m hm => ?_, hbehind, hgs⟩
      obtain hm | hm := mem_append.mp hm
      · exact hsame m hm
      · rw [mem_singleton.mp hm, heq]
    · rw [if_neg heq]
      refine grouped_cons.mpr ⟨hsame, fun m hm => ?_, ih hgs⟩
      obtain rfl | hm := mem_nodes_addTo.mp hm
      · omega
      · exact hbehind m hm

end Sorted

lemma nodes_delFrom (n : N) (gs : List (Group N)) : nodes (delFrom n gs) = (nodes gs).erase n := by
  induction gs with
  | nil => rfl
  | cons g gs ih =>
    rw [delFrom, nodes_cons, cons_append]
    split_ifs with hfirst hmem
    · rw [hfirst]
      cases g.2 <;> simp [dropFirst]
    · rw [erase_cons_tail (by simpa using hfirst), erase_append_left _ hmem]
      simp
    · rw [erase_cons_tail (by simpa using hfirst), erase_append_right _ hmem, nodes_cons, ih]
      simp

lemma Grouped.delFrom {prio : N → Int} (h : Grouped prio gs) (n : N) :
    Grouped prio (delFrom n gs) := by
  induction gs with
  | nil => exact h
  | cons g gs ih =>
    obtain ⟨hsame, hbehind, hgs⟩ := grouped_cons.mp h
    rw [Plist.delFrom]
    split_ifs
    · cases hrest : g.2 with
      | nil => exact hgs
      | cons b l =>
        obtain ⟨hb, hl⟩ := forall_mem_cons.mp (hrest ▸ hsame)
        refine grouped_cons.mpr ⟨fun m hm => (hl m hm).trans hb.symm, fun m hm => ?_, hgs⟩
        exact hb.trans_lt (hbehind m hm)
    · exact grouped_cons.mpr ⟨fun m hm => hsame m (mem_of_mem_erase hm), hbehind, hgs⟩
    · refine grouped_cons.mpr ⟨hsame, fun m hm => hbehind m ?_, ih hgs⟩
      rw [nodes_delFrom] at hm
      exact mem_of_mem_erase hm

/-! ### Runs -/

/-- No node before it has its priority. -/
def IsFirst (prio : N → Int) (q : List N) (a : N) : Prop :=
  ∃ l₁ l₂, q = l₁ ++ a :: l₂ ∧ ∀ b ∈ l₁, prio b ≠ prio a

/-- The nodes `inserted`, in the order of their insertion, are on `node_list` in the order `q`:
sorted by priority, and by insertion for equal priorities. The first of each priority are on
`prio_list` in the same order. -/
structure Ordered (s : Plist N) (inserted q : List N) : Prop where
  nodeList : Holds s.nodeList q
  prioList : ∃ r, Holds s.prioList r ∧ r.Sublist q ∧ ∀ a, a ∈ r ↔ IsFirst s.prio q a
  perm : q.Perm inserted
  sorted : q.Pairwise fun a b => s.prio a ≤ s.prio b
  stable : ∀ p, q.filter (s.prio · = p) = inserted.filter (s.prio · = p)

/-- The lists that calls lead to, with the nodes in the order of their insertion. Nodes that are not
linked may be given another priority. -/
inductive Reaches : Plist N → List N → Prop where
  | init (prio : N → Int) : Reaches (plistInit prio) []
  | nodeInit {s : Plist N} {inserted : List N} (reached : Reaches s inserted) (node : N)
    (prio : Int)
      (unlinked : node ∉ inserted) : Reaches (plistNodeInit node prio s) inserted
  | add {s s' : Plist N} {inserted : List N} (reached : Reaches s inserted) (fuel : Nat) (node : N)
      (unlinked : node ∉ inserted) (enough : inserted.length < fuel)
      (run : plistAdd fuel node s = some s') :
      Reaches s' (inserted ++ [node])
  | del {s : Plist N} {inserted : List N} (reached : Reaches s inserted) (node : N)
      (linked : node ∈ inserted) : Reaches (plistDel node s) (inserted.erase node)

/-- What every run keeps. -/
structure Grounded (s : Plist N) (inserted : List N) (gs : List (Group N)) : Prop where
  holds : HoldsGroups s gs
  grouped : Grouped s.prio gs
  perm : (nodes gs).Perm inserted
  stable : ∀ p, (nodes gs).filter (s.prio · = p) = inserted.filter (s.prio · = p)

section Lists

omit [DecidableEq N]

variable {prio : N → Int}

lemma Grouped.prio_eq (h : Grouped prio gs) {g : Group N} (hg : g ∈ gs) {m : N}
    (hm : m ∈ g.1 :: g.2) : prio m = prio g.1 :=
  (mem_cons.mp hm).elim (fun heq => heq ▸ rfl) fun hm => h.same g hg m hm

lemma Grouped.congr {prio' : N → Int} (h : Grouped prio gs)
    (hprio : ∀ m ∈ nodes gs, prio' m = prio m) : Grouped prio' gs := by
  have hgroup : ∀ g ∈ gs, ∀ m ∈ g.1 :: g.2, prio' m = prio m := fun g hg m hm =>
    hprio m (mem_flatMap.mpr ⟨g, hg, hm⟩)
  refine ⟨h.increasing.imp_of_mem fun {g g'} hg hg' hlt => ?_, fun g hg m hm => ?_⟩
  · rwa [hgroup g hg _ mem_cons_self, hgroup g' hg' _ mem_cons_self]
  · rw [hgroup g hg m (mem_cons_of_mem _ hm), hgroup g hg _ mem_cons_self, h.same g hg m hm]

lemma Grouped.mem_firsts_iff (h : Grouped prio gs) (hnodup : (nodes gs).Nodup) (a : N) :
    a ∈ firsts gs ↔ IsFirst prio (nodes gs) a := by
  constructor
  · intro ha
    obtain ⟨⟨a, l⟩, hg, rfl⟩ := mem_map.mp ha
    obtain ⟨gs₁, gs₂, rfl⟩ := append_of_mem hg
    refine ⟨nodes gs₁, l ++ nodes gs₂, by simp, fun b hb => ?_⟩
    obtain ⟨g, hg, hb⟩ := mem_flatMap.mp hb
    have hlt := (pairwise_append.mp h.increasing).2.2 g hg (a, l) mem_cons_self
    rw [h.prio_eq (mem_append_left _ hg) hb]
    exact Int.ne_of_lt hlt
  · rintro ⟨l₁, l₂, hsplit, hfirst⟩
    have ha : a ∈ nodes gs := by simp [hsplit]
    obtain ⟨g, hg, hmem⟩ := mem_flatMap.mp ha
    obtain rfl | hrest := mem_cons.mp hmem
    · exact mem_map_of_mem hg
    -- the first node of the group comes before the others
    obtain ⟨gs₁, gs₂, rfl⟩ := append_of_mem hg
    obtain ⟨x, y, hxy⟩ := append_of_mem hrest
    have hsplit' : nodes (gs₁ ++ g :: gs₂) = (nodes gs₁ ++ g.1 :: x) ++ a :: (y ++ nodes gs₂) := by
      simp [hxy]
    have hl₁ : l₁ = nodes gs₁ ++ g.1 :: x := by
      have hboth := hsplit.symm.trans hsplit'
      have hout : ∀ {l l' : List N}, (l ++ a :: l').Nodup → a ∉ l ∧ a ∉ l' := by
        intro l l' hl
        simpa using (nodup_cons.mp (nodup_middle.mp hl)).1
      exact ((append_cons_inj_of_notMem (hout (hsplit ▸ hnodup)).1
        (hout (hsplit ▸ hnodup)).2).mp hboth).1
    exact absurd (h.prio_eq hg hmem).symm (hfirst g.1 (by simp [hl₁]))

lemma filter_inserted (q : List N) (n : N) (p : Int) :
    (q.filter (prio · ≤ prio n) ++ n :: q.filter (prio n < prio ·)).filter (prio · = p) =
      (q ++ [n]).filter (prio · = p) := by
  have hpick (l : List N) (r : N → Prop) [DecidablePred r] (h : ∀ m ∈ l, prio m = p → r m) :
      (l.filter (r ·)).filter (prio · = p) = l.filter (prio · = p) := by
    rw [filter_filter]
    exact filter_congr fun m hm => by simpa using h m hm
  have hdrop (l : List N) (r : N → Prop) [DecidablePred r] (h : ∀ m ∈ l, prio m = p → ¬r m) :
      (l.filter (r ·)).filter (prio · = p) = [] := by
    rw [filter_filter]
    exact filter_eq_nil_iff.mpr fun m hm => by simpa using h m hm
  rw [filter_append, filter_cons]
  by_cases hle : p ≤ prio n
  · rw [hpick q (prio · ≤ prio n) fun m _ hm => hm.trans_le hle,
      hdrop q (prio n < prio ·) fun m _ hm => Int.not_lt.mpr (hm.trans_le hle)]
    simp [filter_cons]
  · have hlt := Int.not_le.mp hle
    rw [hdrop q (prio · ≤ prio n) fun m _ hm => by omega,
      hpick q (prio n < prio ·) fun m _ hm => by omega]
    simp [hlt.ne]

lemma perm_inserted (q : List N) (n : N) :
    (q.filter (prio · ≤ prio n) ++ n :: q.filter (prio n < prio ·)).Perm (q ++ [n]) := by
  have hnot : q.filter (prio n < prio ·) = q.filter (fun m => !decide (prio m ≤ prio n)) :=
    filter_congr fun m _ => by rw [← decide_not, decide_eq_decide, Int.not_le]
  rw [hnot]
  refine perm_middle.trans ?_
  exact ((filter_append_perm _ q).cons n).trans (perm_append_singleton n q).symm

end Lists

variable {inserted : List N}

section

variable (h : Grounded s inserted gs)

include h

omit [DecidableEq N] in
lemma Grounded.ordered : Ordered s inserted (nodes gs) :=
  ⟨h.holds.nodeList, ⟨_, h.holds.prioList, firsts_sublist_nodes gs,
    h.grouped.mem_firsts_iff h.holds.nodeList.nodup⟩, h.perm, h.grouped.sorted, h.stable⟩

lemma Grounded.add (hn : n ∉ inserted) {fuel : Nat} (hfuel : inserted.length < fuel) :
    ∃ s', plistAdd fuel n s = some s' ∧ s'.prio = s.prio ∧
      Grounded s' (inserted ++ [n]) (addTo s.prio n gs) := by
  have hlength : gs.length ≤ inserted.length := by
    rw [← h.perm.length_eq]
    simpa [firsts] using (firsts_sublist_nodes gs).length_le
  obtain ⟨s', hadd, hprio, hholds⟩ := h.holds.add (fun hin => hn (h.perm.mem_iff.mp hin))
    (lt_of_le_of_lt hlength hfuel)
  refine ⟨s', hadd, hprio, hholds, hprio ▸ h.grouped.addTo n, ?_, fun p => ?_⟩
  · rw [h.grouped.nodes_addTo]
    exact (perm_inserted _ n).trans (h.perm.append_right _)
  · rw [hprio, h.grouped.nodes_addTo, filter_inserted, filter_append, filter_append, h.stable]

lemma Grounded.del (hn : n ∈ inserted) :
    Grounded (plistDel n s) (inserted.erase n) (delFrom n gs) := by
  have hnodup := h.holds.nodeList.nodup
  refine ⟨h.holds.del (h.perm.mem_iff.mpr hn), h.grouped.delFrom n, ?_, fun p => ?_⟩
  · rw [nodes_delFrom]
    exact h.perm.erase n
  · rw [nodes_delFrom, hnodup.erase_eq_filter, (h.perm.nodup_iff.mp hnodup).erase_eq_filter,
      filter_comm _ _ (nodes gs), filter_comm _ _ inserted]
    exact congrArg _ (h.stable p)

lemma Grounded.nodeInit (hn : n ∉ inserted) (p : Int) :
    Grounded (plistNodeInit n p s) inserted gs := by
  have hn' : n ∉ nodes gs := fun hin => hn (h.perm.mem_iff.mp hin)
  have hfirsts : n ∉ firsts gs := fun hin => hn' ((firsts_sublist_nodes gs).subset hin)
  have hprio : ∀ m, m ≠ n → (plistNodeInit n p s).prio m = s.prio m := fun m hm =>
    Function.update_of_ne hm ..
  have hfilter : ∀ l : List N, n ∉ l → ∀ p', l.filter ((plistNodeInit n p s).prio · = p') =
      l.filter (s.prio · = p') := fun l hl p' =>
    filter_congr fun m hm => by rw [hprio m fun heq => hl (heq ▸ hm)]
  refine ⟨⟨?_, ?_⟩, h.grouped.congr fun m hm => hprio m fun heq => hn' (heq ▸ hm),
    h.perm, fun p' => ?_⟩
  · rw [plistNodeInit, h.holds.nodeList.init_of_not_mem hn']
    exact h.holds.nodeList
  · rw [plistNodeInit, h.holds.prioList.init_of_not_mem hfirsts]
    exact h.holds.prioList
  · rw [hfilter _ hn', hfilter _ hn, h.stable]

end

lemma Reaches.grounded (h : Reaches s inserted) : ∃ gs, Grounded s inserted gs := by
  induction h with
  | init prio =>
    exact ⟨[], ⟨holds_nil, holds_nil⟩, ⟨Pairwise.nil, by simp⟩, Perm.nil, fun _ => rfl⟩
  | nodeInit _ node prio hn ih =>
    obtain ⟨gs, hgs⟩ := ih
    exact ⟨gs, hgs.nodeInit hn prio⟩
  | add _ fuel node hn hfuel hrun ih =>
    obtain ⟨gs, hgs⟩ := ih
    obtain ⟨s', hadd, -, hs'⟩ := hgs.add hn hfuel
    obtain rfl := Option.some.inj (hadd.symm.trans hrun)
    exact ⟨_, hs'⟩
  | del _ node hn ih =>
    obtain ⟨gs, hgs⟩ := ih
    exact ⟨_, hgs.del hn⟩

/-- After any calls the lists are sorted by priority and then by insertion. Adding a node puts it
behind all nodes of lower or equal value, and deleting one takes out this node only. -/
theorem plist_sorted (s : Plist N) (inserted : List N) (h : Reaches s inserted) :
    ∃ q, Ordered s inserted q ∧
      (∀ n fuel, n ∉ inserted → inserted.length < fuel → ∃ s', plistAdd fuel n s = some s' ∧
        s'.prio = s.prio ∧ Ordered s' (inserted ++ [n])
          (q.filter (s.prio · ≤ s.prio n) ++ n :: q.filter (s.prio n < s.prio ·))) ∧
      ∀ n ∈ inserted, (plistDel n s).prio = s.prio ∧
        Ordered (plistDel n s) (inserted.erase n) (q.erase n) := by
  obtain ⟨gs, hgs⟩ := h.grounded
  refine ⟨nodes gs, hgs.ordered, fun n fuel hn hfuel => ?_, fun n hn => ⟨rfl, ?_⟩⟩
  · obtain ⟨s', hadd, hprio, hs'⟩ := hgs.add hn hfuel
    exact ⟨s', hadd, hprio, hgs.grouped.nodes_addTo n ▸ hs'.ordered⟩
  · exact nodes_delFrom n gs ▸ (hgs.del hn).ordered

/-- Two nodes of one priority and one of a lower value. -/
theorem plist_sorted_three : ∃ s : Plist (Fin 3), Reaches s [0, 1, 2] ∧ ∃ q,
    Ordered s [0, 1, 2] q := by
  have hinit : Reaches (plistInit fun n : Fin 3 => if n = 2 then 1 else 5) [] := .init _
  have h₀ := hinit.add 9 0 (by decide) (by decide) rfl
  have h₁ := h₀.add 9 1 (by decide) (by decide) rfl
  have h₂ := h₁.add 9 2 (by decide) (by decide) rfl
  obtain ⟨q, hq, -⟩ := plist_sorted _ _ h₂
  exact ⟨_, h₂, q, hq⟩

end Plist

end R0Kernel
