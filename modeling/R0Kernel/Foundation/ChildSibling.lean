import Mathlib

/-!
# Trees linked by first child and next sibling

Each node points to its parent, its first child and its next sibling. `Rep` says which forest the
pointers represent, `splice` what happens when the pointer behind some siblings is redirected, and
`setKids` what happens to a whole tree when the children of one node change.
-/

namespace R0Kernel.ChildSibling

open Function Multiset

variable {α : Type*}

structure Ptrs (α : Type*) where
  parent : α → Option α
  sibling : α → Option α
  child : α → Option α

/-- A place that holds a pointer to a node. -/
inductive Link (α : Type*) where
  | child (r : α)
  | sibling (r : α)
deriving DecidableEq

def Link.owner : Link α → α
  | child r => r
  | sibling r => r

def Ptrs.get (m : Ptrs α) : Link α → Option α
  | .child r => m.child r
  | .sibling r => m.sibling r

section Writes

variable [DecidableEq α]

def Ptrs.set (m : Ptrs α) : Link α → Option α → Ptrs α
  | .child r, v => { m with child := update m.child r v }
  | .sibling r, v => { m with sibling := update m.sibling r v }

def Ptrs.setParent (m : Ptrs α) (r : α) (v : Option α) : Ptrs α :=
  { m with parent := update m.parent r v }

variable (m : Ptrs α)

include m

@[simp]
lemma Ptrs.get_set_self (q : Link α) (v : Option α) : (m.set q v).get q = v := by
  cases q <;> exact update_self ..

lemma Ptrs.get_set_of_ne {q x : Link α} (v : Option α) (h : x ≠ q) :
    (m.set q v).get x = m.get x := by
  cases q with
  | child r =>
    cases x with
    | child r' => exact update_of_ne (fun heq => h (congrArg Link.child heq)) ..
    | sibling r' => rfl
  | sibling r =>
    cases x with
    | child r' => rfl
    | sibling r' => exact update_of_ne (fun heq => h (congrArg Link.sibling heq)) ..

@[simp]
lemma Ptrs.set_parent (q : Link α) (v : Option α) :
    (m.set q v).parent = m.parent := by
  cases q <;> rfl

@[simp]
lemma Ptrs.get_setParent (r : α) (v : Option α) (q : Link α) :
    (m.setParent r v).get q = m.get q := by
  cases q <;> rfl

@[simp]
lemma Ptrs.setParent_self (r : α) (v : Option α) :
    (m.setParent r v).parent r = v :=
  update_self ..

lemma Ptrs.setParent_of_ne {r x : α} (v : Option α) (h : x ≠ r) :
    (m.setParent r v).parent x = m.parent x :=
  update_of_ne h ..

end Writes

inductive Forest (α : Type*) where
  | nil
  | cons (r : α) (kids rest : Forest α)

namespace Forest

def ids : Forest α → Multiset α
  | nil => 0
  | cons r kids rest => r ::ₘ (kids.ids + rest.ids)

def tops : Forest α → List α
  | nil => []
  | cons r _ rest => r :: rest.tops

def append : Forest α → Forest α → Forest α
  | nil, F => F
  | cons r kids rest, F => cons r kids (rest.append F)

/-- The place that points behind the trees of a forest, which starts at the place `p`. -/
def lastLink (p : Link α) : Forest α → Link α
  | nil => p
  | cons r _ rest => lastLink (.sibling r) rest

/-- The node `r` has the children `kids` somewhere in the forest. -/
inductive At : Forest α → α → Forest α → Prop where
  | here {r : α} {kids rest : Forest α} : At (cons r kids rest) r kids
  | under {r P : α} {kids rest K : Forest α} : At kids P K → At (cons r kids rest) P K
  | behind {r P : α} {kids rest K : Forest α} : At rest P K → At (cons r kids rest) P K

def setKids [DecidableEq α] : Forest α → α → Forest α → Forest α
  | nil, _, _ => nil
  | cons r kids rest, P, K =>
    if r = P then cons r K rest else cons r (kids.setKids P K) (rest.setKids P K)

variable {T F K k B : Forest α} {P r : α} {x : α}

lemma mem_kids {s t : Multiset α} (h : x ∈ s) : x ∈ r ::ₘ (s + t) :=
  mem_cons_of_mem (mem_add.mpr (.inl h))

lemma mem_rest {s t : Multiset α} (h : x ∈ t) : x ∈ r ::ₘ (s + t) :=
  mem_cons_of_mem (mem_add.mpr (.inr h))

@[simp]
lemma ids_append (B F : Forest α) : (B.append F).ids = B.ids + F.ids := by
  induction B with
  | nil => exact (zero_add _).symm
  | cons r kids rest _ ih =>
    rw [append, ids, ids, ih, cons_add, add_assoc]

@[simp]
lemma tops_append (B F : Forest α) : (B.append F).tops = B.tops ++ F.tops := by
  induction B with
  | nil => rfl
  | cons r kids rest _ ih => rw [append, tops, tops, ih, List.cons_append]

lemma append_assoc (A B F : Forest α) : (A.append B).append F = A.append (B.append F) := by
  induction A with
  | nil => rfl
  | cons r kids rest _ ih => rw [append, append, append, ih]

lemma append_nil (F : Forest α) : F.append nil = F := by
  induction F with
  | nil => rfl
  | cons r kids rest _ ih => rw [append, ih]

lemma mem_ids_of_mem_tops (h : r ∈ F.tops) : r ∈ F.ids := by
  induction F with
  | nil => cases h
  | cons x kids rest _ ih =>
    rcases List.mem_cons.mp h with rfl | h
    · exact mem_cons_self _ _
    · exact mem_rest (ih h)

lemma lastLink_eq (p : Link α) (B : Forest α) :
    lastLink p B = p ∨ ∃ r ∈ B.tops, lastLink p B = .sibling r := by
  induction B generalizing p with
  | nil => exact .inl rfl
  | cons r kids rest _ ih =>
    right
    rcases ih (.sibling r) with h | ⟨x, hx, h⟩
    · exact ⟨r, List.mem_cons_self, h⟩
    · exact ⟨x, List.mem_cons_of_mem r hx, h⟩

lemma lastLink_append (p : Link α) (A B : Forest α) :
    lastLink p (A.append B) = lastLink (lastLink p A) B := by
  induction A generalizing p with
  | nil => rfl
  | cons r kids rest _ ih => exact ih _

lemma At.mem (h : At T P K) : P ∈ T.ids := by
  induction h with
  | here => exact mem_cons_self _ _
  | under _ ih => exact mem_kids ih
  | behind _ ih => exact mem_rest ih

lemma exists_at (h : P ∈ T.ids) : ∃ K, At T P K := by
  induction T with
  | nil => cases h
  | cons r kids rest ihk ihr =>
    rcases mem_cons.mp h with rfl | h
    · exact ⟨kids, .here⟩
    · rcases mem_add.mp h with h | h
      · obtain ⟨K, hK⟩ := ihk h
        exact ⟨K, .under hK⟩
      · obtain ⟨K, hK⟩ := ihr h
        exact ⟨K, .behind hK⟩

section

variable (h : At T P K)

include h

lemma At.trans {Q : α} (hk : At K Q k) : At T Q k := by
  induction h with
  | here => exact .under hk
  | under _ ih => exact .under (ih hk)
  | behind _ ih => exact .behind (ih hk)

lemma At.cons_le : P ::ₘ K.ids ≤ T.ids := by
  induction h with
  | here => exact cons_le_cons _ (le_add_right _ _)
  | under _ ih => exact (ih.trans (le_add_right _ _)).trans (le_cons_self _ _)
  | behind _ ih => exact (ih.trans (le_add_left _ _)).trans (le_cons_self _ _)

lemma At.nodup (hnodup : T.ids.Nodup) : K.ids.Nodup :=
  (Multiset.nodup_cons.mp (nodup_of_le h.cons_le hnodup)).2

lemma At.subset (hr : r ∈ K.ids) : r ∈ T.ids :=
  mem_of_le h.cons_le (mem_cons_of_mem hr)

end

/-- What a forest without repetitions says about the parts of its first tree. -/
lemma nodup_cons {kids rest : Forest α} (h : (cons r kids rest).ids.Nodup) :
    r ∉ kids.ids ∧ r ∉ rest.ids ∧ kids.ids.Nodup ∧ rest.ids.Nodup ∧
      Disjoint kids.ids rest.ids := by
  obtain ⟨hr, hnodup⟩ := Multiset.nodup_cons.mp h
  obtain ⟨hkids, hrest, hdisj⟩ := nodup_add.mp hnodup
  rw [mem_add, not_or] at hr
  exact ⟨hr.1, hr.2, hkids, hrest, hdisj⟩

section SetKids

variable [DecidableEq α] {K' : Forest α}

lemma setKids_of_notMem (h : P ∉ T.ids) : T.setKids P K' = T := by
  induction T with
  | nil => rfl
  | cons r kids rest ihk ihr =>
    rw [ids, mem_cons, mem_add, not_or, not_or] at h
    rw [setKids, if_neg (fun heq => h.1 heq.symm), ihk h.2.1, ihr h.2.2]

lemma setKids_here {kids rest : Forest α} :
    (cons P kids rest).setKids P K' = cons P K' rest := by
  rw [setKids, if_pos rfl]

lemma setKids_below {kids rest : Forest α} (h : At kids P K)
    (hnodup : (cons r kids rest).ids.Nodup) :
    (cons r kids rest).setKids P K' = cons r (kids.setKids P K') rest := by
  obtain ⟨hr, -, -, -, hdisj⟩ := nodup_cons hnodup
  have hne : r ≠ P := fun heq => hr (heq ▸ h.mem)
  rw [setKids, if_neg hne, setKids_of_notMem (disjoint_left.mp hdisj h.mem)]

lemma setKids_behind {kids rest : Forest α} (h : At rest P K)
    (hnodup : (cons r kids rest).ids.Nodup) :
    (cons r kids rest).setKids P K' = cons r kids (rest.setKids P K') := by
  obtain ⟨-, hr, -, -, hdisj⟩ := nodup_cons hnodup
  have hne : r ≠ P := fun heq => hr (heq ▸ h.mem)
  rw [setKids, if_neg hne, setKids_of_notMem (disjoint_right.mp hdisj h.mem)]

lemma setKids_self (h : At T P K) (hnodup : T.ids.Nodup) : T.setKids P K = T := by
  induction h with
  | here => exact setKids_here
  | under hbelow ih => rw [setKids_below hbelow hnodup, ih (nodup_cons hnodup).2.2.1]
  | behind hbehind ih => rw [setKids_behind hbehind hnodup, ih (nodup_cons hnodup).2.2.2.1]

lemma ids_setKids (h : At T P K) (hnodup : T.ids.Nodup) :
    (T.setKids P K').ids + K.ids = T.ids + K'.ids := by
  induction h with
  | here =>
    rw [setKids_here]
    simp only [ids, cons_add]
    abel_nf
  | under hbelow ih =>
    obtain ⟨-, -, hkids, -, -⟩ := nodup_cons hnodup
    have heq := ih hkids
    rw [setKids_below hbelow hnodup]
    simp only [ids, cons_add]
    rw [add_right_comm, heq]
    abel_nf
  | behind hbehind ih =>
    obtain ⟨-, -, -, hrest, -⟩ := nodup_cons hnodup
    have heq := ih hrest
    rw [setKids_behind hbehind hnodup]
    simp only [ids, cons_add]
    rw [add_assoc, heq]
    abel_nf

end SetKids

end Forest

open Forest

/-! ### The forest that the pointers represent -/

/-- The pointer `p` leads to the trees of a forest, whose roots have the given parent. -/
def Rep (m : Ptrs α) (parent : Option α) : Option α → Forest α → Prop
  | p, .nil => p = none
  | p, .cons r kids rest => p = some r ∧ m.parent r = parent ∧
      Rep m (some r) (m.child r) kids ∧ Rep m parent (m.sibling r) rest

variable {m m' : Ptrs α} {par par' p : Option α} {T F F' B K K' : Forest α} {P r : α} {q : Link α}

lemma Rep.congr (h : Rep m par p F)
    (hlink : ∀ q : Link α, q.owner ∈ F.ids → m'.get q = m.get q)
    (hparent : ∀ r ∈ F.ids, m'.parent r = m.parent r) : Rep m' par p F := by
  induction F generalizing par p with
  | nil => exact h
  | cons r kids rest ihk ihr =>
    obtain ⟨hp, hpar, hkids, hrest⟩ := h
    have hr : r ∈ (cons r kids rest).ids := mem_cons_self _ _
    refine ⟨hp, (hparent r hr).trans hpar, ?_, ?_⟩
    · have hchild : m'.child r = m.child r := hlink (.child r) hr
      rw [hchild]
      exact ihk hkids (fun q hq => hlink q (mem_kids hq)) fun x hx => hparent x (mem_kids hx)
    · have hsibling : m'.sibling r = m.sibling r := hlink (.sibling r) hr
      rw [hsibling]
      exact ihr hrest (fun q hq => hlink q (mem_rest hq)) fun x hx => hparent x (mem_rest hx)

lemma Rep.at (h : Rep m par p T) (hat : At T P K) : Rep m (some P) (m.child P) K := by
  induction hat generalizing par p with
  | here => exact h.2.2.1
  | under _ ih => exact ih h.2.2.1
  | behind _ ih => exact ih h.2.2.2

lemma Rep.parent_of_mem_tops (h : Rep m par p F) (hr : r ∈ F.tops) : m.parent r = par := by
  induction F generalizing p with
  | nil => cases hr
  | cons x kids rest _ ih =>
    rcases List.mem_cons.mp hr with rfl | hr
    · exact h.2.1
    · exact ih h.2.2.2 hr

/-- The pointer behind some siblings leads to the rest of them. -/
lemma Rep.of_append (h : Rep m par (m.get q) (B.append F)) :
    Rep m par (m.get (lastLink q B)) F := by
  induction B generalizing q with
  | nil => exact h
  | cons r kids rest _ ih => exact ih (q := .sibling r) h.2.2.2

/-- Redirecting the pointer behind some siblings: the rest is replaced by what it leads to now. -/
lemma Rep.splice (h : Rep m par (m.get q) (B.append F)) (hnodup : B.ids.Nodup)
    (hq : q.owner ∉ B.ids)
    (hlink : ∀ x : Link α, x ≠ lastLink q B → x = q ∨ x.owner ∈ B.ids → m'.get x = m.get x)
    (hparent : ∀ r ∈ B.ids, m'.parent r = m.parent r)
    (hF' : Rep m' par (m'.get (lastLink q B)) F') : Rep m' par (m'.get q) (B.append F') := by
  induction B generalizing q with
  | nil => exact hF'
  | cons r kids rest _ ih =>
    obtain ⟨hr, hrpar, hkids, hrest⟩ := h
    obtain ⟨hrk, hrr, hnk, hnr, hdisj⟩ := nodup_cons hnodup
    rw [ids, mem_cons, mem_add, not_or, not_or] at hq
    -- the redirected pointer is the sibling pointer of a root
    obtain ⟨x, hxB, hlast⟩ : ∃ x, (x = r ∨ x ∈ rest.ids) ∧
        lastLink q (cons r kids rest) = .sibling x := by
      rcases lastLink_eq (.sibling r) rest with h | ⟨x, hx, h⟩
      · exact ⟨r, .inl rfl, h⟩
      · exact ⟨x, .inr (mem_ids_of_mem_tops hx), h⟩
    have hself : r ∈ (cons r kids rest).ids := mem_cons_self _ _
    refine ⟨?_, ?_, ?_, ?_⟩
    · rw [hlink q ?_ (.inl rfl), hr]
      rw [hlast]
      rintro rfl
      rcases hxB with heq | hin
      · exact hq.1 heq
      · exact hq.2.2 hin
    · rw [hparent r hself, hrpar]
    · have hchild : m'.child r = m.child r :=
        hlink (.child r) (by rw [hlast]; nofun) (.inr hself)
      rw [hchild]
      apply hkids.congr
      · intro y hy
        apply hlink y ?_ (.inr (mem_kids hy))
        rw [hlast]
        rintro rfl
        rcases hxB with rfl | hin
        · exact hrk hy
        · exact disjoint_left.mp hdisj hy hin
      · intro y hy
        exact hparent y (mem_kids hy)
    · apply ih (q := .sibling r) hrest hnr hrr ?_ ?_ hF'
      · intro y hne hy
        apply hlink y hne
        rcases hy with rfl | hy
        · exact .inr hself
        · exact .inr (mem_rest hy)
      · intro y hy
        exact hparent y (mem_rest hy)

/-- Giving the roots of a forest another parent. -/
lemma Rep.reparent (h : Rep m par p F) (hnodup : F.ids.Nodup)
    (hlink : ∀ q : Link α, q.owner ∈ F.ids → m'.get q = m.get q)
    (htops : ∀ r ∈ F.tops, m'.parent r = par')
    (hparent : ∀ r ∈ F.ids, r ∉ F.tops → m'.parent r = m.parent r) : Rep m' par' p F := by
  induction F generalizing p with
  | nil => exact h
  | cons r kids rest _ ih =>
    obtain ⟨hp, -, hkids, hrest⟩ := h
    obtain ⟨hrk, hrr, -, hnr, hdisj⟩ := nodup_cons hnodup
    have hself : r ∈ (cons r kids rest).ids := mem_cons_self _ _
    refine ⟨hp, htops r List.mem_cons_self, ?_, ?_⟩
    · have hchild : m'.child r = m.child r := hlink (.child r) hself
      rw [hchild]
      apply hkids.congr
      · exact fun q hq => hlink q (mem_kids hq)
      · intro y hy
        apply hparent y (mem_kids hy)
        intro htop
        rcases List.mem_cons.mp htop with rfl | htop
        · exact hrk hy
        · exact disjoint_left.mp hdisj hy (mem_ids_of_mem_tops htop)
    · have hsibling : m'.sibling r = m.sibling r := hlink (.sibling r) hself
      rw [hsibling]
      apply ih hrest hnr
      · exact fun q hq => hlink q (mem_rest hq)
      · exact fun y hy => htops y (List.mem_cons_of_mem r hy)
      · intro y hy hnot
        apply hparent y (mem_rest hy)
        intro htop
        rcases List.mem_cons.mp htop with rfl | htop
        · exact hrr hy
        · exact hnot htop

section Kids

variable (hlink : ∀ q : Link α, q.owner ∈ T.ids → q.owner ∉ K.ids → q ≠ .child P →
    m'.get q = m.get q)
  (hparent : ∀ r ∈ T.ids, r ∉ K.ids → m'.parent r = m.parent r)

include hlink hparent

/-- The trees that do not have the node stay. -/
lemma Rep.frame (h : Rep m par p F) (hsub : ∀ r ∈ F.ids, r ∈ T.ids ∧ r ∉ K.ids)
    (hP : P ∉ F.ids) : Rep m' par p F := by
  refine h.congr (fun q hq => ?_) fun r hr => hparent r (hsub r hr).1 (hsub r hr).2
  apply hlink q (hsub _ hq).1 (hsub _ hq).2
  rintro rfl
  exact hP hq

/-- The first tree of a forest that has the node below or behind its root. -/
lemma Rep.top {kids rest kids' rest' : Forest α} (h : Rep m par p (cons r kids rest))
    (hr : r ∈ T.ids) (hrK : r ∉ K.ids) (hne : r ≠ P) (hkids : Rep m' (some r) (m.child r) kids')
    (hrest : Rep m' par (m.sibling r) rest') : Rep m' par p (cons r kids' rest') := by
  have hchild : m'.child r = m.child r :=
    hlink (.child r) hr hrK fun heq => hne (Link.child.inj heq)
  have hsibling : m'.sibling r = m.sibling r := hlink (.sibling r) hr hrK nofun
  exact ⟨h.1, (hparent r hr hrK).trans h.2.1, hchild ▸ hkids, hsibling ▸ hrest⟩

/-- Changing the children of one node changes the whole tree there and nowhere else. -/
lemma Rep.setKids [DecidableEq α] (h : Rep m par p T) (hat : At T P K) (hnodup : T.ids.Nodup)
    (hK' : Rep m' (some P) (m'.child P) K') : Rep m' par p (T.setKids P K') := by
  induction hat generalizing par p with
  | @here P kids rest =>
    obtain ⟨hp, hpar, hkids, hrest⟩ := h
    obtain ⟨hrk, hrr, -, -, hdisj⟩ := nodup_cons hnodup
    have hself : P ∈ (cons P kids rest).ids := mem_cons_self _ _
    rw [setKids_here]
    refine ⟨hp, (hparent P hself hrk).trans hpar, hK', ?_⟩
    have hsibling : m'.sibling P = m.sibling P := hlink (.sibling P) hself hrk nofun
    rw [hsibling]
    exact hrest.frame hlink hparent
      (fun y hy => ⟨mem_rest hy, disjoint_right.mp hdisj hy⟩) hrr
  | @under r P kids rest K hbelow ih =>
    obtain ⟨hrk, hrr, hnk, -, hdisj⟩ := nodup_cons hnodup
    have hne : r ≠ P := fun heq => hrk (heq ▸ hbelow.mem)
    rw [setKids_below hbelow hnodup]
    refine h.top hlink hparent (mem_cons_self _ _) (fun hr => hrk (hbelow.subset hr)) hne ?_ ?_
    · exact ih (fun q hq => hlink q (mem_kids hq)) (fun y hy => hparent y (mem_kids hy)) h.2.2.1
        hnk hK'
    · refine h.2.2.2.frame hlink hparent (fun y hy => ⟨mem_rest hy, fun hyK => ?_⟩)
        (disjoint_left.mp hdisj hbelow.mem)
      exact disjoint_left.mp hdisj (hbelow.subset hyK) hy
  | @behind r P kids rest K hbehind ih =>
    obtain ⟨hrk, hrr, -, hnr, hdisj⟩ := nodup_cons hnodup
    have hne : r ≠ P := fun heq => hrr (heq ▸ hbehind.mem)
    rw [setKids_behind hbehind hnodup]
    refine h.top hlink hparent (mem_cons_self _ _) (fun hr => hrr (hbehind.subset hr)) hne ?_ ?_
    · refine h.2.2.1.frame hlink hparent (fun y hy => ⟨mem_kids hy, fun hyK => ?_⟩)
        (disjoint_right.mp hdisj hbehind.mem)
      exact disjoint_left.mp hdisj hy (hbehind.subset hyK)
    · exact ih (fun q hq => hlink q (mem_rest hq)) (fun y hy => hparent y (mem_rest hy)) h.2.2.2
        hnr hK'

end Kids

end R0Kernel.ChildSibling
