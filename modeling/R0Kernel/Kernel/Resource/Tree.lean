import R0Kernel.Kernel.Resource.Model

/-!
# Changes to well-formed resource trees

How the order of the siblings and the pointers change when resources are put in front of, taken
out of, or gathered below one another; and that a change of the children of one resource that
keeps them well formed keeps the whole tree well formed.
-/

namespace R0Kernel.Resource

open ChildSibling Forest Multiset Ptrs

variable {h h' : Heap} {lo lo' hi hi' : Nat} {A B C F K K' N R T : Forest Id} {P new r root : Id}
  {x p : Link Id} {tmp : Option Id}

/-! ### Order -/

section

variable (ho : Ordered h lo hi F)

include ho

lemma Ordered.congr (hsame : ∀ r ∈ F.ids, h'.start r = h.start r ∧ h'.end_ r = h.end_ r) :
    Ordered h' lo hi F := by
  induction F generalizing lo hi with
  | nil => trivial
  | cons r kids rest ihk ihr =>
    obtain ⟨hstart, hend⟩ := hsame r (mem_cons_self _ _)
    rw [Ordered, hstart, hend]
    obtain ⟨hlo, hle, hhi, hkids, hrest⟩ := ho
    refine ⟨hlo, hle, hhi, ?_, ?_⟩
    · exact ihk hkids fun x hx => hsame x (mem_kids hx)
    · exact ihr hrest fun x hx => hsame x (mem_rest hx)

lemma Ordered.lower (hlo : ∀ r ∈ F.tops.head?, lo' ≤ h.start r) :
    Ordered h lo' hi F := by
  cases F with
  | nil => trivial
  | cons r kids rest => exact ⟨hlo r rfl, ho.2⟩

lemma Ordered.upper (hhi : ∀ r ∈ F.tops, h.end_ r ≤ hi') :
    Ordered h lo hi' F := by
  induction F generalizing lo with
  | nil => trivial
  | cons r kids rest _ ih =>
    obtain ⟨hlo, hle, -, hkids, hrest⟩ := ho
    refine ⟨hlo, hle, hhi r List.mem_cons_self, hkids, ih hrest ?_⟩
    exact fun x hx => hhi x (List.mem_cons_of_mem r hx)

lemma Ordered.le_start (hr : r ∈ F.tops) :
    lo ≤ h.start r ∧ h.start r ≤ h.end_ r ∧ h.end_ r ≤ hi := by
  induction F generalizing lo with
  | nil => cases hr
  | cons x kids rest _ ih =>
    obtain ⟨hlo, hle, hhi, -, hrest⟩ := ho
    rcases List.mem_cons.mp hr with rfl | hr
    · exact ⟨hlo, hle, hhi⟩
    · obtain ⟨hlo', hle', hhi'⟩ := ih hrest hr
      exact ⟨by omega, hle', hhi'⟩

end

lemma Ordered.at (ho : Ordered h lo hi T) (hat : At T P K) :
    h.start P ≤ h.end_ P ∧ Ordered h (h.start P) (h.end_ P) K := by
  induction hat generalizing lo hi with
  | here => exact ⟨ho.2.1, ho.2.2.2.1⟩
  | under _ ih => exact ih ho.2.2.2.1
  | behind _ ih => exact ih ho.2.2.2.2

/-- A change of the children of one node that keeps them ordered keeps the order everywhere. -/
lemma Ordered.setKids (ho : Ordered h lo hi T) (hat : At T P K) (hnodup : T.ids.Nodup)
    (hsame : ∀ r ∈ T.ids, r ∉ K.ids → h'.start r = h.start r ∧ h'.end_ r = h.end_ r)
    (hK' : Ordered h' (h.start P) (h.end_ P) K') : Ordered h' lo hi (T.setKids P K') := by
  induction hat generalizing lo hi with
  | here =>
    obtain ⟨hr, -, -, -, hdisj⟩ := nodup_cons hnodup
    obtain ⟨hlo, hle, hhi, -, hrest⟩ := ho
    obtain ⟨hstart, hend⟩ := hsame _ (mem_cons_self _ _) hr
    rw [setKids_here, Ordered, hstart, hend]
    refine ⟨hlo, hle, hhi, hK', hrest.congr fun x hx => ?_⟩
    exact hsame x (mem_rest hx) (disjoint_right.mp hdisj hx)
  | under hunder ih =>
    obtain ⟨hr, -, hnk, -, hdisj⟩ := nodup_cons hnodup
    obtain ⟨hlo, hle, hhi, hkids, hrest⟩ := ho
    obtain ⟨hstart, hend⟩ := hsame _ (mem_cons_self _ _) fun hmem => hr (hunder.subset hmem)
    rw [setKids_below hunder hnodup, Ordered, hstart, hend]
    refine ⟨hlo, hle, hhi, ih hkids hnk (fun x hx => hsame x (mem_kids hx)) hK', ?_⟩
    apply hrest.congr
    intro x hx
    exact hsame x (mem_rest hx) fun hmem => disjoint_left.mp hdisj (hunder.subset hmem) hx
  | behind hbehind ih =>
    obtain ⟨-, hr, -, hnr, hdisj⟩ := nodup_cons hnodup
    obtain ⟨hlo, hle, hhi, hkids, hrest⟩ := ho
    obtain ⟨hstart, hend⟩ := hsame _ (mem_cons_self _ _) fun hmem => hr (hbehind.subset hmem)
    rw [setKids_behind hbehind hnodup, Ordered, hstart, hend]
    refine ⟨hlo, hle, hhi, ?_, ih hrest hnr (fun x hx => hsame x (mem_rest hx)) hK'⟩
    apply hkids.congr
    intro x hx
    exact hsame x (mem_kids hx) fun hmem => disjoint_left.mp hdisj hx (hbehind.subset hmem)

/-- A node goes in between the siblings that end before it and those that start behind it. -/
lemma Ordered.insert (ho : Ordered h lo hi (A.append C)) (hlo : lo ≤ h.start new)
    (hle : h.start new ≤ h.end_ new) (hhi : h.end_ new ≤ hi)
    (hA : ∀ a ∈ A.tops, h.end_ a < h.start new) (hC : ∀ c ∈ C.tops.head?, h.end_ new < h.start c)
    (hN : Ordered h (h.start new) (h.end_ new) N) :
    Ordered h lo hi (A.append (cons new N C)) := by
  induction A generalizing lo with
  | nil => exact ⟨hlo, hle, hhi, hN, ho.lower hC⟩
  | cons a kids rest _ ih =>
    obtain ⟨hlo', hle', hhi', hkids, hrest⟩ := ho
    refine ⟨hlo', hle', hhi', hkids, ih hrest ?_ ?_⟩
    · exact hA a List.mem_cons_self
    · exact fun x hx => hA x (List.mem_cons_of_mem a hx)

lemma Ordered.remove (ho : Ordered h lo hi (A.append (R.append C))) :
    Ordered h lo hi (A.append C) := by
  induction A generalizing lo with
  | nil =>
    induction R generalizing lo with
    | nil => exact ho
    | cons r kids rest _ ih =>
      have hrest := ih ho.2.2.2.2
      apply hrest.lower
      intro x hx
      have hge := (hrest.le_start (List.mem_of_mem_head? hx)).1
      obtain ⟨hlo, hle, -⟩ := ho
      omega
  | cons a kids rest _ ih =>
    obtain ⟨hlo, hle, hhi, hkids, hrest⟩ := ho
    exact ⟨hlo, hle, hhi, hkids, ih hrest⟩

lemma Ordered.append_right (ho : Ordered h lo hi (A.append F)) :
    ∃ lo', Ordered h lo' hi F := by
  induction A generalizing lo with
  | nil => exact ⟨lo, ho⟩
  | cons a kids rest _ ih => exact ih ho.2.2.2.2

lemma Ordered.append_left (ho : Ordered h lo hi (A.append F)) : Ordered h lo hi A := by
  have hgone := (show Ordered h lo hi (A.append (F.append .nil)) by rwa [append_nil]).remove
  rwa [append_nil] at hgone

/-- Siblings that lie inside a range are ordered inside it. -/
lemma Ordered.middle (ho : Ordered h lo hi (A.append (R.append C)))
    (hin : ∀ r ∈ R.tops, lo' ≤ h.start r ∧ h.end_ r ≤ hi') : Ordered h lo' hi' R := by
  obtain ⟨l, hR⟩ := ho.append_right
  refine (hR.append_left.upper fun r hr => (hin r hr).2).lower ?_
  exact fun r hr => (hin r (List.mem_of_mem_head? hr)).1

/-! ### Pointers -/

lemma rep_head {m : Ptrs Id} {par p : Option Id} (hrep : Rep m par p F) : p = F.tops.head? := by
  cases F with
  | nil => exact hrep
  | cons r kids rest => exact hrep.1

/-- The place behind some children is in the parent or in one of the children. -/
lemma lastLink_child (P : Id) (A : Forest Id) :
    lastLink (.child P) A = .child P ∨ ∃ a ∈ A.ids, lastLink (.child P) A = .sibling a := by
  rcases lastLink_eq (.child P) A with h | ⟨a, ha, h⟩
  · exact .inl h
  · exact .inr ⟨a, mem_ids_of_mem_tops ha, h⟩

lemma owner_lastLink (P : Id) (A : Forest Id) :
    (lastLink (.child P) A).owner ∈ P ::ₘ A.ids := by
  rcases lastLink_child P A with h | ⟨a, ha, h⟩
  · rw [h]
    exact mem_cons_self _ _
  · rw [h]
    exact mem_cons_of_mem ha

/-- A link whose owner is elsewhere is not the place behind the children `A` of `P`. -/
lemma ne_lastLink (hP : x ≠ .child P) (hA : x.owner ∉ A.ids) :
    x ≠ lastLink (.child P) A := by
  rcases lastLink_child P A with h | ⟨a, ha, h⟩
  · rw [h]
    exact hP
  · rw [h]
    rintro rfl
    exact hA ha

section

variable (p : Link Id) (tmp : Option Id) (new root : Id)

lemma link_get_self :
    (h.link p tmp new root).ptrs.get p = some new := by
  rw [Heap.link]
  rw [get_setParent, get_set_self]

end

lemma link_get_of_ne (hp : x ≠ p) (hx : x ≠ .sibling new) :
    (h.link p tmp new root).ptrs.get x = h.ptrs.get x := by
  rw [Heap.link]
  rw [get_setParent, get_set_of_ne _ _ hp, get_set_of_ne _ _ hx]

lemma link_sibling (hp : Link.sibling new ≠ p) :
    (h.link p tmp new root).ptrs.sibling new = tmp := by
  change (h.link p tmp new root).ptrs.get (.sibling new) = tmp
  rw [Heap.link]
  rw [get_setParent, get_set_of_ne _ _ hp, get_set_self]

lemma link_parent_of_ne (hr : r ≠ new) :
    (h.link p tmp new root).ptrs.parent r = h.ptrs.parent r := by
  rw [Heap.link]
  rw [setParent_of_ne _ _ hr, set_parent, set_parent]

end R0Kernel.Resource
