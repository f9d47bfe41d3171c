import R0Kernel.Kernel.Resource.Tree

/-!
# Requesting and releasing resources

What `__request_resource` does below one node of a well-formed tree: it refuses a range that does
not fit the node, links the new resource at its place, or finds the first child in the way.
-/

namespace R0Kernel.Resource

open ChildSibling Forest Multiset

variable {h h' : Heap} {A C F F' K K' N T : Forest Id} {P new old r root : Id} {fuel : Nat}
  {X : Multiset Id} {par : Option Id} {q : Link Id}

/-! ### Whole trees -/

lemma tops_setKids (T : Forest Id) (P : Id) (K' : Forest Id) :
    (T.setKids P K').tops = T.tops := by
  induction T with
  | nil => rfl
  | cons r kids rest _ ih =>
    rw [setKids]
    split
    next => rfl
    next => rw [tops, tops, ih]

/-- What a tree without repetitions says about the children of a node in two parts. -/
lemma at_append (hat : At T P (A.append F)) (hT : T.ids.Nodup) :
    (∀ r ∈ P ::ₘ A.ids, r ∈ T.ids ∧ r ∉ F.ids) ∧ (∀ r ∈ F.ids, r ∈ T.ids) ∧
      (P ::ₘ A.ids).Nodup ∧ F.ids.Nodup := by
  have hle := hat.cons_le
  rw [ids_append, ← cons_add] at hle
  obtain ⟨hPA, hF, hdisj⟩ := nodup_add.mp (nodup_of_le hle hT)
  refine ⟨fun r hr => ⟨?_, disjoint_left.mp hdisj hr⟩, ?_, hPA, hF⟩
  · exact mem_of_le hle (mem_add.mpr (.inl hr))
  · exact fun r hr => mem_of_le hle (mem_add.mpr (.inr hr))

lemma ne_lastLink_of_mem (hat : At T P (A.append F)) (hT : T.ids.Nodup) {x : Link Id}
    (hx : x.owner ∈ F.ids) : x ≠ lastLink (.child P) A := by
  rintro rfl
  exact ((at_append hat hT).1 _ (owner_lastLink P A)).2 hx

/-- Redirecting the pointer behind some children of one node keeps the tree well formed, if all the
children are well formed with what it leads to now. -/
lemma WellFormed.splice {m : Ptrs Id} (hwf : WellFormed h root T) (hat : At T P (A.append F))
    (hlink : ∀ x : Link Id, x.owner ∈ T.ids → x.owner ∉ F.ids → x ≠ lastLink (.child P) A →
      m.get x = h.ptrs.get x)
    (hparent : ∀ r ∈ T.ids, r ∉ F.ids → m.parent r = h.ptrs.parent r)
    (hrep : Rep m (some P) (m.get (lastLink (.child P) A)) F')
    (hord : Ordered h (h.start P) (h.end_ P) (A.append F'))
    (hids : (T.setKids P (A.append F')).ids.Nodup) :
    WellFormed { h with ptrs := m } root (T.setKids P (A.append F')) := by
  obtain ⟨hin, -, hPA, -⟩ := at_append hat hwf.nodup
  obtain ⟨hP, hA⟩ := nodup_cons.mp hPA
  have hout : ∀ r, r ∉ (A.append F).ids → r ∉ A.ids ∧ r ∉ F.ids := by
    intro r hr
    rwa [ids_append, mem_add, not_or] at hr
  refine ⟨?_, by rw [tops_setKids, hwf.tops], hids, ?_⟩
  · apply hwf.rep.setKids ?_ ?_ hat hwf.nodup
    · apply (hwf.rep.at hat).splice (q := .child P) hA hP ?_ ?_ hrep
      · intro x hlast hx
        have hmem : x.owner ∈ P ::ₘ A.ids := by
          rcases hx with rfl | hx
          · exact mem_cons_self _ _
          · exact mem_cons_of_mem hx
        exact hlink x (hin _ hmem).1 (hin _ hmem).2 hlast
      · intro r hr
        have hmem : r ∈ P ::ₘ A.ids := mem_cons_of_mem hr
        exact hparent r (hin r hmem).1 (hin r hmem).2
    · intro x hx hK hP
      exact hlink x hx (hout _ hK).2 (ne_lastLink hP (hout _ hK).1)
    · exact fun r hr hK => hparent r hr (hout r hK).2
  · apply hwf.ordered.setKids hat hwf.nodup
    · exact fun _ _ _ => ⟨rfl, rfl⟩
    · exact hord.congr fun _ _ => ⟨rfl, rfl⟩

/-- The tree with more nodes below one of its nodes. -/
lemma ids_setKids_add (hat : At T P K) (hnodup : T.ids.Nodup) (hK' : K'.ids = X + K.ids) :
    (T.setKids P K').ids = T.ids + X := by
  have heq : (T.setKids P K').ids + K.ids = T.ids + K'.ids := ids_setKids hat hnodup
  rw [hK', ← add_assoc] at heq
  exact add_right_cancel heq

/-- The tree with fewer nodes below one of its nodes. -/
lemma ids_setKids_sub (hat : At T P K) (hnodup : T.ids.Nodup) (hK : K.ids = X + K'.ids) :
    (T.setKids P K').ids + X = T.ids := by
  have heq : (T.setKids P K').ids + K.ids = T.ids + K'.ids := ids_setKids hat hnodup
  rw [hK, ← add_assoc] at heq
  exact add_right_cancel heq

/-! ### Requests -/

/-- The resource `new` is not in the tree, and its own children `N` are well formed. -/
structure Fresh (h : Heap) (T : Forest Id) (new : Id) (N : Forest Id) : Prop where
  rep : Rep h.ptrs (some new) (h.ptrs.child new) N
  nodup : (T.ids + (new ::ₘ N.ids)).Nodup
  ordered : Ordered h (h.start new) (h.end_ new) N

lemma fresh_of_childless (hnodup : T.ids.Nodup) (hnew : new ∉ T.ids)
    (hchild : h.ptrs.child new = none) : Fresh h T new .nil := by
  refine ⟨hchild, ?_, trivial⟩
  rw [add_comm]
  exact nodup_cons.mpr ⟨hnew, hnodup⟩

/-- `new` is a range inside `P`. -/
def Fits (h : Heap) (P new : Id) : Prop :=
  h.start P ≤ h.start new ∧ h.start new ≤ h.end_ new ∧ h.end_ new ≤ h.end_ P

/-- The two ranges have a common address. -/
def Overlaps (h : Heap) (c new : Id) : Prop :=
  h.start c ≤ h.end_ new ∧ h.start new ≤ h.end_ c

/-- What the loop of `__request_resource` finds among the siblings from the place `q` on. -/
lemma requestLoop_spec (root new : Id) (hrep : Rep h.ptrs par (h.ptrs.get q) F)
    (hfuel : F.tops.length < fuel) :
    ∃ A C, F = A.append C ∧ (∀ a ∈ A.tops, h.end_ a < h.start new) ∧
      ((requestLoop h root new fuel q =
          some (h.link (lastLink q A) C.tops.head? new root, none) ∧
          ∀ c ∈ C.tops.head?, h.end_ new < h.start c) ∨
        ∃ c k C', C = cons c k C' ∧ requestLoop h root new fuel q = some (h, some c) ∧
          Overlaps h c new) := by
  induction F generalizing q fuel with
  | nil =>
    obtain _ | fuel := fuel
    · omega
    refine ⟨.nil, .nil, rfl, nofun, .inl ⟨?_, nofun⟩⟩
    have hnone : h.get q = none := hrep
    rw [requestLoop, hnone]
    rfl
  | cons tmp kids rest _ ih =>
    obtain _ | fuel := fuel
    · omega
    have htmp : h.get q = some tmp := hrep.1
    rw [requestLoop, htmp]
    dsimp only
    split
    next hbehind =>
      refine ⟨.nil, cons tmp kids rest, rfl, nofun, .inl ⟨rfl, ?_⟩⟩
      intro c hc
      cases hc
      exact hbehind
    next hfront =>
      split
      next hpast =>
        have hrest : rest.tops.length < fuel := Nat.lt_of_succ_lt_succ hfuel
        obtain ⟨A, C, hsplit, hA, hout⟩ := ih (q := .sibling tmp) hrep.2.2.2 hrest
        refine ⟨cons tmp kids A, C, by rw [hsplit]; rfl, ?_, hout⟩
        intro a ha
        rcases List.mem_cons.mp ha with rfl | ha
        · exact hpast
        · exact hA a ha
      next hhit =>
        refine ⟨.nil, cons tmp kids rest, rfl, nofun, .inr ⟨tmp, kids, rest, rfl, rfl, ?_⟩⟩
        exact ⟨not_lt.mp hfront, not_lt.mp hhit⟩

/-- What `__request_resource` does below the node `P` with the children `K`. -/
inductive Requested (h : Heap) (P new : Id) (K : Forest Id) : Heap × Option Id → Prop where
  | outside : ¬ Fits h P new → Requested h P new K (h, some P)
  | placed {A C : Forest Id} : Fits h P new → K = A.append C →
      (∀ a ∈ A.tops, h.end_ a < h.start new) → (∀ c ∈ C.tops.head?, h.end_ new < h.start c) →
      Requested h P new K (h.link (lastLink (.child P) A) C.tops.head? new P, none)
  | conflict {A C k : Forest Id} {c : Id} : Fits h P new → K = A.append (cons c k C) →
      (∀ a ∈ A.tops, h.end_ a < h.start new) → Overlaps h c new →
      Requested h P new K (h, some c)

lemma requestResource'_spec (new : Id) (hrep : Rep h.ptrs (some P) (h.ptrs.child P) K)
    (hfuel : K.tops.length < fuel) :
    ∃ r, requestResource' fuel h P new = some r ∧ Requested h P new K r := by
  unfold requestResource'
  split
  next hempty => exact ⟨_, rfl, .outside fun hfits => not_le.mpr hempty hfits.2.1⟩
  next hrange =>
    split
    next hlow => exact ⟨_, rfl, .outside fun hfits => not_le.mpr hlow hfits.1⟩
    next hstart =>
      split
      next hhigh => exact ⟨_, rfl, .outside fun hfits => not_le.mpr hhigh hfits.2.2⟩
      next hend =>
        have hfits : Fits h P new :=
          ⟨not_lt.mp hstart, not_lt.mp hrange, not_lt.mp hend⟩
        obtain ⟨A, C, hsplit, hA, ⟨hloop, hC⟩ | ⟨c, k, C', rfl, hloop, hover⟩⟩ :=
          requestLoop_spec P new (q := .child P) hrep hfuel
        · exact ⟨_, hloop, .placed hfits hsplit hA hC⟩
        · exact ⟨_, hloop, .conflict hfits hsplit hA hover⟩

lemma tops_length_le (F : Forest Id) : F.tops.length ≤ F.ids.card := by
  induction F with
  | nil => exact le_rfl
  | cons r kids rest _ ih =>
    rw [tops, ids, List.length_cons, card_cons, card_add]
    omega

lemma card_lt (hat : At T P K) : K.ids.card < T.ids.card := by
  have hcard := card_le_card hat.cons_le
  rwa [card_cons] at hcard

lemma tops_length_lt (hat : At T P K) : K.tops.length < T.ids.card :=
  (tops_length_le K).trans_lt (card_lt hat)

/-- A resource that was placed is in the tree, which is well formed. -/
lemma WellFormed.placed (hwf : WellFormed h root T) (hat : At T P (A.append C))
    (hfresh : Fresh h T new N) (hfits : Fits h P new) (hA : ∀ a ∈ A.tops, h.end_ a < h.start new)
    (hC : ∀ c ∈ C.tops.head?, h.end_ new < h.start c) :
    WellFormed (h.link (lastLink (.child P) A) C.tops.head? new P) root
      (T.setKids P (A.append (cons new N C))) := by
  obtain ⟨hin, hCT, -, -⟩ := at_append hat hwf.nodup
  obtain ⟨-, hN, hdisj⟩ := nodup_add.mp hfresh.nodup
  have hnewN : new ∉ N.ids := (nodup_cons.mp hN).1
  have hnewT : new ∉ T.ids := disjoint_right.mp hdisj (mem_cons_self _ _)
  have hlast : ∀ x : Link Id, x.owner ∉ T.ids → x ≠ lastLink (.child P) A := by
    rintro x hx rfl
    exact hx (hin _ (owner_lastLink P A)).1
  have hsibling : ∀ {x : Link Id} {F : Forest Id}, x.owner ∈ F.ids → new ∉ F.ids →
      x ≠ .sibling new := by
    rintro x F hx hnew rfl
    exact hnew hx
  have hids : (A.append (cons new N C)).ids = (new ::ₘ N.ids) + (A.append C).ids := by
    rw [ids_append, ids_append, ids, add_cons, cons_add]
    abel_nf
  apply hwf.splice (m := (h.link (lastLink (.child P) A) C.tops.head? new P).ptrs) hat
  · exact fun x hx _ hne => link_get_of_ne hne (hsibling hx hnewT)
  · exact fun r hr _ => link_parent_of_ne (ne_of_mem_of_not_mem hr hnewT)
  · -- the new node, its children and the siblings behind it
    refine ⟨link_get_self .., Ptrs.setParent_self .., ?_, ?_⟩
    · have hchild : (h.link (lastLink (.child P) A) C.tops.head? new P).ptrs.child new =
          h.ptrs.child new := link_get_of_ne (x := .child new) (hlast _ hnewT) (by simp)
      rw [hchild]
      apply hfresh.rep.congr
      · intro x hx
        apply link_get_of_ne (hlast x ?_) (hsibling hx hnewN)
        exact disjoint_right.mp hdisj (mem_cons_of_mem hx)
      · exact fun r hr => link_parent_of_ne (ne_of_mem_of_not_mem hr hnewN)
    · have htail := (hwf.rep.at hat).of_append (q := .child P)
      rw [link_sibling (hlast _ hnewT), ← rep_head htail]
      apply htail.congr
      · intro x hx
        exact link_get_of_ne (ne_lastLink_of_mem hat hwf.nodup hx) (hsibling (hCT _ hx) hnewT)
      · exact fun r hr => link_parent_of_ne (ne_of_mem_of_not_mem (hCT r hr) hnewT)
  · exact (hwf.ordered.at hat).2.insert hfits.1 hfits.2.1 hfits.2.2 hA hC hfresh.ordered
  · rw [ids_setKids_add hat hwf.nodup hids]
    exact hfresh.nodup

/-- `request_resource` below a node of a well-formed tree: it leaves a well-formed tree with the
new resource among the children of that node, or the heap as it was. -/
lemma requestResource_spec (hwf : WellFormed h root T) (hat : At T P K)
    (hfresh : Fresh h T new N) (hfuel : T.ids.card ≤ fuel) :
    ∃ h' r, requestResource fuel h P new = some (h', r) ∧
      ((r = 0 ∧ ∃ A C : Forest Id, K = A.append C ∧
          WellFormed h' root (T.setKids P (A.append (cons new N C)))) ∨
        (r ≠ 0 ∧ h' = h)) := by
  obtain ⟨out, hcall, hreq⟩ := requestResource'_spec new (hwf.rep.at hat)
    (lt_of_lt_of_le (tops_length_lt hat) hfuel)
  rw [requestResource, hcall]
  cases hreq with
  | outside _ => exact ⟨h, ebusy, rfl, .inr ⟨by decide, rfl⟩⟩
  | placed hfits hsplit hA hC =>
    subst hsplit
    exact ⟨_, _, rfl, .inl ⟨rfl, _, _, rfl, hwf.placed hat hfresh hfits hA hC⟩⟩
  | conflict _ _ _ _ => exact ⟨h, ebusy, rfl, .inr ⟨by decide, rfl⟩⟩

/-! ### Releases -/

lemma releaseLoop_spec (hrep : Rep h.ptrs par (h.ptrs.get q) (A.append (cons old K C)))
    (hold : old ∉ A.tops) (hfuel : A.tops.length < fuel) :
    releaseLoop h old fuel q = some ({ h.unlink (lastLink q A) old with
      ptrs := (h.unlink (lastLink q A) old).ptrs.setParent old none }, 0) := by
  induction A generalizing q fuel with
  | nil =>
    obtain _ | fuel := fuel
    · omega
    have hq : h.get q = some old := hrep.1
    rw [releaseLoop, hq]
    exact if_pos rfl
  | cons a kids rest _ ih =>
    obtain _ | fuel := fuel
    · omega
    have hq : h.get q = some a := hrep.1
    have hne : a ≠ old := fun heq => hold (heq ▸ List.mem_cons_self)
    rw [releaseLoop, hq]
    dsimp only
    rw [if_neg hne]
    apply ih (q := .sibling a) hrep.2.2.2
    · exact fun hmem => hold (List.mem_cons_of_mem a hmem)
    · exact Nat.lt_of_succ_lt_succ hfuel

section

variable (hwf : WellFormed h root T)

include hwf

/-- Taking a child of `P` with all that is below it out of a well-formed tree. -/
lemma WellFormed.unlinked (hat : At T P (A.append (cons old K C))) :
    WellFormed (h.unlink (lastLink (.child P) A) old) root (T.setKids P (A.append C)) := by
  have hids : (A.append (cons old K C)).ids = (old ::ₘ K.ids) + (A.append C).ids := by
    rw [ids_append, ids_append, ids, add_cons, cons_add]
    abel_nf
  have hsub := ids_setKids_sub hat hwf.nodup hids
  have htail := (hwf.rep.at hat).of_append (q := .child P)
  apply hwf.splice hat
  · exact fun x _ _ hlast => Ptrs.get_set_of_ne _ _ hlast
  · exact fun r _ _ => congrFun (Ptrs.set_parent ..) r
  · rw [Ptrs.get_set_self]
    apply htail.2.2.2.congr
    · intro x hx
      exact Ptrs.get_set_of_ne _ _ (ne_lastLink_of_mem hat hwf.nodup (mem_rest hx))
    · exact fun r _ => congrFun (Ptrs.set_parent ..) r
  · have hord := (hwf.ordered.at hat).2
    change Ordered h _ _ (A.append ((cons old K .nil).append C)) at hord
    exact hord.remove
  · exact nodup_of_le (le_add_right _ _) (hsub ▸ hwf.nodup)

lemma WellFormed.setParent {v : Option Id} (hold : old ∉ T.ids) :
    WellFormed { h with ptrs := h.ptrs.setParent old v } root T := by
  refine ⟨?_, hwf.tops, hwf.nodup, hwf.ordered.congr fun _ _ => ⟨rfl, rfl⟩⟩
  apply hwf.rep.congr
  · exact fun q _ => Ptrs.get_setParent ..
  · intro r hr
    apply Ptrs.setParent_of_ne
    rintro rfl
    exact hold hr

/-- `release_resource` of a childless resource below the root takes it out of the tree. -/
lemma releaseResource_spec (hat : At T P (A.append (cons old .nil C))) (hfuel : T.ids.card ≤ fuel) :
    ∃ h', releaseResource fuel h old = some (h', 0) ∧
      WellFormed h' root (T.setKids P (A.append C)) := by
  have hrep := hwf.rep.at hat
  have holdA : old ∉ A.ids := fun hA =>
    ((at_append hat hwf.nodup).1 old (mem_cons_of_mem hA)).2 (mem_cons_self _ _)
  have hparent : h.ptrs.parent old = some P := by
    apply hrep.parent_of_mem_tops
    rw [tops_append]
    exact List.mem_append_right _ List.mem_cons_self
  have hshort : A.tops.length < fuel := by
    have hlen := tops_length_lt hat
    rw [tops_append, List.length_append] at hlen
    omega
  have hcall : releaseResource fuel h old = some ({ h.unlink (lastLink (.child P) A) old with
      ptrs := (h.unlink (lastLink (.child P) A) old).ptrs.setParent old none }, 0) := by
    rw [releaseResource, hparent]
    exact releaseLoop_spec hrep (fun hmem => holdA (mem_ids_of_mem_tops hmem)) hshort
  refine ⟨_, hcall, (hwf.unlinked hat).setParent ?_⟩
  have hids : (A.append (cons old .nil C)).ids = {old} + (A.append C).ids := by
    rw [ids_append, ids_append, ids, add_cons]
    congr 1
    rw [ids, zero_add]
  have hsub := ids_setKids_sub hat hwf.nodup hids
  have hnd := hsub ▸ hwf.nodup
  exact fun hmem => disjoint_left.mp (nodup_add.mp hnd).2.2 hmem
    (mem_singleton_self old)

end

end R0Kernel.Resource
