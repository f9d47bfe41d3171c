import R0Kernel.Kernel.Resource.Region

/-!
# Adjusting a resource

`adjust_resource` moves the two ends of a resource that is in the tree. It compares the new ends
with the parent, the children and both neighbours, but not with one another: where
`start + size - 1` wraps around, or `size` is zero, it may leave a resource that ends before it
starts.
-/

namespace R0Kernel.Resource

open ChildSibling Forest Function Multiset List Option

variable {h h' : Heap} {lo hi start end_ : Nat} {A C F K T : Forest Id} {P r res root : Id}
  {w fuel : Nat}

/-! ### The code -/

/-- The loop over the children: do they all lie in the new range? -/
def withinLoop (h : Heap) (start end_ : Nat) : Nat → Option Id → Option Bool
  | _, none => some true
  | 0, some _ => none
  | fuel + 1, some tmp =>
    if h.start tmp < start ∨ end_ < h.end_ tmp then some false
    else withinLoop h start end_ fuel (h.ptrs.sibling tmp)

/-- `res->start = start; res->end = end` -/
def Heap.setRange (h : Heap) (res start end_ : Nat) : Heap :=
  { h with start := update h.start res start, end_ := update h.end_ res end_ }

/-- The test against the sibling before `res`, and the two writes. -/
def adjustBehind (fuel : Nat) (h : Heap) (parent res start end_ : Nat) : Option (Heap × Int) :=
  (h.ptrs.child parent).bind fun tmp =>
    if tmp = res then some (h.setRange res start end_, 0)
    else
      (beforeLoop h.ptrs res fuel tmp).map fun tmp =>
        if start ≤ h.end_ tmp then (h, ebusy) else (h.setRange res start end_, 0)

def adjustResource (w fuel : Nat) (h : Heap) (res start size : Nat) : Option (Heap × Int) :=
  (h.ptrs.parent res).bind fun parent =>
    let end_ := regionEnd w start size
    if start < h.start parent ∨ h.end_ parent < end_ then some (h, ebusy)
    else
      (withinLoop h start end_ fuel (h.ptrs.child res)).bind fun within =>
        if within = false then some (h, ebusy)
        else if (h.ptrs.sibling res).any (fun sibling => h.start sibling ≤ end_) then
          some (h, ebusy)
        else adjustBehind fuel h parent res start end_

/-! ### The tests -/

/-- The new range fits in between the neighbours of `res` among the children of `P`, and around its
own children `K`. -/
structure Accepted (h : Heap) (P : Id) (A K C : Forest Id) (start end_ : Nat) : Prop where
  low : h.start P ≤ start
  high : end_ ≤ h.end_ P
  kids : ∀ k ∈ K.tops, start ≤ h.start k ∧ h.end_ k ≤ end_
  next : ∀ c ∈ C.tops.head?, end_ < h.start c
  prev : ∀ a ∈ A.tops.getLast?, h.end_ a < start

lemma withinLoop_spec {par p : Option Id} (hrep : Rep h.ptrs par p F)
    (hfuel : F.tops.length ≤ fuel) :
    ∃ within, withinLoop h start end_ fuel p = some within ∧
      (within = true ↔ ∀ k ∈ F.tops, start ≤ h.start k ∧ h.end_ k ≤ end_) := by
  induction F generalizing p fuel with
  | nil =>
    have hp : p = none := hrep
    subst hp
    refine ⟨true, ?_, by simp [tops]⟩
    cases fuel <;> rfl
  | cons r kids rest _ ih =>
    obtain ⟨rfl, -, -, hrest⟩ := hrep
    obtain _ | fuel := fuel
    · cases hfuel
    simp only [withinLoop]
    split_ifs with hout
    · refine ⟨false, rfl, ?_⟩
      simp only [tops, List.forall_mem_cons]
      simp only [Bool.false_eq_true, false_iff]
      omega
    · obtain ⟨within, hloop, hiff⟩ := ih hrest (Nat.le_of_succ_le_succ hfuel)
      refine ⟨within, hloop, hiff.trans ?_⟩
      have hin : start ≤ h.start r ∧ h.end_ r ≤ end_ := by omega
      simp only [tops, List.forall_mem_cons, hin, true_and]

lemma lastLink_of_getLast? {q : Link Id} {a : Id} (ha : A.tops.getLast? = some a) :
    lastLink q A = .sibling a := by
  induction A generalizing q with
  | nil => cases ha
  | cons r kids rest _ ih =>
    cases rest with
    | nil =>
      obtain rfl := some.inj ha
      rfl
    | cons s ks rest =>
      rw [lastLink]
      apply ih
      rwa [tops] at ha

/-- Behind the last of some siblings is behind all of them. -/
lemma Ordered.end_lt_of_last (ho : Ordered h lo hi A) {x : Nat}
    (hlast : ∀ a ∈ A.tops.getLast?, h.end_ a < x) : ∀ a ∈ A.tops, h.end_ a < x := by
  induction A generalizing lo with
  | nil => exact nofun
  | cons r kids rest _ ih =>
    cases rest with
    | nil =>
      intro a ha
      rw [tops, tops, List.mem_singleton] at ha
      subst ha
      exact hlast a rfl
    | cons s ks rest =>
      have hrest := ih ho.2.2.2.2 fun a ha => hlast a (by rwa [tops])
      intro a ha
      rcases mem_cons.mp ha with rfl | ha
      · have hs := hrest s mem_cons_self
        obtain ⟨hlo, hle, -⟩ := ho.2.2.2.2
        omega
      · exact hrest a ha

/-- The last test, for a child of `P`. -/
lemma adjustBehind_cases (hrep : Rep h.ptrs (some P) (h.ptrs.child P) (A.append (cons res K C)))
    (hres : res ∉ A.tops) (hfuel : A.tops.length < fuel) :
    ((∀ a ∈ A.tops.getLast?, h.end_ a < start) ∧
      adjustBehind fuel h P res start end_ = some (h.setRange res start end_, 0)) ∨
    (¬(∀ a ∈ A.tops.getLast?, h.end_ a < start) ∧
      adjustBehind fuel h P res start end_ = some (h, ebusy)) := by
  have hhead := rep_head hrep
  cases A with
  | nil =>
    left
    refine ⟨nofun, ?_⟩
    have hfirst : h.ptrs.child P = some res := hhead
    rw [adjustBehind, hfirst, bind_some, if_pos rfl]
  | cons a k rest =>
    have hfirst : h.ptrs.child P = some a := hhead
    have hne : a ≠ res := fun heq => hres (heq ▸ mem_cons_self)
    rw [hfirst] at hrep
    obtain ⟨x, hbefore, hplace⟩ : ∃ x, beforeLoop h.ptrs res fuel a = some x ∧
        ∀ q, lastLink q (cons a k rest) = .sibling x :=
      beforeLoop_spec hrep rfl (fun hmem => hres (mem_cons_of_mem a hmem)) (fun _ _ => rfl)
        (Nat.lt_of_succ_lt hfuel)
    obtain ⟨y, hlast⟩ : ∃ y, (cons a k rest).tops.getLast? = some y :=
      ⟨_, getLast?_eq_some_getLast (cons_ne_nil _ _)⟩
    have hxy : y = x := by
      have hlink := lastLink_of_getLast? (q := .child P) hlast
      rw [hplace] at hlink
      exact (Link.sibling.inj hlink).symm
    subst hxy
    rw [adjustBehind, hfirst, bind_some, if_neg hne, hbefore, map_some, hlast]
    by_cases hprev : start ≤ h.end_ y
    · rw [if_pos hprev]
      exact .inr ⟨fun hall => not_le.mpr (hall y rfl) hprev, rfl⟩
    · rw [if_neg hprev]
      refine .inl ⟨?_, rfl⟩
      rintro z ⟨rfl⟩
      exact not_le.mp hprev

lemma adjustResource_cases (w start size : Nat) (hwf : WellFormed h root T)
    (hat : At T P (A.append (cons res K C))) (hfuel : T.ids.card ≤ fuel) :
    (Accepted h P A K C start (regionEnd w start size) ∧
      adjustResource w fuel h res start size =
        some (h.setRange res start (regionEnd w start size), 0)) ∨
    (¬Accepted h P A K C start (regionEnd w start size) ∧
      adjustResource w fuel h res start size = some (h, ebusy)) := by
  have hrep := hwf.rep.at hat
  obtain ⟨-, hparent, hkids, hsiblings⟩ := hrep.of_append (q := .child P)
  have hresA : res ∉ A.tops := fun hmem => ((at_append hat hwf.nodup).1 res
    (mem_cons_of_mem (mem_ids_of_mem_tops hmem))).2 (mem_cons_self _ _)
  have hcard := card_lt hat
  rw [ids_append, card_add, ids, card_cons, card_add] at hcard
  have hK := tops_length_le K
  have hA := tops_length_le A
  generalize hend : regionEnd w start size = end_
  obtain ⟨within, hloop, hwithin⟩ : ∃ within, withinLoop h start end_ fuel (h.ptrs.child res) =
      some within ∧ (within = true ↔ ∀ k ∈ K.tops, start ≤ h.start k ∧ h.end_ k ≤ end_) :=
    withinLoop_spec hkids (by omega)
  rw [adjustResource, hparent, bind_some]
  dsimp only
  rw [hend, hloop, bind_some]
  by_cases hout : start < h.start P ∨ h.end_ P < end_
  · rw [if_pos hout]
    refine .inr ⟨fun hacc => ?_, rfl⟩
    have hlow := hacc.low
    have hhigh := hacc.high
    omega
  rw [if_neg hout]
  by_cases hin : within = false
  · rw [if_pos hin]
    refine .inr ⟨fun hacc => ?_, rfl⟩
    rw [hwithin.mpr hacc.kids] at hin
    cases hin
  rw [if_neg hin, rep_head hsiblings]
  have hany : (C.tops.head?).any (fun sibling => h.start sibling ≤ end_) = true ↔
      ∃ c ∈ C.tops.head?, h.start c ≤ end_ := by
    cases C.tops.head? <;> simp
  by_cases hnext : (C.tops.head?).any (fun sibling => h.start sibling ≤ end_) = true
  · rw [if_pos hnext]
    refine .inr ⟨fun hacc => ?_, rfl⟩
    obtain ⟨c, hc, hle⟩ := hany.mp hnext
    exact not_le.mpr (hacc.next c hc) hle
  rw [if_neg hnext]
  have hlen : A.tops.length < fuel := by omega
  rcases adjustBehind_cases hrep hresA hlen with ⟨hprev, hcall⟩ | ⟨hprev, hcall⟩
  · refine .inl ⟨⟨by omega, by omega, hwithin.mp (by simpa using hin), ?_, hprev⟩, hcall⟩
    intro c hc
    by_contra hle
    exact hnext (hany.mpr ⟨c, hc, not_lt.mp hle⟩)
  · exact .inr ⟨fun hacc => hprev hacc.prev, hcall⟩

/-! ### The tree afterwards -/

lemma WellFormed.ne_root (hwf : WellFormed h root T) (hat : At T P K) (hr : r ∈ K.ids) :
    r ≠ root := by
  rintro rfl
  have htops := hwf.tops
  cases T with
  | nil => cases htops
  | cons x kids rest =>
    obtain rfl := (cons_eq_cons.mp htops).1
    refine (Multiset.nodup_cons.mp hwf.nodup).1 (mem_add.mpr ?_)
    cases hat with
    | here => exact .inl hr
    | under hunder => exact .inl (hunder.subset hr)
    | behind hbehind => exact .inr (hbehind.subset hr)

lemma setRange_self (h : Heap) (res start end_ : Nat) :
    (h.setRange res start end_).start res = start ∧ (h.setRange res start end_).end_ res = end_ :=
  ⟨update_self _ _ _, update_self _ _ _⟩

lemma setRange_of_ne (hr : r ≠ res) :
    (h.setRange res start end_).start r = h.start r ∧
      (h.setRange res start end_).end_ r = h.end_ r :=
  ⟨update_of_ne hr _ _, update_of_ne hr _ _⟩

lemma Ordered.setRange_of_notMem (ho : Ordered h lo hi F) (hres : res ∉ F.ids) :
    Ordered (h.setRange res start end_) lo hi F :=
  ho.congr fun _ hr => setRange_of_ne (ne_of_mem_of_not_mem hr hres)

/-- The children of `P` around a range that was accepted and is not empty. -/
lemma Accepted.ordered (hacc : Accepted h P A K C start end_)
    (ho : Ordered h (h.start P) (h.end_ P) (A.append (cons res K C)))
    (hnodup : (A.append (cons res K C)).ids.Nodup) (hle : start ≤ end_) :
    Ordered (h.setRange res start end_) (h.start P) (h.end_ P) (A.append (cons res K C)) := by
  rw [ids_append] at hnodup
  obtain ⟨-, hcons, hdisj⟩ := nodup_add.mp hnodup
  obtain ⟨hK, hC, -⟩ := nodup_cons hcons
  have hA : res ∉ A.ids := disjoint_right.mp hdisj (mem_cons_self _ _)
  have hself := setRange_self h res start end_
  have hkeep : ∀ {F : Forest Id}, res ∉ F.ids → ∀ r ∈ F.tops,
      (h.setRange res start end_).start r = h.start r ∧
        (h.setRange res start end_).end_ r = h.end_ r := by
    intro F hF r hr
    apply setRange_of_ne
    rintro rfl
    exact hF (mem_ids_of_mem_tops hr)
  have hrest : Ordered h (h.start P) (h.end_ P) (A.append C) :=
    (show Ordered h _ _ (A.append ((cons res K .nil).append C)) from ho).remove
  have hAC : res ∉ (A.append C).ids := by
    rw [ids_append, mem_add, not_or]
    exact ⟨hA, hC⟩
  have hkids : Ordered h start end_ K := by
    obtain ⟨lo, hcons⟩ := ho.append_right
    have hin := hcons.2.2.2.1
    exact (hin.upper fun k hk => (hacc.kids k hk).2).lower
      fun k hk => (hacc.kids k (mem_of_mem_head? hk)).1
  apply (hrest.setRange_of_notMem hAC).insert
  · rw [hself.1]
    exact hacc.low
  · rw [hself.1, hself.2]
    exact hle
  · rw [hself.2]
    exact hacc.high
  · intro a ha
    rw [hself.1, (hkeep hA a ha).2]
    exact ho.append_left.end_lt_of_last hacc.prev a ha
  · intro c hc
    rw [hself.2, (hkeep hC c (mem_of_mem_head? hc)).1]
    exact hacc.next c hc
  · rw [hself.1, hself.2]
    exact hkids.setRange_of_notMem hK

lemma WellFormed.setRange (hwf : WellFormed h root T) (hat : At T P (A.append (cons res K C)))
    (hacc : Accepted h P A K C start end_) (hle : start ≤ end_) :
    WellFormed (h.setRange res start end_) root T := by
  have hres : res ∈ (A.append (cons res K C)).ids := by
    rw [ids_append]
    exact mem_add.mpr (.inr (mem_cons_self _ _))
  have hroot : root ≠ res := (hwf.ne_root hat hres).symm
  refine ⟨hwf.rep, hwf.tops, hwf.nodup, ?_⟩
  rw [(setRange_of_ne hroot).1, (setRange_of_ne hroot).2]
  rw [← setKids_self hat hwf.nodup]
  apply hwf.ordered.setKids hat hwf.nodup
  · exact fun r _ hr => setRange_of_ne (ne_of_mem_of_not_mem hres hr).symm
  · exact hacc.ordered (hwf.ordered.at hat).2 (hat.nodup hwf.nodup) hle

/-- `adjust_resource` of a node below the root comes to an end, and keeps the tree well formed or
changes nothing, if and only if a range that passes all its tests is not empty. -/
theorem adjust_resource_keeps_iff (hwf : WellFormed h root T) (hfuel : T.ids.card ≤ fuel)
    (hres : res ∈ T.ids) (hne : res ≠ root) (start size : Nat) :
    (∃ h' r, adjustResource w fuel h res start size = some (h', r) ∧
      ((r = 0 ∧ WellFormed h' root T) ∨ (r = ebusy ∧ h' = h))) ↔
    ∀ P A K C, At T P (A.append (cons res K C)) →
      Accepted h P A K C start (regionEnd w start size) → start ≤ regionEnd w start size := by
  constructor
  · rintro ⟨h', r, hcall, hout⟩ P A K C hat hacc
    rcases adjustResource_cases w start size hwf hat hfuel with ⟨-, hcase⟩ | ⟨hnot, -⟩
    · obtain ⟨rfl, rfl⟩ := Prod.mk.inj (some.inj (hcall.symm.trans hcase))
      rcases hout with ⟨-, hwf'⟩ | ⟨hr, -⟩
      · obtain ⟨K', hatK⟩ := exists_at hres
        have hrange := (hwf'.ordered.at hatK).1
        rwa [(setRange_self h _ _ _).1, (setRange_self h _ _ _).2] at hrange
      · cases hr
    · exact absurd hacc hnot
  · intro hrange
    obtain ⟨K, hatK⟩ := exists_at hres
    obtain ⟨P, A, C, hat⟩ := hwf.exists_parent_of_ne hatK hne
    rcases adjustResource_cases w start size hwf hat hfuel with ⟨hacc, hcase⟩ | ⟨-, hcase⟩
    · exact ⟨_, _, hcase, .inl ⟨rfl, hwf.setRange hat hacc (hrange P A K C hat hacc)⟩⟩
    · exact ⟨_, _, hcase, .inr ⟨rfl, rfl⟩⟩

/-- The bridge can be moved inside the bus. -/
theorem adjust_resource_keeps_iff_bridge :
    WellFormed bridge 0 (cons 0 (cons 1 .nil .nil) .nil) ∧
      ∃ h' r, adjustResource 32 2 bridge 1 4 8 = some (h', r) ∧
        ((r = 0 ∧ WellFormed h' 0 (cons 0 (cons 1 .nil .nil) .nil)) ∨ (r = ebusy ∧ h' = bridge)) :=
  ⟨bridge_wellFormed, (adjust_resource_keeps_iff bridge_wellFormed (by decide) (by decide)
    (by decide) 4 8).mpr fun _ _ _ _ _ _ => by decide⟩

/-- With a size of zero the bridge ends before it starts. -/
theorem adjust_resource_empty :
    WellFormed bridge 0 (cons 0 (cons 1 .nil .nil) .nil) ∧
      adjustResource 32 2 bridge 1 5 0 = some (bridge.setRange 1 5 4, 0) ∧
      ∀ T, ¬WellFormed (bridge.setRange 1 5 4) 0 T := by
  refine ⟨bridge_wellFormed, rfl, fun T hwf => ?_⟩
  cases T with
  | nil => cases hwf.tops
  | cons r kids rest =>
    obtain rfl : 0 = r := some.inj hwf.rep.1
    cases kids with
    | nil => cases hwf.rep.2.2.1
    | cons s ks rest' =>
      obtain rfl : 1 = s := some.inj hwf.rep.2.2.1.1
      have hrange := hwf.ordered.2.2.2.1.2.1
      exact absurd hrange (by decide)

end R0Kernel.Resource
