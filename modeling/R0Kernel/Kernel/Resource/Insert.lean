import R0Kernel.Kernel.Resource.Request

/-!
# Inserting a resource above others

`insert_resource` walks down to the resource that holds the new one, finds the run of its children
that the new one covers, and moves that run below the new one.
-/

namespace R0Kernel.Resource

open ChildSibling Forest Multiset Option Ptrs List

variable {h : Heap} {m m' : Ptrs Id} {A C D F K R T : Forest Id}
  {P P₀ first last new r root : Id} {fuel : Nat} {par : Option Id} {k : Forest Id}

/-! ### The walk down -/

/-- How the first loop ends when it starts at a node of the tree `T`. -/
inductive Descended (h : Heap) (T : Forest Id) (new : Id) : Descent → Prop where
  | placed {P : Id} {A C : Forest Id} : At T P (A.append C) → Fits h P new →
      (∀ a ∈ A.tops, h.end_ a < h.start new) → (∀ c ∈ C.tops.head?, h.end_ new < h.start c) →
      Descended h T new (.placed (h.link (lastLink (.child P) A) C.tops.head? new P))
  | outside : Descended h T new .outside
  | blocked {P first : Id} {A k C : Forest Id} : At T P (A.append (cons first k C)) →
      Fits h P new → (∀ a ∈ A.tops, h.end_ a < h.start new) → Overlaps h first new →
      Descended h T new (.blocked P first)

lemma at_of_append : At (A.append (cons r K C)) r K := by
  induction A with
  | nil => exact .here
  | cons a kids rest _ ih => exact .behind ih

lemma descend_spec (new : Id) {rounds : Nat} (hrep : Rep h.ptrs none (some root) T)
    (hat : At T P K) (hfuel : T.ids.card ≤ fuel) (hrounds : K.ids.card < rounds) :
    ∃ d, descend fuel h new rounds P = some d ∧ Descended h T new d := by
  induction rounds generalizing P K with
  | zero => cases hrounds
  | succ rounds ih =>
    obtain ⟨out, hcall, hreq⟩ := requestResource'_spec new (hrep.at hat)
      (lt_of_lt_of_le (tops_length_lt hat) hfuel)
    rw [descend, hcall, bind_some]
    cases hreq with
    | outside _ =>
      refine ⟨.outside, ?_, .outside⟩
      dsimp only
      rw [if_pos rfl]
    | placed hfits hsplit hA hC =>
      subst hsplit
      exact ⟨_, rfl, .placed hat hfits hA hC⟩
    | @conflict A C k c hfits hsplit hA hover =>
      subst hsplit
      dsimp only
      split
      next => exact ⟨_, rfl, .outside⟩
      next =>
        split
        next => exact ⟨_, rfl, .blocked hat hfits hA hover⟩
        next =>
          split
          next => exact ⟨_, rfl, .blocked hat hfits hA hover⟩
          next =>
            -- `new` lies strictly inside the conflict, which has fewer nodes below it
            apply ih (hat.trans at_of_append)
            rw [ids_append, ids, card_add, card_cons,
              card_add] at hrounds
            omega

/-! ### The run of covered siblings -/

def Covered (h : Heap) (new c : Id) : Prop :=
  h.start new ≤ h.start c ∧ h.end_ c ≤ h.end_ new

instance : DecidablePred (Covered h new) := fun _ => inferInstanceAs (Decidable (_ ∧ _))

lemma coverLoop_spec (new : Id) (hrep : Rep h.ptrs par (some first) (cons first k C))
    (hfuel : (cons first k C).tops.length ≤ fuel) :
    coverLoop h new fuel first = some none ∨
      ∃ R D last, cons first k C = R.append D ∧ coverLoop h new fuel first = some (some last) ∧
        R.tops.head? = some first ∧ (∀ q, lastLink q R = .sibling last) ∧
        (∀ r ∈ R.tops, Covered h new r) ∧ ∀ d ∈ D.tops.head?, h.end_ new < h.start d := by
  induction C generalizing first k fuel with
  | nil =>
    obtain _ | fuel := fuel
    · cases hfuel
    have hnone : h.ptrs.sibling first = none := hrep.2.2.2
    rw [coverLoop, hnone]
    split
    next => exact .inl rfl
    next hin =>
      refine .inr ⟨cons first k .nil, .nil, first, rfl, rfl, rfl, fun _ => rfl, ?_, nofun⟩
      intro r hr
      rw [tops, tops, List.mem_singleton] at hr
      subst hr
      exact ⟨not_lt.mp fun hlt => hin (.inl hlt), not_lt.mp fun hlt => hin (.inr hlt)⟩
  | cons s ks rest _ ih =>
    obtain _ | fuel := fuel
    · cases hfuel
    have hsome : h.ptrs.sibling first = some s := hrep.2.2.2.1
    rw [coverLoop, hsome]
    dsimp only
    split
    next => exact .inl rfl
    next hin =>
      have hfirst : Covered h new first :=
        ⟨not_lt.mp fun hlt => hin (.inl hlt), not_lt.mp fun hlt => hin (.inr hlt)⟩
      split
      next hbehind =>
        refine .inr ⟨cons first k .nil, cons s ks rest, first, rfl, rfl, rfl, fun _ => rfl, ?_, ?_⟩
        · intro r hr
          rw [tops, tops, List.mem_singleton] at hr
          subst hr
          exact hfirst
        · intro d hd
          cases hd
          exact hbehind
      next =>
        have hrest : (cons s ks rest).tops.length ≤ fuel := Nat.le_of_succ_le_succ hfuel
        have hs : Rep h.ptrs par (some s) (cons s ks rest) := hsome ▸ hrep.2.2.2
        rcases ih hs hrest with hnone | ⟨R, D, last, hsplit, hloop, hhead, hlast, hR, hD⟩
        · exact .inl hnone
        · refine .inr ⟨cons first k R, D, last, ?_, hloop, rfl, fun _ => hlast _, ?_, hD⟩
          · rw [hsplit]
            rfl
          · intro r hr
            rcases mem_cons.mp hr with rfl | hr
            · exact hfirst
            · exact hR r hr

lemma filter_covered {lo hi : Nat} (hord : Ordered h lo hi (A.append (R.append D)))
    (hA : ∀ a ∈ A.tops, h.end_ a < h.start new) (hR : ∀ r ∈ R.tops, Covered h new r)
    (hD : ∀ d ∈ D.tops.head?, h.end_ new < h.start d) :
    (A.append (R.append D)).tops.filter (Covered h new) = R.tops := by
  have hAout : A.tops.filter (Covered h new) = [] := by
    apply filter_eq_nil_iff.mpr
    intro a ha hcov
    have hin := (hord.le_start (r := a) (by
      rw [tops_append]; exact mem_append_left _ ha)).2.1
    have hcov := (of_decide_eq_true hcov).1
    have := hA a ha
    omega
  have hDout : D.tops.filter (Covered h new) = [] := by
    apply filter_eq_nil_iff.mpr
    intro d hd hcov
    obtain ⟨l, hRD⟩ := hord.append_right
    obtain ⟨l', hordD⟩ := hRD.append_right
    have hbehind := (hordD.lower hD).le_start hd
    have hcov := (of_decide_eq_true hcov).2
    omega
  have hRin : R.tops.filter (Covered h new) = R.tops :=
    filter_eq_self.mpr fun r hr => decide_eq_true (hR r hr)
  rw [tops_append, tops_append, filter_append, filter_append, hAout, hDout, hRin,
    List.nil_append, List.append_nil]

/-! ### Moving the run below the new resource -/

lemma adoptLoop_spec (new : Id) {m₀ : Ptrs Id} {p : Option Id} (hrep : Rep m₀ par p R)
    (hsib : ∀ x, m.sibling x = m₀.sibling x) (hfuel : R.tops.length ≤ fuel) :
    ∃ m', adoptLoop new fuel m p = some m' ∧ (∀ x, m'.get x = m.get x) ∧
      (∀ r ∈ R.tops, m'.parent r = some new) ∧ ∀ r, r ∉ R.tops → m'.parent r = m.parent r := by
  induction R generalizing m p fuel with
  | nil =>
    obtain rfl : p = none := hrep
    exact ⟨m, by cases fuel <;> rfl, fun _ => rfl, nofun, fun _ _ => rfl⟩
  | cons r kids rest _ ih =>
    obtain _ | fuel := fuel
    · cases hfuel
    obtain ⟨rfl, -, -, hrest⟩ := hrep
    rw [← hsib r] at hrest
    have hlen : rest.tops.length ≤ fuel := Nat.le_of_succ_le_succ hfuel
    obtain ⟨m', hloop, hget, htops, hother⟩ :=
      ih (m := m.setParent r (some new)) hrest (fun x => hsib x) hlen
    refine ⟨m', hloop, fun x => (hget x).trans (get_setParent ..), ?_, ?_⟩
    · intro x hx
      by_cases hin : x ∈ rest.tops
      · exact htops x hin
      · obtain rfl : x = r := (mem_cons.mp hx).resolve_right hin
        rw [hother x hin, setParent_self]
    · intro x hx
      rw [tops, List.mem_cons, not_or] at hx
      rw [hother x hx.2, setParent_of_ne _ _ hx.1]

lemma beforeLoop_spec (hrep : Rep m par (some r) ((cons r k A).append F))
    (hF : F.tops.head? = some first) (hfirst : first ∉ A.tops)
    (hsib : ∀ x ∈ (cons r k A).tops, m'.sibling x = m.sibling x) (hfuel : A.tops.length < fuel) :
    ∃ x, beforeLoop m' first fuel r = some x ∧ ∀ q, lastLink q (cons r k A) = .sibling x := by
  induction A generalizing r k fuel with
  | nil =>
    obtain _ | fuel := fuel
    · cases hfuel
    have hnext : m'.sibling r = some first := by
      rw [hsib r mem_cons_self, ← hF]
      exact rep_head hrep.2.2.2
    rw [beforeLoop, hnext]
    exact ⟨r, if_pos rfl, fun _ => rfl⟩
  | cons s ks rest _ ih =>
    obtain _ | fuel := fuel
    · cases hfuel
    have hnext : m.sibling r = some s := hrep.2.2.2.1
    rw [beforeLoop, hsib r mem_cons_self, hnext]
    dsimp only
    rw [if_neg (show s ≠ first from fun heq => hfirst (heq ▸ mem_cons_self))]
    have hlen : rest.tops.length < fuel := Nat.lt_of_succ_lt_succ hfuel
    obtain ⟨x, hloop, hlast⟩ := ih (r := s) (k := ks) (hnext ▸ hrep.2.2.2)
      (fun hmem => hfirst (mem_cons_of_mem s hmem))
      (fun x hx => hsib x (mem_cons_of_mem r hx)) hlen
    exact ⟨x, hloop, fun _ => hlast (.sibling r)⟩

/-- The pointers after the first four writes: `new` is set up and the run is cut off behind
`last`. -/
def setUp (m : Ptrs Id) (P new first last : Id) : Ptrs Id :=
  (((m.setParent new (some P)).set (.sibling new) (m.sibling last)).set (.child new)
    (some first)).set (.sibling last) none

lemma setUp_get_of_ne {x : Link Id} (hnew : x.owner ≠ new) (hlast : x ≠ .sibling last) :
    (setUp m P new first last).get x = m.get x := by
  have hchild : x ≠ .child new := by
    rintro rfl
    exact hnew rfl
  have hsibling : x ≠ .sibling new := by
    rintro rfl
    exact hnew rfl
  rw [setUp, get_set_of_ne _ _ hlast, get_set_of_ne _ _ hchild,
    get_set_of_ne _ _ hsibling, get_setParent]

lemma setUp_child : (setUp m P new first last).child new = some first := by
  change (setUp m P new first last).get (.child new) = some first
  have hlast : Link.child new ≠ Link.sibling last := nofun
  rw [setUp, get_set_of_ne _ _ hlast, get_set_self]

lemma setUp_sibling (hne : new ≠ last) :
    (setUp m P new first last).sibling new = m.sibling last := by
  change (setUp m P new first last).get (.sibling new) = m.sibling last
  have hlast : Link.sibling new ≠ Link.sibling last := fun heq => hne (Link.sibling.inj heq)
  have hchild : Link.sibling new ≠ Link.child new := nofun
  rw [setUp, get_set_of_ne _ _ hlast, get_set_of_ne _ _ hchild, get_set_self]

lemma setUp_parent (x : Id) :
    (setUp m P new first last).parent x = (m.setParent new (some P)).parent x := by
  rw [setUp, set_parent, set_parent, set_parent]

section Capture

variable (hwf : WellFormed h root T) (hat : At T P (A.append (R.append D))) (hnew : new ∉ T.ids)
  (hfirst : R.tops.head? = some first) (hlast : ∀ q, lastLink q R = .sibling last)

include hlast in
lemma last_mem : last ∈ R.tops := by
  rcases lastLink_eq (.child 0) R with h | ⟨x, hx, h⟩
  · rw [hlast] at h
    cases h
  · rw [hlast] at h
    exact Link.sibling.inj h ▸ hx

include hwf hat hnew in
/-- The parts of the pointers that the capture touches are apart from each other. -/
lemma capture_apart :
    (∀ r ∈ P ::ₘ A.ids, r ≠ new ∧ r ∉ R.ids) ∧
      (∀ r ∈ R.ids, r ∈ (R.append D).ids ∧ r ≠ new ∧ r ∉ D.ids) ∧
      (∀ r ∈ D.ids, r ∈ (R.append D).ids ∧ r ≠ new ∧ r ∉ R.ids) ∧ R.ids.Nodup := by
  obtain ⟨hA, hRD, -, hnodup⟩ := at_append hat hwf.nodup
  rw [ids_append] at hnodup hRD
  simp only [ids_append, mem_add, not_or] at hA ⊢
  obtain ⟨hR, -, hdisj⟩ := nodup_add.mp hnodup
  refine ⟨fun r hr => ⟨ne_of_mem_of_not_mem (hA r hr).1 hnew, (hA r hr).2.1⟩, ?_, ?_, hR⟩
  · intro r hr
    exact ⟨.inl hr, ne_of_mem_of_not_mem (hRD r (mem_add.mpr (.inl hr))) hnew,
      disjoint_left.mp hdisj hr⟩
  · intro r hr
    exact ⟨.inr hr, ne_of_mem_of_not_mem (hRD r (mem_add.mpr (.inr hr))) hnew,
      disjoint_right.mp hdisj hr⟩

include hwf hat hnew hfirst hlast

/-- After the first writes the run is a list of its own. -/
lemma setUp_rep : Rep (setUp h.ptrs P new first last) (some P) (some first) R := by
  obtain ⟨hA, hR, -, hnodup⟩ := capture_apart hwf hat hnew
  have hlastR : last ∈ R.ids := mem_ids_of_mem_tops (last_mem hlast)
  have htail := (hwf.rep.at hat).of_append (q := .child P)
  have howner := owner_lastLink P A
  -- the place that led to the run still leads to it
  have hplace : (setUp h.ptrs P new first last).get (lastLink (.child P) A) = some first := by
    rw [setUp_get_of_ne (hA _ howner).1, rep_head htail, tops_append, head?_append, hfirst]
    · rfl
    · intro heq
      rw [heq] at howner
      exact (hA last howner).2 hlastR
  rw [← hplace, ← append_nil R]
  apply htail.splice hnodup (hA _ howner).2
  · intro x hne hx
    rw [hlast] at hne
    apply setUp_get_of_ne ?_ hne
    rcases hx with rfl | hx
    · exact (hA _ howner).1
    · exact (hR _ hx).2.1
  · intro r hr
    rw [setUp_parent, setParent_of_ne _ _ (hR r hr).2.1]
  · rw [hlast]
    exact get_set_self ..

/-- The last write of `insert_resource`, once it has found the place of the run. -/
lemma captured_of_adopt
    (hget : ∀ x, m.get x = (setUp h.ptrs P new first last).get x)
    (htops : ∀ r ∈ R.tops, m.parent r = some new)
    (hothers : ∀ r, r ∉ R.tops → m.parent r = (setUp h.ptrs P new first last).parent r)
    (hfits : Fits h P new) (hA : ∀ a ∈ A.tops, h.end_ a < h.start new)
    (hR : ∀ r ∈ R.tops, Covered h new r) (hD : ∀ d ∈ D.tops.head?, h.end_ new < h.start d) :
    WellFormed { h with ptrs := m.set (lastLink (.child P) A) (some new) } root
      (T.setKids P (A.append (cons new R D))) := by
  obtain ⟨hPA, hinR, hinD, hnodup⟩ := capture_apart hwf hat hnew
  have hlastR : last ∈ R.ids := mem_ids_of_mem_tops (last_mem hlast)
  have hnewPlace : ∀ x : Link Id, x.owner = new → x ≠ lastLink (.child P) A := by
    rintro x hx rfl
    exact (hPA _ (owner_lastLink P A)).1 hx
  have htopsR : ∀ {r}, r ∉ R.ids → r ∉ R.tops := fun hr hmem => hr (mem_ids_of_mem_tops hmem)
  -- what is neither `new` nor in the run has kept its pointers
  have hkeep : ∀ x : Link Id, x.owner ≠ new → x.owner ∉ R.ids → x ≠ lastLink (.child P) A →
      (m.set (lastLink (.child P) A) (some new)).get x = h.ptrs.get x := by
    intro x hx hxR hne
    rw [get_set_of_ne _ _ hne, hget, setUp_get_of_ne hx]
    rintro rfl
    exact hxR hlastR
  have hparent : ∀ r, r ≠ new → r ∉ R.ids →
      (m.set (lastLink (.child P) A) (some new)).parent r = h.ptrs.parent r := by
    intro r hr hrR
    rw [set_parent, hothers r (htopsR hrR), setUp_parent, setParent_of_ne _ _ hr]
  have hids : (A.append (cons new R D)).ids = {new} + (A.append (R.append D)).ids := by
    rw [ids_append, ids_append, ids_append, ids, add_cons, singleton_add]
  have hout : ∀ r, r ∉ (R.append D).ids → r ∉ R.ids := fun r hr hmem => hr (hinR r hmem).1
  apply hwf.splice hat
  · exact fun x hx hxF => hkeep x (ne_of_mem_of_not_mem hx hnew) (hout _ hxF)
  · exact fun r hr hrF => hparent r (ne_of_mem_of_not_mem hr hnew) (hout r hrF)
  · refine ⟨get_set_self .., ?_, ?_, ?_⟩
    · have hnewR : new ∉ R.ids := fun hmem => (hinR new hmem).2.1 rfl
      rw [set_parent, hothers new (htopsR hnewR), setUp_parent, setParent_self]
    · -- the run: cut off behind its last node, and with a new parent
      have hchild : (m.set (lastLink (.child P) A) (some new)).get (.child new) = some first := by
        rw [get_set_of_ne _ _ (hnewPlace _ rfl), hget]
        exact setUp_child
      change Rep _ _ (Ptrs.get _ (.child new)) R
      rw [hchild]
      apply (setUp_rep hwf hat hnew hfirst hlast).reparent hnodup
      · intro x hx
        rw [get_set_of_ne _ _ (ne_lastLink_of_mem hat hwf.nodup (hinR _ hx).1), hget]
      · exact fun r hr => (congrFun (set_parent ..) r).trans (htops r hr)
      · exact fun r _ hr => (congrFun (set_parent ..) r).trans (hothers r hr)
    · have htail := ((hwf.rep.at hat).of_append (q := .child P)).of_append
      rw [hlast] at htail
      have hsibling : (m.set (lastLink (.child P) A) (some new)).get (.sibling new) =
          h.ptrs.sibling last := by
        rw [get_set_of_ne _ _ (hnewPlace _ rfl), hget]
        exact setUp_sibling (hinR last hlastR).2.1.symm
      change Rep _ _ (Ptrs.get _ (.sibling new)) D
      rw [hsibling]
      apply htail.congr
      · intro x hx
        obtain ⟨hmem, hxnew, hxR⟩ := hinD _ hx
        exact hkeep x hxnew hxR (ne_lastLink_of_mem hat hwf.nodup hmem)
      · exact fun r hr => hparent r (hinD r hr).2.1 (hinD r hr).2.2
  · have hord := (hwf.ordered.at hat).2
    exact hord.remove.insert hfits.1 hfits.2.1 hfits.2.2 hA hD (hord.middle hR)
  · rw [ids_setKids_add hat hwf.nodup hids, add_comm]
    exact nodup_cons.mpr ⟨hnew, hwf.nodup⟩

lemma capture_spec (hfits : Fits h P new) (hA : ∀ a ∈ A.tops, h.end_ a < h.start new)
    (hR : ∀ r ∈ R.tops, Covered h new r) (hD : ∀ d ∈ D.tops.head?, h.end_ new < h.start d)
    (hfuel : A.tops.length + R.tops.length ≤ fuel) :
    ∃ m', capture fuel h.ptrs P new first last = some m' ∧
      WellFormed { h with ptrs := m' } root (T.setKids P (A.append (cons new R D))) := by
  obtain ⟨hPA, -, -, -⟩ := capture_apart hwf hat hnew
  have hfirstR : first ∈ R.ids := mem_ids_of_mem_tops (mem_of_mem_head? hfirst)
  have hlastR : last ∈ R.ids := mem_ids_of_mem_tops (last_mem hlast)
  have hshort : R.tops.length ≤ fuel := by omega
  obtain ⟨m, hadopt, hget, htops, hothers⟩ := adoptLoop_spec new
    (setUp_rep hwf hat hnew hfirst hlast) (fun _ => rfl) hshort
  have hcaptured :=
    captured_of_adopt hwf hat hnew hfirst hlast hget htops hothers hfits hA hR hD
  -- the children in front of the run have kept their pointers
  have hkeep : ∀ x : Link Id, x.owner ∈ P ::ₘ A.ids → m.get x = h.ptrs.get x := by
    intro x hx
    rw [hget, setUp_get_of_ne (hPA _ hx).1]
    rintro rfl
    exact (hPA last hx).2 hlastR
  have hrep := hwf.rep.at hat
  have hchild : m.child P = (A.append (R.append D)).tops.head? :=
    (hkeep (.child P) (mem_cons_self _ _)).trans (rep_head hrep)
  have hF : (R.append D).tops.head? = some first := by
    rw [tops_append, head?_append, hfirst]
    rfl
  have hcall : capture fuel h.ptrs P new first last =
      if m.child P = some first then some (m.set (.child P) (some new))
      else (m.child P).bind fun next =>
        (beforeLoop m first fuel next).map fun before => m.set (.sibling before) (some new) := by
    change (adoptLoop new fuel (setUp h.ptrs P new first last) (some first)).bind _ = _
    rw [hadopt, bind_some]
  rw [hcall]
  cases A with
  | nil =>
    rw [if_pos (hchild.trans hF)]
    exact ⟨_, rfl, hcaptured⟩
  | cons a k rest =>
    have haA : a ∈ P ::ₘ (cons a k rest).ids :=
      mem_cons_of_mem (mem_cons_self _ _)
    have hne : (some a : Option Id) ≠ some first := by
      intro heq
      exact (hPA a haA).2 (some.inj heq ▸ hfirstR)
    have hFirstA : first ∉ rest.tops := by
      intro hmem
      refine (hPA first ?_).2 hfirstR
      exact mem_cons_of_mem (mem_ids_of_mem_tops (mem_cons_of_mem a hmem))
    have hsib : ∀ x ∈ (cons a k rest).tops, m.sibling x = h.ptrs.sibling x := fun x hx =>
      hkeep (.sibling x) (mem_cons_of_mem (mem_ids_of_mem_tops hx))
    have hlen : rest.tops.length < fuel := by
      rw [tops, length_cons] at hfuel
      omega
    have hrepA : Rep h.ptrs (some P) (some a) ((cons a k rest).append (R.append D)) := by
      have hhead := hrep.1
      rwa [hhead] at hrep
    obtain ⟨x, hbefore, hplace⟩ := beforeLoop_spec hrepA hF hFirstA hsib hlen
    rw [show m.child P = some a from hchild, if_neg hne, bind_some, hbefore]
    rw [hplace] at hcaptured
    exact ⟨_, rfl, hcaptured⟩

end Capture

/-- `insert_resource` of a childless resource that is not in the tree, at any node of the tree. On
success the covered run `R` among the children of the node `P` is below the new resource. -/
lemma insertResource_spec (hwf : WellFormed h root T) (hat : At T P₀ K)
    (hnew : new ∉ T.ids) (hchild : h.ptrs.child new = none) (hfuel : T.ids.card ≤ fuel) :
    ∃ h' r, insertResource fuel h P₀ new = some (h', r) ∧
      ((r = 0 ∧ ∃ (P : Id) (A R D : Forest Id), At T P (A.append (R.append D)) ∧
          WellFormed h' root (T.setKids P (A.append (cons new R D))) ∧
          R.tops = (A.append (R.append D)).tops.filter (Covered h new)) ∨
        (r ≠ 0 ∧ h' = h)) := by
  obtain ⟨d, hcall, hd⟩ := descend_spec new hwf.rep hat hfuel ((card_lt hat).trans_le hfuel)
  rw [insertResource, hcall, bind_some]
  cases hd with
  | outside => exact ⟨h, ebusy, rfl, .inr ⟨by decide, rfl⟩⟩
  | @placed P A C hatP hfits hA hC =>
    have hfresh := fresh_of_childless hwf.nodup hnew hchild
    refine ⟨_, 0, rfl, .inl ⟨rfl, P, A, .nil, C, hatP, hwf.placed hatP hfresh hfits hA hC, ?_⟩⟩
    have hord := (hwf.ordered.at hatP).2
    exact (filter_covered (R := .nil) hord hA (fun _ hr => nomatch hr) hC).symm
  | @blocked P first A k C hatP hfits hA hover =>
    have htail := (hwf.rep.at hatP).of_append (q := .child P)
    have hlen := tops_length_lt hatP
    rw [tops_append, length_append] at hlen
    have hrun : Rep h.ptrs (some P) (some first) (cons first k C) := htail.1 ▸ htail
    dsimp only
    have hshort : (cons first k C).tops.length ≤ fuel := by omega
    rcases coverLoop_spec new hrun hshort with
      hnone | ⟨R, D, last, hsplit, hloop, hfirst, hlast, hR, hD⟩
    · rw [hnone]
      exact ⟨h, ebusy, rfl, .inr ⟨by decide, rfl⟩⟩
    · rw [hsplit] at hatP hlen
      rw [tops_append, length_append] at hlen
      have hlen' : A.tops.length + R.tops.length ≤ fuel := by omega
      obtain ⟨m', hcapture, hwf'⟩ :=
        capture_spec hwf hatP hnew hfirst hlast hfits hA hR hD hlen'
      rw [hloop, bind_some]
      dsimp only
      rw [hcapture]
      refine ⟨_, 0, rfl, .inl ⟨rfl, P, A, R, D, hatP, hwf', ?_⟩⟩
      exact (filter_covered (hwf.ordered.at hatP).2 hA hR hD).symm

end R0Kernel.Resource
