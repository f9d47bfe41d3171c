import R0Kernel.Kernel.Resource.Insert

/-!
# Regions, and the invariant of the resource tree

`__request_region` and `__release_region` walk down through the resources that are not busy. A
request that succeeds and the release after it take the same way, so that the release finds the
region it should. The module ends with the invariant of the whole interface.
-/

namespace R0Kernel.Resource

open ChildSibling Forest Function Multiset

variable {h h' : Heap} {A C F K K₀ N T : Forest Id} {P P₀ new old r res root : Id}
  {start end_ fuel w n : Nat}

/-! ### Heaps that agree on a tree -/

/-- The two heaps hold the same resources at the nodes of `T`. -/
structure SameOn (h h' : Heap) (T : Forest Id) : Prop where
  link : ∀ x : Link Id, x.owner ∈ T.ids → h'.get x = h.get x
  parent : ∀ r ∈ T.ids, h'.ptrs.parent r = h.ptrs.parent r
  start : ∀ r ∈ T.ids, h'.start r = h.start r
  end_ : ∀ r ∈ T.ids, h'.end_ r = h.end_ r
  flags : ∀ r ∈ T.ids, h'.flags r = h.flags r

lemma WellFormed.root_mem (hwf : WellFormed h root T) : root ∈ T.ids :=
  mem_ids_of_mem_tops (hwf.tops ▸ List.mem_singleton_self root)

lemma WellFormed.congr (hwf : WellFormed h root T) (hsame : SameOn h h' T) :
    WellFormed h' root T := by
  refine ⟨hwf.rep.congr hsame.link hsame.parent, hwf.tops, hwf.nodup, ?_⟩
  rw [hsame.start root hwf.root_mem, hsame.end_ root hwf.root_mem]
  exact hwf.ordered.congr fun r hr => ⟨hsame.start r hr, hsame.end_ r hr⟩

/-- What `kzalloc` gives is not in the tree. -/
lemma sameOn_allocRegion (hres : res ∉ T.ids) :
    SameOn h (allocRegion h res start end_) T := by
  have hne : ∀ r ∈ T.ids, r ≠ res := fun r hr heq => hres (heq ▸ hr)
  constructor
  case link =>
    intro x hx
    cases x with
    | child r => exact update_of_ne (hne r hx) ..
    | sibling r => exact update_of_ne (hne r hx) ..
  case parent => exact fun r hr => update_of_ne (hne r hr) ..
  case start => exact fun r hr => update_of_ne (hne r hr) ..
  case end_ => exact fun r hr => update_of_ne (hne r hr) ..
  case flags => exact fun r hr => update_of_ne (hne r hr) ..

lemma SameOn.trans {h'' : Heap} (hsame : SameOn h h' T) (hsame' : SameOn h' h'' T) :
    SameOn h h'' T where
  link x hx := (hsame'.link x hx).trans (hsame.link x hx)
  parent r hr := (hsame'.parent r hr).trans (hsame.parent r hr)
  start r hr := (hsame'.start r hr).trans (hsame.start r hr)
  end_ r hr := (hsame'.end_ r hr).trans (hsame.end_ r hr)
  flags r hr := (hsame'.flags r hr).trans (hsame.flags r hr)

/-- Linking a resource and taking it out again at the same place. -/
lemma sameOn_link_unlink {p : Link Id} (hres : res ∉ T.ids) (hp : p.owner ≠ res) :
    SameOn h ((h.link p (h.get p) res P).unlink p res) T := by
  have hsib : Link.sibling res ≠ p := by
    rintro rfl
    exact hp rfl
  constructor
  case link =>
    intro x hx
    by_cases hxp : x = p
    · subst hxp
      change Ptrs.get (Ptrs.set ..) x = _
      rw [Ptrs.get_set_self, link_sibling hsib]
    · change Ptrs.get (Ptrs.set ..) x = _
      rw [Ptrs.get_set_of_ne _ _ hxp, link_get_of_ne hxp]
      · rfl
      · rintro rfl
        exact hres hx
  case parent =>
    intro r hr
    change (Ptrs.set ..).parent r = _
    rw [Ptrs.set_parent, link_parent_of_ne]
    rintro rfl
    exact hres hr
  case start => exact fun _ _ => rfl
  case end_ => exact fun _ _ => rfl
  case flags => exact fun _ _ => rfl

/-! ### Requests of regions -/

/-- The way down from `P₀` with the children `K₀` to `P` with the children `K`, through resources
that hold `new` and are not busy. -/
inductive Below (h : Heap) (new : Id) : Id → Forest Id → Id → Forest Id → Prop where
  | here {P : Id} {K : Forest Id} : Below h new P K P K
  | step {P₀ c P : Id} {A k C K : Forest Id} : (∀ a ∈ A.tops, h.end_ a < h.start new) →
      h.busy c = false → Fits h c new → Below h new c k P K →
      Below h new P₀ (A.append (cons c k C)) P K

lemma Below.at (hbelow : Below h new P₀ K₀ P K) (hat : At T P₀ K₀) : At T P K := by
  induction hbelow with
  | here => exact hat
  | step _ _ _ _ ih => exact ih (hat.trans at_of_append)

lemma regionLoop_spec (res : Id) {rounds : Nat} (hrep : Rep h.ptrs none (some root) T)
    (hat : At T P₀ K₀)
    (hfuel : T.ids.card ≤ fuel) (hrounds : K₀.ids.card < rounds) :
    regionLoop fuel h res rounds P₀ = some none ∨
      ∃ (P : Id) (A C : Forest Id), Below h res P₀ K₀ P (A.append C) ∧ Fits h P₀ res ∧
        Fits h P res ∧ (∀ a ∈ A.tops, h.end_ a < h.start res) ∧
        (∀ c ∈ C.tops.head?, h.end_ res < h.start c) ∧
        regionLoop fuel h res rounds P₀ =
          some (some (h.link (lastLink (.child P) A) C.tops.head? res P)) := by
  induction rounds generalizing P₀ K₀ with
  | zero => cases hrounds
  | succ rounds ih =>
    obtain ⟨out, hcall, hreq⟩ := requestResource'_spec res (hrep.at hat)
      (lt_of_lt_of_le (tops_length_lt hat) hfuel)
    rw [regionLoop, hcall, Option.bind_some]
    cases hreq with
    | outside _ => exact .inl (if_neg fun hne => hne.1 rfl)
    | placed hfits hsplit hA hC =>
      subst hsplit
      exact .inr ⟨P₀, _, _, .here, hfits, hfits, hA, hC, rfl⟩
    | @conflict A C k c hfits hsplit hA _ =>
      subst hsplit
      dsimp only
      split
      next hdown =>
        rw [ids_append, ids, card_add, card_cons,
          card_add] at hrounds
        rcases ih (hat.trans at_of_append) (by omega) with
          hnone | ⟨P, A', C', hbelow, hc, hP, hA', hC', hloop⟩
        · exact .inl hnone
        · exact .inr ⟨P, A', C', .step hA hdown.2 hc hbelow, hfits, hP, hA', hC', hloop⟩
      next => exact .inl rfl

/-! ### Releases of regions -/

lemma releaseRegionLoop_spec (start end_ : Nat) (hrep : Rep h.ptrs none (some root) T)
    (hat : At T P (A.append F))
    (hfuel : F.ids.card < fuel) :
    releaseRegionLoop h start end_ fuel (lastLink (.child P) A) = some (h, false) ∨
      ∃ (P' : Id) (A' : Forest Id) (r : Id) (k C : Forest Id), At T P' (A'.append (cons r k C)) ∧
        releaseRegionLoop h start end_ fuel (lastLink (.child P) A) =
          some (h.unlink (lastLink (.child P') A') r, true) := by
  -- every pass goes to a place with fewer nodes behind and below it
  induction fuel generalizing P A F with
  | zero => cases hfuel
  | succ fuel ih =>
    have hplace := (hrep.at hat).of_append (q := .child P)
    cases F with
    | nil =>
      have hnone : h.get (lastLink (.child P) A) = none := hplace
      rw [releaseRegionLoop, hnone]
      exact .inl rfl
    | cons r k C =>
      have hsome : h.get (lastLink (.child P) A) = some r := hplace.1
      rw [ids, card_cons, card_add] at hfuel
      rw [releaseRegionLoop, hsome]
      dsimp only
      split
      next =>
        split
        next => exact ih (A := .nil) (F := k) (hat.trans at_of_append) (by omega)
        next =>
          split
          next => exact .inl rfl
          next => exact .inr ⟨P, A, r, k, C, hat, rfl⟩
      next =>
        have hnext : lastLink (.child P) (A.append (cons r k .nil)) = .sibling r := by
          rw [lastLink_append]
          rfl
        rw [← hnext]
        apply ih (F := C)
        · rw [append_assoc]
          exact hat
        · omega

/-- `__release_region` below a node of a well-formed tree: it takes a resource out, or leaves
everything as it was. -/
lemma releaseRegion_spec (hwf : WellFormed h root T) (hat : At T P K)
    (hfuel : T.ids.card ≤ fuel) :
    ∃ h' found, releaseRegion w fuel h P start n = some (h', found) ∧
      ((found = false ∧ h' = h) ∨ (found = true ∧ ∃ (P' : Id) (A : Forest Id) (r : Id)
        (k C : Forest Id), At T P' (A.append (cons r k C)) ∧
          WellFormed h' root (T.setKids P' (A.append C)))) := by
  rcases releaseRegionLoop_spec start (regionEnd w start n) (A := .nil) hwf.rep hat
    ((card_lt hat).trans_le hfuel) with
    hcall | ⟨P', A, r, k, C, hat', hcall⟩
  · exact ⟨h, false, hcall, .inl ⟨rfl, rfl⟩⟩
  · exact ⟨_, true, hcall, .inr ⟨rfl, P', A, r, k, C, hat', hwf.unlinked hat'⟩⟩

/-- The place in front of some siblings is not the place behind them. -/
lemma ne_lastLink_cons {q : Link Id} {k : Forest Id} (hq : q.owner ∉ (cons r k A).ids) :
    q ≠ lastLink q (cons r k A) := by
  rcases lastLink_eq (.sibling r) A with heq | ⟨x, hx, heq⟩
  · rintro hlast
    rw [hlast, lastLink, heq] at hq
    exact hq (mem_cons_self _ _)
  · rintro hlast
    rw [hlast, lastLink, heq] at hq
    exact hq (mem_ids_of_mem_tops (List.mem_cons_of_mem r hx))

/-- The release walks past siblings that do not hold the range, whatever is behind them now. -/
lemma releaseRegionLoop_skip (start : Nat) {par : Option Id} {q : Link Id}
    (hrep : Rep h.ptrs par (h.ptrs.get q) (A.append F)) (hnodup : (q.owner ::ₘ A.ids).Nodup)
    (hget : ∀ x : Link Id, x.owner ∈ q.owner ::ₘ A.ids → x ≠ lastLink q A → h'.get x = h.get x)
    (hend : h'.end_ = h.end_) (hskip : ∀ a ∈ A.tops, h.end_ a < end_)
    (hfuel : (A.append F).ids.card < fuel) :
    ∃ n ≥ F.ids.card, releaseRegionLoop h' start end_ fuel q =
      releaseRegionLoop h' start end_ (n + 1) (lastLink q A) := by
  obtain _ | fuel := fuel
  · omega
  induction A generalizing q fuel with
  | nil => exact ⟨fuel, Nat.le_of_lt_succ hfuel, rfl⟩
  | cons a k rest _ ih =>
    obtain ⟨hq, hA⟩ := nodup_cons.mp hnodup
    obtain ⟨-, har, -, hrest, -⟩ := nodup_cons hA
    have ha : h'.get q = some a :=
      (hget q (mem_cons_self _ _) (ne_lastLink_cons hq)).trans hrep.1
    have hout : ¬ (h'.start a ≤ start ∧ end_ ≤ h'.end_ a) := by
      rw [hend]
      exact fun hin => not_le.mpr (hskip a List.mem_cons_self) hin.2
    rw [append, ids, card_cons, card_add] at hfuel
    obtain _ | fuel := fuel
    · omega
    rw [releaseRegionLoop, ha]
    dsimp only
    rw [if_neg hout]
    apply ih (q := .sibling a) hrep.2.2.2 (nodup_cons.mpr ⟨har, hrest⟩)
    · intro x hx hne
      apply hget x (mem_cons_of_mem ?_) hne
      rcases mem_cons.mp hx with hx | hx
      · exact mem_cons.mpr (.inl hx)
      · exact mem_rest hx
    · exact fun x hx => hskip x (List.mem_cons_of_mem a hx)
    · omega

lemma Below.le (hbelow : Below h new P₀ K₀ P K) : P ::ₘ K.ids ≤ P₀ ::ₘ K₀.ids := by
  have hle := (hbelow.at (T := cons P₀ K₀ .nil) .here).cons_le
  rwa [ids, ids, add_zero] at hle

/-- A release directly after the request finds the region where the request has put it. -/
lemma releaseRegionLoop_restores (tmp : Option Id)
    (hh' : h' = h.link (lastLink (.child P) A) tmp res P)
    (hbelow : Below h res P₀ K₀ P (A.append C))
    (hrep : Rep h.ptrs (some P₀) (h.ptrs.child P₀) K₀) (hnodup : (res ::ₘ P₀ ::ₘ K₀.ids).Nodup)
    (hA : ∀ a ∈ A.tops, h.end_ a < h.start res) (hrange : h.start res ≤ h.end_ res)
    (hbusy : h.busy res = true) (hfuel : K₀.ids.card < fuel) :
    releaseRegionLoop h' (h.start res) (h.end_ res) fuel (.child P₀) =
      some (h'.unlink (lastLink (.child P) A) res, true) := by
  have hstart : h'.start = h.start := hh' ▸ rfl
  have hend : h'.end_ = h.end_ := hh' ▸ rfl
  have hflag : ∀ r, h'.busy r = h.busy r := fun r => hh' ▸ rfl
  generalize hK : A.append C = K at hbelow
  induction hbelow generalizing fuel with
  | @here P K =>
    subst hK
    obtain ⟨hres, hP⟩ := nodup_cons.mp hnodup
    rw [ids_append, ← cons_add] at hres hP
    rw [mem_add, not_or] at hres
    have hkeep : ∀ x : Link Id, x.owner ∈ P ::ₘ A.ids → x ≠ lastLink (.child P) A →
        h'.get x = h.get x := by
      intro x hx hne
      rw [hh']
      apply link_get_of_ne hne
      rintro rfl
      exact hres.1 hx
    obtain ⟨n, -, hskip⟩ := releaseRegionLoop_skip (h.start res) (q := .child P) hrep
      (nodup_add.mp hP).1 hkeep hend (fun a ha => lt_of_lt_of_le (hA a ha) hrange) hfuel
    have hget : h'.get (lastLink (.child P) A) = some res := hh' ▸ link_get_self ..
    rw [hskip, releaseRegionLoop, hget]
    dsimp only
    rw [hstart, hend, hflag, hbusy, if_pos ⟨le_rfl, le_rfl⟩, if_neg (by decide),
      if_neg (not_or.mpr ⟨not_not.mpr rfl, not_not.mpr rfl⟩)]
  | @step P₀ c P A₀ k C₀ K hA₀ hfree hc hbelow ih =>
    subst hK
    obtain ⟨hres, hP⟩ := nodup_cons.mp hnodup
    rw [ids_append, ← cons_add] at hres hP
    rw [mem_add, not_or] at hres
    obtain ⟨hPA, hnc, hdisj⟩ := nodup_add.mp hP
    have hck : c ::ₘ k.ids ≤ (cons c k C₀).ids := cons_le_cons c (le_add_right _ _)
    -- the new region hangs below `c`: the pointers of this level are as they were
    have hdeep : (lastLink (.child P) A).owner ∈ (cons c k C₀).ids := by
      apply mem_of_le (hbelow.le.trans hck)
      rw [ids_append, ← cons_add]
      exact mem_add.mpr (.inl (owner_lastLink P A))
    have hkeep : ∀ x : Link Id, x.owner ∈ P₀ ::ₘ A₀.ids → h'.get x = h.get x := by
      intro x hx
      rw [hh']
      apply link_get_of_ne
      · rintro rfl
        exact disjoint_left.mp hdisj hx hdeep
      · rintro rfl
        exact hres.1 hx
    obtain ⟨n, hn, hskip⟩ := releaseRegionLoop_skip (h.start res) (q := .child P₀) hrep
      hPA (fun x hx _ => hkeep x hx) hend (fun a ha => lt_of_lt_of_le (hA₀ a ha) hrange) hfuel
    have hplace := hrep.of_append (q := .child P₀)
    have hget : h'.get (lastLink (.child P₀) A₀) = some c :=
      (hkeep _ (owner_lastLink P₀ A₀)).trans hplace.1
    rw [hskip, releaseRegionLoop, hget]
    dsimp only
    rw [hstart, hend, hflag, if_pos ⟨hc.1, hc.2.2⟩, if_pos hfree]
    apply ih hh' hplace.2.2.1
    · apply nodup_cons.mpr
      exact ⟨fun hmem => hres.2 (mem_of_le hck hmem), nodup_of_le hck hnc⟩
    · rw [ids, card_cons, card_add] at hn
      omega
    · rfl

/-- `__request_region` at a node of a well-formed tree: it leaves the tree as it was, or puts the
region in, and then a release of the same region takes exactly this one out again. -/
lemma requestRegion_spec {alloc : Option Id} (hwf : WellFormed h root T) (hat : At T P₀ K₀)
    (halloc : ∀ res ∈ alloc, res ∉ T.ids) (hfuel : T.ids.card ≤ fuel) :
    ∃ h' out, requestRegion w fuel h P₀ start n alloc = some (h', out) ∧
      ((out = none ∧ SameOn h h' T) ∨
        ∃ res, alloc = some res ∧ out = some res ∧
          (∃ (P : Id) (A C : Forest Id), At T P (A.append C) ∧
            WellFormed h' root (T.setKids P (A.append (cons res .nil C)))) ∧
          ∃ h'', releaseRegion w fuel h' P₀ start n = some (h'', true) ∧ SameOn h h'' T) := by
  cases alloc with
  | none =>
    refine ⟨h, none, rfl, .inl ⟨rfl, ?_⟩⟩
    exact ⟨fun _ _ => rfl, fun _ _ => rfl, fun _ _ => rfl, fun _ _ => rfl, fun _ _ => rfl⟩
  | some res =>
    have hres := halloc res rfl
    have hsame : SameOn h (allocRegion h res start (regionEnd w start n)) T :=
      sameOn_allocRegion hres
    rw [requestRegion]
    generalize halloc' : allocRegion h res start (regionEnd w start n) = h₁ at hsame
    have hstart : h₁.start res = start := halloc' ▸ update_self ..
    have hend : h₁.end_ res = regionEnd w start n := halloc' ▸ update_self ..
    have hflags : h₁.flags res = ioresourceBusy := halloc' ▸ update_self ..
    have hbusy : h₁.busy res = true := by
      rw [Heap.busy, hflags]
      decide
    have hchild : h₁.ptrs.child res = none := halloc' ▸ update_self ..
    have hwf₁ := hwf.congr hsame
    have hrounds : K₀.ids.card < fuel := (card_lt hat).trans_le hfuel
    rcases regionLoop_spec res hwf₁.rep hat hfuel hrounds with
      hnone | ⟨P, A, C, hbelow, -, hfits, hA, hC, hloop⟩
    · rw [hnone]
      exact ⟨h₁, none, rfl, .inl ⟨rfl, hsame⟩⟩
    · rw [hloop]
      have hatP := hbelow.at hat
      refine ⟨_, some res, rfl, .inr ⟨res, rfl, rfl, ⟨P, A, C, hatP, ?_⟩, ?_⟩⟩
      · exact hwf₁.placed hatP (fresh_of_childless hwf.nodup hres hchild) hfits hA hC
      · have hnodup : (res ::ₘ P₀ ::ₘ K₀.ids).Nodup := by
          apply nodup_cons.mpr
          exact ⟨fun hmem => hres (mem_of_le hat.cons_le hmem),
            nodup_of_le hat.cons_le hwf.nodup⟩
        have hcall := releaseRegionLoop_restores C.tops.head? rfl hbelow (hwf₁.rep.at hat) hnodup
          hA hfits.2.1 hbusy hrounds
        rw [hstart, hend] at hcall
        refine ⟨_, hcall, hsame.trans ?_⟩
        have hplace : h₁.get (lastLink (.child P) A) = C.tops.head? :=
          rep_head ((hwf₁.rep.at hatP).of_append (q := .child P))
        rw [← hplace]
        apply sameOn_link_unlink hres
        have howner := (at_append hatP hwf.nodup).1 _ (owner_lastLink P A)
        exact ne_of_mem_of_not_mem howner.1 hres

/-! ### The invariant -/

/-- A node with the children `K` is a root or one of the children of a node. -/
lemma exists_parent (hat : At T r K) :
    (∃ A C : Forest Id, T = A.append (cons r K C)) ∨
      ∃ (P : Id) (A C : Forest Id), At T P (A.append (cons r K C)) := by
  induction hat with
  | here => exact .inl ⟨.nil, _, rfl⟩
  | @under x _ _ _ _ _ ih =>
    rcases ih with ⟨A, C, rfl⟩ | ⟨P, A, C, hP⟩
    · exact .inr ⟨x, A, C, .here⟩
    · exact .inr ⟨P, A, C, .under hP⟩
  | @behind x _ kids _ _ _ ih =>
    rcases ih with ⟨A, C, rfl⟩ | ⟨P, A, C, hP⟩
    · exact .inl ⟨cons x kids A, C, rfl⟩
    · exact .inr ⟨P, A, C, .behind hP⟩

/-- A node other than the root is a child of a node. -/
lemma WellFormed.exists_parent_of_ne (hwf : WellFormed h root T) (hat : At T r K)
    (hne : r ≠ root) : ∃ (P : Id) (A C : Forest Id), At T P (A.append (cons r K C)) := by
  rcases exists_parent hat with ⟨A, C, hsplit⟩ | hP
  · have htops := hwf.tops
    rw [hsplit, tops_append] at htops
    have hmem : r ∈ [root] := htops ▸ List.mem_append_right _ List.mem_cons_self
    exact absurd (List.mem_singleton.mp hmem) hne
  · exact hP

/-- The invariant of the resource tree, for every well-formed tree `T` and a number of passes that
covers its nodes. Every call comes to an end. A call that succeeds leaves a well-formed tree, and
one that fails leaves everything as it was:

* `request_resource` of a resource that is not in the tree puts it among the children of the
  given node;
* `insert_resource` of a childless one puts it below a node `P` of the tree, with exactly the
  children of `P` that lie inside it below it, in their order;
* `release_resource` of a childless node below the root takes it out;
* `__request_region` puts its region in, and `__release_region` directly after it restores every
  field of every resource of the tree;
* `__release_region` takes out one resource. -/
theorem resource_tree_invariant (hwf : WellFormed h root T) (hfuel : T.ids.card ≤ fuel) :
    (∀ P K new N, At T P K → Fresh h T new N →
      ∃ h' r, requestResource fuel h P new = some (h', r) ∧
        ((r = 0 ∧ ∃ A C : Forest Id, K = A.append C ∧
            WellFormed h' root (T.setKids P (A.append (cons new N C)))) ∨
          (r ≠ 0 ∧ h' = h))) ∧
    (∀ P₀ new, P₀ ∈ T.ids → new ∉ T.ids → h.ptrs.child new = none →
      ∃ h' r, insertResource fuel h P₀ new = some (h', r) ∧
        ((r = 0 ∧ ∃ (P : Id) (A R D : Forest Id), At T P (A.append (R.append D)) ∧
            WellFormed h' root (T.setKids P (A.append (cons new R D))) ∧
            R.tops = (A.append (R.append D)).tops.filter (Covered h new)) ∨
          (r ≠ 0 ∧ h' = h))) ∧
    (∀ old, At T old .nil → old ≠ root →
      ∃ (h' : Heap) (P : Id) (A C : Forest Id), releaseResource fuel h old = some (h', 0) ∧
        At T P (A.append (cons old .nil C)) ∧
        WellFormed h' root (T.setKids P (A.append C))) ∧
    (∀ w P₀ start n alloc, P₀ ∈ T.ids → (∀ res ∈ alloc, res ∉ T.ids) →
      ∃ h' out, requestRegion w fuel h P₀ start n alloc = some (h', out) ∧
        ((out = none ∧ SameOn h h' T) ∨
          ∃ res, alloc = some res ∧ out = some res ∧
            (∃ (P : Id) (A C : Forest Id), At T P (A.append C) ∧
              WellFormed h' root (T.setKids P (A.append (cons res .nil C)))) ∧
            ∃ h'', releaseRegion w fuel h' P₀ start n = some (h'', true) ∧ SameOn h h'' T)) ∧
    (∀ w P₀ start n, P₀ ∈ T.ids →
      ∃ h' found, releaseRegion w fuel h P₀ start n = some (h', found) ∧
        ((found = false ∧ h' = h) ∨ (found = true ∧ ∃ (P : Id) (A : Forest Id) (r : Id)
          (k C : Forest Id), At T P (A.append (cons r k C)) ∧
            WellFormed h' root (T.setKids P (A.append C))))) := by
  refine ⟨?_, ?_, ?_, ?_, ?_⟩
  · intro P K new N hat hfresh
    exact requestResource_spec hwf hat hfresh hfuel
  · intro P₀ new hP₀ hnew hchild
    obtain ⟨K, hat⟩ := exists_at hP₀
    exact insertResource_spec hwf hat hnew hchild hfuel
  · intro old hat hne
    obtain ⟨P, A, C, hatP⟩ := hwf.exists_parent_of_ne hat hne
    obtain ⟨h', hcall, hwf'⟩ := releaseResource_spec hwf hatP hfuel
    exact ⟨h', P, A, C, hcall, hatP, hwf'⟩
  · intro w P₀ start n alloc hP₀ halloc
    obtain ⟨K, hat⟩ := exists_at hP₀
    exact requestRegion_spec hwf hat halloc hfuel
  · intro w P₀ start n hP₀
    obtain ⟨K, hat⟩ := exists_at hP₀
    exact releaseRegion_spec hwf hat hfuel

/-- A bus (0) and a bridge (1) below it with the same range. -/
def bridge : Heap where
  ptrs :=
    { parent := fun r => if r = 1 then some 0 else none
      sibling := fun _ => none
      child := fun r => if r = 0 then some 1 else none }
  start := fun _ => 0
  end_ := fun _ => 15
  flags := fun _ => 0

lemma bridge_wellFormed : WellFormed bridge 0 (cons 0 (cons 1 .nil .nil) .nil) where
  rep := ⟨rfl, rfl, ⟨rfl, rfl, rfl, rfl⟩, rfl⟩
  tops := rfl
  nodup := by decide
  ordered := ⟨by decide, by decide, by decide, ⟨by decide, by decide, by decide, trivial, trivial⟩,
    trivial⟩

theorem resource_tree_invariant_bridge :
    WellFormed bridge 0 (cons 0 (cons 1 .nil .nil) .nil) ∧
      ∃ (h' : Heap) (P : Id) (A C : Forest Id), releaseResource 2 bridge 1 = some (h', 0) ∧
        At (cons 0 (cons 1 .nil .nil) .nil) P (A.append (cons 1 .nil C)) ∧
        WellFormed h' 0 ((cons 0 (cons 1 .nil .nil) .nil).setKids P (A.append C)) :=
  ⟨bridge_wellFormed,
    (resource_tree_invariant bridge_wellFormed (by decide)).2.2.1 1 (.under .here) (by decide)⟩

/-- The precondition on the new resource matters: requesting the bus below the bridge, which has
its range, succeeds and makes each of the two a child of the other. -/
theorem requestResource_of_node_of_tree :
    WellFormed bridge 0 (cons 0 (cons 1 .nil .nil) .nil) ∧
      ∃ h', requestResource 2 bridge 1 0 = some (h', 0) ∧ h'.ptrs.child 0 = some 1 ∧
        h'.ptrs.child 1 = some 0 ∧ ∀ T, ¬ WellFormed h' 0 T := by
  refine ⟨bridge_wellFormed, bridge.link (.child 1) none 0 1, rfl, rfl, rfl, ?_⟩
  intro T hwf
  cases T with
  | nil => cases hwf.tops
  | cons r kids rest =>
    -- the bus has got a parent
    have hparent := hwf.rep.2.1
    cases hwf.rep.1
    cases hparent

end R0Kernel.Resource
