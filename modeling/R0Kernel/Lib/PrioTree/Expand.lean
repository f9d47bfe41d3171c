import R0Kernel.Lib.PrioTree.Update

/-!
# Expansion of the tree

`prio_tree_expand` puts a node on top whose heap index does not fit the index bits. With every
index bit that it adds, beyond the first one, the nodes of the tree have to be one level further
down, and it takes the top out of the tree for each of these levels.
-/

namespace R0Kernel.PrioTree

open BinaryTree SelfLinked PrioritySearch Multiset Links

variable {s s' : State} {t : BinaryTree Id} {C : List (Frame Id)} {ps : List Id} {a b x : Id}
  {l r : BinaryTree Id} {key : Id → Key} {m : Links Id} {bits fuel : Nat}

/-! ### Chains in memory -/

/-- The first and the last node of a chain. -/
def ends (ps : List Id) : Option (Id × Id) :=
  ps.head?.bind fun first => ps.getLast?.map fun last => (first, last)

lemma ends_cons (a : Id) (ps : List Id) :
    ends (a :: ps) = some (a, (a :: ps).getLast (List.cons_ne_nil a ps)) := by
  rw [ends, List.head?_cons, Option.bind_some,
    List.getLast?_eq_some_getLast (List.cons_ne_nil a ps), Option.map_some]

/-- A tree of its own is hung below the last node of a chain. -/
lemma attach_chain (h : Rep m none (chain (ps ++ [a]) nil)) (hs : Rep m none (node b l r))
    (hnodup : (↑(ps ++ [a]) + ids (node b l r)).Nodup) :
    Rep ((m.set (.child .left) a b).set .parent b a) none (chain (ps ++ [a]) (node b l r)) := by
  have hframes : ∀ t : BinaryTree Id, chain (ps ++ [a]) t =
      plug (⟨.left, a, nil⟩ :: ps.reverse.map fun a => ⟨.left, a, nil⟩) t := by
    intro t
    rw [chain_eq_plug, List.reverse_append]
    rfl
  have hids := ids_chain (ps ++ [a]) (nil : BinaryTree Id)
  rw [hframes, ids_plug, ids, zero_add, add_zero] at hids
  rw [hframes] at h ⊢
  apply h.attach hs
  rw [hids, add_comm]
  exact hnodup

/-! ### Taking out the top -/

/-- The chain `ps` has been taken out of the tree, and `t` is left of it. The tree had `bits` index
bits. -/
structure Popped (key : Id → Key) (bits : Nat) (s : State) (ps : List Id) (t : BinaryTree Id) :
    Prop where
  holds : Holds s t
  rep : Rep s.links none (chain ps nil)
  nodup : (↑ps + ids t).Nodup
  pst : Pst key (bitAt bits) 0 t
  sorted : ps.Pairwise fun a b => key b < key a
  above : ∀ a ∈ ps, ∀ x ∈ ids t, key x < key a
  valid : ∀ x ∈ (↑ps : Multiset Id) + ids t, (key x).Valid bits

/-- The order in memory of a tree from which the top is taken out. -/
lemma pst_dropTop (h : Pst key (bitAt bits) 0 (plug C t))
    (hvalid : ∀ x ∈ ids t, (key x).Valid bits) :
    Pst key (bitAt bits) 0 (plug C (dropTop (Heavier key) t)) := by
  apply h.shrink
  · intro x hx
    rw [ids_dropTop] at hx
    cases t with
    | nil => cases hx
    | node a l r => exact mem_cons_of_mem hx
  · apply h.sub.dropTop
    · exact h.agree fun _ _ _ _ i hi => absurd hi (Nat.not_lt_zero i)
    · intro n x hx y hy hagree hxn hyn
      exact heap_le_iff (hvalid x hx) (hvalid y hy) hagree hxn hyn

lemma popRoot_spec (hkey : ∀ x, keyOf (s.getIndex x) = key x)
    (hp : Popped key bits s ps (node a l r)) (hfuel : (ids (node a l r)).card ≤ fuel) :
    ∃ s' first, popRoot fuel s a (ends ps) = some (s', first, a) ∧
      ends (ps ++ [a]) = some (first, a) ∧
      Popped key bits s' (ps ++ [a]) (dropTop (Heavier key) (node a l r)) ∧
      (∀ x, s'.getIndex x = s.getIndex x) ∧
      s'.indexBits = if s'.prioTreeNode = none then 1 else s.indexBits := by
  obtain ⟨s₁, hcall, hs₁, hindex, hbits, hoff⟩ :=
    prioTreeRemove_spec (C := []) hkey hp.holds hfuel
  have hdrop : ids (dropTop (Heavier key) (node a l r)) = ids l + ids r := ids_dropTop _
  obtain ⟨hps, hnode, hdisj⟩ := nodup_add.mp hp.nodup
  obtain ⟨ha, hlr⟩ := nodup_cons.mp hnode
  have hpa : a ∉ ps := fun hmem =>
    disjoint_left.mp hdisj (mem_coe.mpr hmem) (mem_cons_self _ _)
  -- the links of the chain, of the new node and of the rest after `INIT_PRIO_TREE_NODE`
  have hrest : Rep (s₁.links.init a) none (dropTop (Heavier key) (node a l r)) :=
    hs₁.rep.init fun hmem => ha (hdrop ▸ hmem)
  have hids_chain : ids (chain ps (nil : BinaryTree Id)) = ↑ps := by rw [ids_chain, ids, add_zero]
  have hchain : Rep (s₁.links.init a) none (chain ps nil) := by
    apply (hp.rep.congr fun b hb g => ?_).init
    · rwa [hids_chain]
    · rw [hids_chain] at hb
      exact hoff b (disjoint_left.mp hdisj hb) g
  have hleaf := rep_init_self s₁.links a
  have hids : (↑(ps ++ [a]) : Multiset Id) + ids (dropTop (Heavier key) (node a l r)) =
      ↑ps + ids (node a l r) := by
    rw [hdrop, ids, ← coe_add, coe_singleton, add_assoc, singleton_add]
  have hpopped : ∀ s' : State, Rep s'.links none (dropTop (Heavier key) (node a l r)) →
      s'.prioTreeNode = s₁.prioTreeNode → Rep s'.links none (chain (ps ++ [a]) nil) →
      Popped key bits s' (ps ++ [a]) (dropTop (Heavier key) (node a l r)) := by
    intro s' hrep htop hrep'
    obtain ⟨hl, hr, -, -⟩ := hp.pst
    have hbelow : ∀ x ∈ ids l + ids r, key x < key a := by
      intro x hx
      rcases mem_add.mp hx with hx | hx
      · exact (hl x hx).1
      · exact (hr x hx).1
    refine ⟨⟨hrep, htop.trans hs₁.root, hs₁.nodup⟩, hrep', hids ▸ hp.nodup, ?_, ?_, ?_, ?_⟩
    · exact pst_dropTop (C := []) hp.pst fun x hx => hp.valid x (mem_add.mpr (.inr hx))
    · rw [List.pairwise_append]
      refine ⟨hp.sorted, List.pairwise_singleton _ _, fun p hp' b hb => ?_⟩
      rw [List.mem_singleton] at hb
      exact hb ▸ hp.above p hp' a (mem_cons_self _ _)
    · intro p hp' x hx
      rw [hdrop] at hx
      rcases List.mem_append.mp hp' with hp' | hp'
      · exact hp.above p hp' x (mem_cons_of_mem hx)
      · rw [List.mem_singleton] at hp'
        exact hp' ▸ hbelow x hx
    · rw [hids]
      exact hp.valid
  rcases List.eq_nil_or_concat' ps with rfl | ⟨qs, z, rfl⟩
  · refine ⟨s₁.initNode a, a, ?_, rfl, hpopped _ hrest rfl hleaf, hindex, hbits⟩
    rw [popRoot, hcall]
    rfl
  · -- the node is linked behind `z`
    obtain ⟨first, hends⟩ : ∃ first, ends (qs ++ [z]) = some (first, z) ∧
        ends (qs ++ [z] ++ [a]) = some (first, a) := by
      cases qs with
      | nil => exact ⟨z, rfl, rfl⟩
      | cons q qs =>
        refine ⟨q, ?_, ?_⟩
        · rw [List.cons_append, ends_cons]
          simp
        · rw [List.cons_append, List.cons_append, ends_cons]
          simp
    have hz : z ∈ qs ++ [z] := List.mem_append_right _ List.mem_cons_self
    have hlinked : Rep (((s₁.links.init a).set (.child .left) z a).set .parent a z) none
        (chain (qs ++ [z] ++ [a]) nil) := by
      have hattach := attach_chain hchain hleaf (by
        rw [ids, ids, add_zero, add_cons, add_zero]
        exact nodup_cons.mpr ⟨fun h => hpa (mem_coe.mp h), hps⟩)
      rw [chain_concat (qs ++ [z])]
      exact hattach
    refine ⟨(s₁.initNode a).hangLeft z a, first, ?_, hends.2,
      hpopped _ ?_ rfl hlinked, hindex, hbits⟩
    · rw [popRoot, hcall, hends.1]
      rfl
    · apply hrest.congr
      intro b hb g
      rw [hdrop] at hb
      rw [State.hangLeft, State.set_links, State.set_links, State.initNode_links, set_of_ne,
        set_of_ne]
      · rintro rfl
        exact disjoint_left.mp hdisj (mem_coe.mpr hz)
          (mem_cons_of_mem hb)
      · rintro rfl
        exact ha hb

lemma Popped.widen (h : Popped key bits s ps t) : Popped key bits s.widen ps t :=
  ⟨⟨h.holds.rep, h.holds.root, h.holds.nodup⟩, h.rep, h.nodup, h.pst, h.sorted, h.above, h.valid⟩

/-! ### The loop -/

/-- What the loop keeps: while a tree is left, the nodes taken out are as many as the index bits
added beyond the first; and the new heap index needs all of these bits. -/
structure Expanding (key : Id → Key) (bits maxHeapIndex : Nat) (s : State) (ps : List Id)
    (t : BinaryTree Id) : Prop extends Popped key bits s ps t where
  pos : 0 < s.indexBits
  le : s.indexBits ≤ bitsPerLong
  wide : t ≠ nil → s.indexBits = bits + 1 + ps.length
  reach : ps ≠ [] ∨ t ≠ nil → 2 ^ (bits + ps.length) ≤ maxHeapIndex

/-- A bound for the passes left to make. -/
def passesLeft (s : State) : Nat :=
  (if s.prioTreeNode = none then 0 else bitsPerLong + 1) + (bitsPerLong - s.indexBits)

lemma expandLoop_spec {maxHeapIndex rounds : Nat} (hkey : ∀ x, keyOf (s.getIndex x) = key x)
    (hmax : maxHeapIndex < 2 ^ bitsPerLong) (he : Expanding key bits maxHeapIndex s ps t)
    (hfuel : (ids t).card ≤ fuel) (hrounds : passesLeft s < rounds) :
    ∃ s' ps' t', expandLoop fuel maxHeapIndex rounds s (ends ps) = some (s', ends ps') ∧
      Expanding key bits maxHeapIndex s' ps' t' ∧ (↑ps' : Multiset Id) + ids t' = ↑ps + ids t ∧
      (∀ x, s'.getIndex x = s.getIndex x) ∧ maxHeapIndex < 2 ^ s'.indexBits := by
  induction rounds generalizing s ps t with
  | zero => cases hrounds
  | succ rounds ih =>
    have hpow : 0 < 2 ^ s.indexBits := Nat.two_pow_pos _
    rw [expandLoop, maxindex_eq he.pos he.le]
    by_cases hgrow : 2 ^ s.indexBits - 1 < maxHeapIndex
    · have hlt : s.indexBits < bitsPerLong := by
        refine lt_of_le_of_ne he.le fun heq => ?_
        rw [heq] at hgrow hpow
        omega
      rw [if_pos hgrow]
      cases t with
      | nil =>
        have htop : s.prioTreeNode = none := he.holds.root
        have hwiden : Expanding key bits maxHeapIndex s.widen ps nil :=
          ⟨he.toPopped.widen, Nat.succ_pos _, hlt, fun hne => absurd rfl hne, he.reach⟩
        have hleft : passesLeft s.widen < rounds := by
          have htop' : s.widen.prioTreeNode = none := htop
          have hwide : s.widen.indexBits = s.indexBits + 1 := rfl
          rw [passesLeft] at hrounds
          rw [passesLeft, if_pos htop']
          omega
        rw [htop]
        exact ih (s := s.widen) hkey hwiden hfuel hleft
      | node a l r =>
        have htop : s.prioTreeNode = some a := he.holds.root
        have hwide := he.wide nofun
        obtain ⟨s₁, first, hcall, hends, hp, hindex, hbits⟩ :=
          popRoot_spec (s := s.widen) hkey he.toPopped.widen hfuel
        have hbits' : s₁.indexBits = if s₁.prioTreeNode = none then 1 else s.indexBits + 1 :=
          hbits
        have hnext : Expanding key bits maxHeapIndex s₁ (ps ++ [a])
            (dropTop (Heavier key) (node a l r)) := by
          refine ⟨hp, ?_, ?_, ?_, ?_⟩
          · rw [hbits']
            split <;> omega
          · rw [hbits']
            split <;> omega
          · intro hne
            have hsome : s₁.prioTreeNode ≠ none := by
              rw [hp.holds.root]
              exact mt top_eq_none.mp hne
            rw [hbits', if_neg hsome, List.length_append, List.length_singleton]
            omega
          · rw [List.length_append, List.length_singleton, ← add_assoc,
              add_right_comm, ← hwide]
            omega
        have hleft : passesLeft s₁ < rounds := by
          rw [passesLeft, if_neg (by rw [htop]; nofun)] at hrounds
          rw [passesLeft, hbits']
          split <;> omega
        have hcard : (ids (dropTop (Heavier key) (node a l r))).card ≤ fuel := by
          rw [ids, card_cons] at hfuel
          rw [ids_dropTop, below]
          omega
        have hkey₁ : ∀ x, keyOf (s₁.getIndex x) = key x := fun x => by
          rw [hindex]
          exact hkey x
        obtain ⟨s', ps', t', hloop, he', hids, hindex', hfit⟩ :=
          ih hkey₁ hnext hcard hleft
        rw [htop]
        dsimp only
        rw [hcall, Option.bind_some]
        rw [← hends]
        refine ⟨s', ps', t', hloop, he', hids.trans ?_, fun x => (hindex' x).trans (hindex x),
          hfit⟩
        rw [ids_dropTop, below, ids, ← coe_add, coe_singleton, add_assoc,
          singleton_add]
    · rw [if_neg hgrow]
      exact ⟨s, ps, t, rfl, he, rfl, fun _ => rfl, by omega⟩

/-! ### The new top -/

/-- The tree in memory is a priority search tree for the index bits. -/
structure TreeInv (s : State) (t : BinaryTree Id) : Prop where
  holds : Holds s t
  pos : 0 < s.indexBits
  le : s.indexBits ≤ bitsPerLong
  valid : ∀ x ∈ ids t, (keyOf (s.getIndex x)).Valid s.indexBits
  pst : Pst (fun x => keyOf (s.getIndex x)) (bitAt s.indexBits) 0 t

section

variable (hp : Popped key bits s ps t)

include hp

/-- `node->left = first; first->parent = node`, if nodes were taken out. -/
lemma putOnTop_chain (hx : x ∉ (↑ps : Multiset Id) + ids t) :
    ∃ m, Rep m none (chain (x :: ps) nil) ∧ Rep m none t ∧
      hangChain (s.initNode x) x (ends ps) = { s with links := m } := by
  rw [mem_add, not_or] at hx
  obtain ⟨hps, -, hdisj⟩ := nodup_add.mp hp.nodup
  have hrest := hp.holds.rep.init hx.2
  have hleaf : Rep (s.links.init x) none (chain ([] ++ [x]) nil) := rep_init_self ..
  cases ps with
  | nil => exact ⟨s.links.init x, hleaf, hrest, rfl⟩
  | cons p ps =>
    have hids : ids (chain (p :: ps) nil) = ↑(p :: ps) := by rw [ids_chain, ids, add_zero]
    have hchain : Rep (s.links.init x) none (chain (p :: ps) nil) := by
      apply hp.rep.init
      rw [hids]
      exact hx.1
    refine ⟨((s.links.init x).set (.child .left) x p).set .parent p x, ?_, ?_, ?_⟩
    · refine attach_chain hleaf hchain ?_
      rw [← chain, hids]
      exact nodup_cons.mpr ⟨hx.1, hps⟩
    · apply hrest.congr
      intro b hb g
      rw [set_of_ne, set_of_ne]
      · rintro rfl
        exact hx.2 hb
      · rintro rfl
        exact disjoint_right.mp hdisj hb List.mem_cons_self
    · rfl

lemma putOnTop_spec (hx : x ∉ (↑ps : Multiset Id) + ids t) :
    Holds (putOnTop s x (ends ps)) (chain (x :: ps) t) ∧
      (∀ y, (putOnTop s x (ends ps)).getIndex y = s.getIndex y) ∧
      (putOnTop s x (ends ps)).indexBits = s.indexBits := by
  obtain ⟨m, hchain, hrest, heq⟩ := putOnTop_chain hp hx
  have hnodup : (ids (chain (x :: ps) t)).Nodup := by
    rw [ids_chain, ← cons_coe, cons_add]
    exact nodup_cons.mpr ⟨hx, hp.nodup⟩
  have hlast : lastOf x (ends ps) = (x :: ps).getLast (List.cons_ne_nil x ps) := by
    cases ps with
    | nil => rfl
    | cons p ps =>
      exact (List.getLast_cons (List.cons_ne_nil p ps)).symm
  unfold putOnTop
  rw [heq, hlast, hp.holds.root]
  cases t with
  | nil => exact ⟨⟨hchain, rfl, hnodup⟩, fun _ => rfl, rfl⟩
  | node a l r =>
    refine ⟨⟨?_, rfl, hnodup⟩, fun _ => rfl, rfl⟩
    have hsplit := List.dropLast_append_getLast (List.cons_ne_nil x ps)
    rw [← hsplit] at hchain
    rw [ids_chain, ← hsplit] at hnodup
    have hattach := attach_chain hchain hrest hnodup
    rw [hsplit] at hattach
    exact hattach

lemma pst_putOnTop {bits' : Nat} (hreach : ps ≠ [] ∨ t ≠ nil → bits + ps.length < bits')
    (hwide : t ≠ nil → bits' = bits + 1 + ps.length)
    (hx : ∀ y ∈ (↑ps : Multiset Id) + ids t, key y < key x) :
    Pst key (bitAt bits') 0 (chain (x :: ps) t) := by
  have hmem : ∀ y, y ∈ ps ∨ y ∈ ids t → y ∈ (↑ps : Multiset Id) + ids t := by
    intro y hy
    rwa [mem_add]
  have hclear : ∀ y, y ∈ ps ∨ y ∈ ids t → ∀ i, i < 1 + ps.length →
      bitAt bits' i (key y) = false := by
    intro y hy i hi
    apply bitAt_widen_high (hp.valid y (hmem y hy))
    have hlt : bits + ps.length < bits' := by
      apply hreach
      rcases hy with hy | hy
      · exact .inl (List.ne_nil_of_mem hy)
      · right
        rintro rfl
        cases hy
    omega
  refine ⟨?_, fun y hy => (nomatch hy), ?_, trivial⟩
  · intro y hy
    rw [ids_chain, mem_add] at hy
    exact ⟨hx y (hmem y hy), hclear y hy 0 (by omega)⟩
  · apply pst_chain hp.sorted hp.above
    · exact fun y hy i _ hi => hclear y hy i (by omega)
    · cases t with
      | nil => trivial
      | node a l r =>
        have hbits := hwide nofun
        have hshift : Pst key (bitAt bits') (bits' - bits + 0) (node a l r) :=
          hp.pst.shift fun y _ i => bitAt_widen (by omega) i (key y)
        rwa [show bits' - bits + 0 = 0 + 1 + ps.length by omega] at hshift

end

/-- `prio_tree_expand`, called for an empty tree or a heap index that does not fit. -/
lemma prioTreeExpand_spec (hinv : TreeInv s t) (hx : x ∉ ids t)
    (hle : (s.getIndex x).1 ≤ (s.getIndex x).2)
    (hfit : t ≠ nil → prioTreeMaxindex s.indexBits < (s.getIndex x).2)
    (hfuel : (ids t).card + 2 * bitsPerLong + 2 ≤ fuel) :
    ∃ s' t', prioTreeExpand fuel s x (s.getIndex x).2 = some (s', x) ∧ TreeInv s' t' ∧
      ids t' = x ::ₘ ids t ∧ ∀ y, s'.getIndex y = s.getIndex y := by
  have hmax : (s.getIndex x).2 < 2 ^ bitsPerLong := by
    rw [State.getIndex]
    split
    · exact BitVec.isLt _
    · exact BitVec.isLt _
  rw [maxindex_eq hinv.pos hinv.le] at hfit
  -- the state of the loop after the first test
  obtain ⟨s₀, hs₀, hindex₀, he⟩ : ∃ s₀,
      (if prioTreeMaxindex s.indexBits < (s.getIndex x).2 then s.widen else s) = s₀ ∧
      (∀ y, s₀.getIndex y = s.getIndex y) ∧
      Expanding (fun y => keyOf (s.getIndex y)) s.indexBits (s.getIndex x).2 s₀ [] t := by
    have hp : Popped (fun y => keyOf (s.getIndex y)) s.indexBits s [] t :=
      ⟨hinv.holds, trivial, by rw [coe_nil, zero_add]; exact hinv.holds.nodup, hinv.pst,
        .nil, nofun, by rw [coe_nil, zero_add]; exact hinv.valid⟩
    rw [maxindex_eq hinv.pos hinv.le]
    by_cases hgrow : 2 ^ s.indexBits - 1 < (s.getIndex x).2
    · have hlt : s.indexBits < bitsPerLong := by
        refine lt_of_le_of_ne hinv.le fun heq => ?_
        rw [heq] at hgrow
        omega
      refine ⟨s.widen, if_pos hgrow, fun _ => rfl, hp.widen, Nat.succ_pos _, hlt, fun _ => rfl, ?_⟩
      rw [List.length_nil, add_zero]
      omega
    · have hnil : t = nil := by
        by_contra hne
        exact hgrow (hfit hne)
      refine ⟨s, if_neg hgrow, fun _ => rfl, hp, hinv.pos, hinv.le, fun hne => absurd hnil hne, ?_⟩
      rintro (hne | hne)
      · exact absurd rfl hne
      · exact absurd hnil hne
  have hkey₀ : ∀ y, keyOf (s₀.getIndex y) = keyOf (s.getIndex y) := fun y => by rw [hindex₀]
  have hrounds : passesLeft s₀ < fuel := by
    rw [passesLeft]
    split <;> omega
  have hcard : (ids t).card ≤ fuel := by omega
  obtain ⟨s₁, ps, t', hloop, he', hids, hindex₁, hfits⟩ :=
    expandLoop_spec hkey₀ hmax he hcard hrounds
  rw [coe_nil, zero_add] at hids
  have hx' : x ∉ (↑ps : Multiset Id) + ids t' := hids ▸ hx
  obtain ⟨hholds, hindex₂, hbits₂⟩ := putOnTop_spec he'.toPopped hx'
  have hindex : ∀ y, (putOnTop s₁ x (ends ps)).getIndex y = s.getIndex y := fun y => by
    rw [hindex₂, hindex₁, hindex₀]
  have hall : ids (chain (x :: ps) t') = x ::ₘ ids t := by
    rw [ids_chain, ← cons_coe, cons_add, hids]
  -- the new top needs more index bits than the nodes below it
  have hreach : ps ≠ [] ∨ t' ≠ nil → s.indexBits + ps.length < s₁.indexBits := by
    intro hne
    exact (Nat.pow_lt_pow_iff_right (by decide : 1 < 2)).mp ((he'.reach hne).trans_lt hfits)
  have hold : ∀ y ∈ (↑ps : Multiset Id) + ids t',
      keyOf (s.getIndex y) < keyOf (s.getIndex x) ∧ s.indexBits < s₁.indexBits := by
    intro y hy
    have hne : ps ≠ [] ∨ t' ≠ nil := by
      rw [mem_add] at hy
      rcases hy with hy | hy
      · exact .inl (List.ne_nil_of_mem hy)
      · right
        rintro rfl
        cases hy
    have hlt := (he'.valid y hy).lt
    have hpow' := Nat.pow_le_pow_right Nat.two_pos (Nat.le_add_right s.indexBits ps.length)
    have hge := he'.reach hne
    refine ⟨key_lt_iff.mpr (.inl (lt_of_lt_of_le hlt (hpow'.trans hge))), ?_⟩
    have := hreach hne
    omega
  have hpst := pst_putOnTop he'.toPopped hreach he'.wide fun y hy => (hold y hy).1
  refine ⟨putOnTop s₁ x (ends ps), chain (x :: ps) t', ?_, ⟨hholds, ?_, ?_, ?_, ?_⟩, hall, hindex⟩
  · rw [prioTreeExpand]
    have hnone : (none : Option (Id × Id)) = ends [] := rfl
    rw [hs₀, hnone, hloop]
    rfl
  · rw [hbits₂]
    exact he'.pos
  · rw [hbits₂]
    exact he'.le
  · intro y hy
    rw [hbits₂, hindex]
    rw [hall, mem_cons, ← hids] at hy
    rcases hy with rfl | hy
    · exact ⟨hle, hfits⟩
    · exact (he'.valid y hy).mono (hold y hy).2.le
  · rw [hbits₂, funext fun y => congrArg keyOf (hindex y)]
    exact hpst

end R0Kernel.PrioTree
