import R0Kernel.Lib.RadixTree.Runs

/-! # Preloaded nodes

`radix_tree_node_alloc` takes a node from the slab cache or, if that fails and the allocation may
not wait, from the nodes that `radix_tree_preload` put aside for the CPU. An insertion adds a level
for every step the height grows and then a node for every level of the new path, so that it may need
more than the `RADIX_TREE_MAX_PATH` nodes that are put aside.
-/

namespace R0Kernel.RadixTree

open List Option

/-! ## Allocators -/

def gfpWait : UInt32 := 0x10

def Root.rootGfpMask (root : Root) : UInt32 := root.gfpMask &&& gfpBitsMask

/-- The slab cache and the nodes of `radix_tree_preloads`, the last one first. -/
structure Supply where
  slab : Pool
  preloads : List Node

/-- `radix_tree_node_alloc` with its two sources, where `radixTreeNodeAlloc` is what
`kmem_cache_alloc` does. -/
def nodeAlloc (root : Root) (supply : Supply) : Option Node × Supply :=
  match radixTreeNodeAlloc supply.slab with
  | (some node, slab) => (some node, { supply with slab })
  | (none, slab) =>
    if root.rootGfpMask &&& gfpWait = 0 then
      match supply.preloads with
      | [] => (none, ⟨slab, []⟩)
      | node :: preloads => (some node, ⟨slab, preloads⟩)
    else (none, { supply with slab })

/-- The loop of `radix_tree_preload`, with the places that are left. -/
def preloadLoop : Nat → Supply → Int × Supply
  | 0, supply => (0, supply)
  | places + 1, supply =>
    match radixTreeNodeAlloc supply.slab with
    | (none, slab) => (-enomem, { supply with slab })
    | (some node, slab) => preloadLoop places ⟨slab, node :: supply.preloads⟩

def radixTreePreload (supply : Supply) : Int × Supply :=
  preloadLoop (radixTreeMaxPath - supply.preloads.length) supply

/-! ## The supply -/

section Supply

variable {supply supply' : Supply}

/-- The nodes of the supply are as the constructor left them, and there are no more preloads than
places for them. -/
structure Supply.Ok (supply : Supply) : Prop where
  freed : ∀ n ∈ supply.slab.freed, n.Blank
  preloads : ∀ n ∈ supply.preloads, n.Blank
  length_le : supply.preloads.length ≤ radixTreeMaxPath

lemma nodeAlloc_gives : GivesBlank nodeAlloc Supply.Ok := by
  intro root ⟨slab, preloads⟩ hok
  obtain ⟨hnode, hslab⟩ := radixTreeNodeAlloc_spec (show slab.Ok from hok.freed)
  rw [nodeAlloc]
  split
  next node slab' halloc =>
    rw [halloc] at hnode hslab
    exact ⟨hnode, hslab, hok.preloads, hok.length_le⟩
  next slab' halloc =>
    rw [halloc] at hslab
    have hnone : ∀ n ∈ (none : Option Node), n.Blank := nofun
    split
    · cases preloads with
      | nil => exact ⟨hnone, hslab, hok.preloads, hok.length_le⟩
      | cons node preloads =>
        obtain ⟨hblank, hrest⟩ := forall_mem_cons.mp hok.preloads
        exact ⟨by simpa using hblank, hslab, hrest, Nat.le_of_succ_le hok.length_le⟩
    · exact ⟨hnone, hslab, hok.preloads, hok.length_le⟩

lemma preloadLoop_spec {places : Nat} (supply : Supply) (hfreed : ∀ n ∈ supply.slab.freed, n.Blank)
    (hblank : ∀ n ∈ supply.preloads, n.Blank) (hrun : preloadLoop places supply = (0, supply')) :
    supply'.preloads.length = supply.preloads.length + places ∧
      (∀ n ∈ supply'.slab.freed, n.Blank) ∧ ∀ n ∈ supply'.preloads, n.Blank := by
  induction places generalizing supply with
  | zero =>
    cases hrun
    exact ⟨rfl, hfreed, hblank⟩
  | succ places ih =>
    have hpool : supply.slab.Ok := hfreed
    obtain ⟨hnode, hslab⟩ := radixTreeNodeAlloc_spec hpool
    rw [preloadLoop] at hrun
    split at hrun
    next slab halloc => cases hrun
    next node slab halloc =>
      rw [halloc] at hnode hslab
      have hnew : ∀ n ∈ node :: supply.preloads, n.Blank :=
        forall_mem_cons.mpr ⟨hnode node rfl, hblank⟩
      obtain ⟨hlen, hrest⟩ := ih ⟨slab, node :: supply.preloads⟩ hslab hnew hrun
      refine ⟨?_, hrest⟩
      rw [hlen, length_cons]
      omega

lemma radixTreePreload_spec (hok : supply.Ok) (hrun : radixTreePreload supply = (0, supply')) :
    supply'.Ok ∧ supply'.preloads.length = radixTreeMaxPath := by
  obtain ⟨hlen, hfreed, hblank⟩ := preloadLoop_spec supply hok.freed hok.preloads hrun
  have hle := hok.length_le
  have hfull : supply'.preloads.length = radixTreeMaxPath := by omega
  exact ⟨⟨hfreed, hblank, hfull.le⟩, hfull⟩

end Supply

/-! ## Enough nodes -/

section Enough

variable {root : Root} {supply : Supply} {index : Index} {item : Item}

/-- A preload is spent only where the slab cache has no node. -/
lemma nodeAlloc_spend (supply : Supply) (hwait : root.rootGfpMask &&& gfpWait = 0) {n : Nat}
    (hn : n + 1 ≤ supply.preloads.length) :
    ∃ node supply', nodeAlloc root supply = (some node, supply') ∧ n ≤ supply'.preloads.length := by
  obtain ⟨slab, preloads⟩ := supply
  rw [nodeAlloc]
  split
  next node slab' halloc => exact ⟨node, _, rfl, Nat.le_of_succ_le hn⟩
  next slab' halloc =>
    rw [if_pos hwait]
    cases preloads with
    | nil => cases hn
    | cons node preloads => exact ⟨node, _, rfl, Nat.le_of_succ_le_succ hn⟩

lemma extendLoop_spend (hwait : root.rootGfpMask &&& gfpWait = 0) {rounds n : Nat}
    (hn : n + rounds ≤ supply.preloads.length) :
    ∃ root' supply', extendLoop nodeAlloc rounds root supply = (true, root', supply') ∧
      root'.height = root.height + rounds ∧ root'.gfpMask = root.gfpMask ∧
      (root.rnode.ptr ≠ .null → root'.rnode.ptr ≠ .null) ∧ n ≤ supply'.preloads.length := by
  induction rounds generalizing root supply with
  | zero => exact ⟨root, supply, rfl, rfl, rfl, id, hn⟩
  | succ rounds ih =>
    obtain ⟨node, supply₁, halloc, hleft⟩ := nodeAlloc_spend supply hwait hn
    have hwait₁ : (extendOnce root node).rootGfpMask &&& gfpWait = 0 := hwait
    obtain ⟨root', supply', hrun, hheight, hmask, hne, hn'⟩ := ih hwait₁ hleft
    refine ⟨root', supply', ?_, ?_, hmask, fun _ => hne extendOnce_ne_null, hn'⟩
    · rw [extendLoop, halloc]
      exact hrun
    · rw [hheight, add_comm rounds, ← add_assoc]
      rfl

/-- The nodes that may be missing on the way down from a slot. -/
def missing (h : Nat) (slot : Slot) : Nat := if slot.isNull then h else h - 1

lemma missing_le (h : Nat) (slot : Slot) : missing h slot ≤ h := by
  rw [missing]
  split <;> omega

lemma insertLoop_spend (hwait : root.rootGfpMask &&& gfpWait = 0) {h : Nat}
    {path : List PathEntry} {slot : Slot} {error : Int} {rnode : Rnode} {supply' : Supply}
    (hn : missing h slot ≤ supply.preloads.length)
    (hrun : insertLoop nodeAlloc root index item h path slot supply =
      some (error, rnode, supply')) : error ≠ -enomem := by
  induction h generalizing path slot supply with
  | zero =>
    rw [insertLoop] at hrun
    split at hrun
    · cases hrun
      decide
    · obtain ⟨rnode, _, heq⟩ := map_eq_some_iff.mp hrun
      cases heq
      decide
  | succ h ih =>
    cases slot with
    | null =>
      obtain ⟨node, supply₁, halloc, hleft⟩ := nodeAlloc_spend (n := h) supply hwait hn
      rw [insertLoop, halloc] at hrun
      exact ih ((missing_le h _).trans hleft) hrun
    | leaf x => cases hrun
    | node r slots => exact ih ((missing_le h _).trans hn) hrun

end Enough

/-! ## The height that is needed -/

lemma lt_of_lt_extendHeight {index : Index} {fuel h k : Nat} (hk : h ≤ k)
    (hlt : k < extendHeight index fuel h) : radixTreeMaxindex k < index.toNat := by
  induction fuel generalizing h with
  | zero => exact absurd hlt (not_lt.mpr hk)
  | succ fuel ih =>
    rw [extendHeight] at hlt
    split at hlt
    next hbelow =>
      rcases hk.eq_or_lt with rfl | hk
      · exact hbelow
      · exact ih hk hlt
    next => exact absurd hlt (not_lt.mpr hk)

/-- The height that is looked for is the least one that reaches the index. -/
lemma extendHeight_least {index : Index} {h : Nat} (hh : h ≤ 6)
    (hi : radixTreeMaxindex h < index.toNat) :
    h < extendHeight index 6 (h + 1) ∧ extendHeight index 6 (h + 1) ≤ 6 ∧
      index.toNat ≤ radixTreeMaxindex (extendHeight index 6 (h + 1)) ∧
      ∀ k < extendHeight index 6 (h + 1), radixTreeMaxindex k < index.toNat := by
  have hlow : h ≠ 6 := fun heq => absurd (le_maxindex_six index) (not_le.mpr (heq ▸ hi))
  obtain ⟨hge, hle, hreach⟩ := extendHeight_spec (i := index) (show h + 1 ≤ 6 by omega)
    (Nat.le_add_left 6 _)
  refine ⟨hge, hle, hreach, fun k hk => ?_⟩
  rcases lt_or_ge h k with habove | hbelow
  · exact lt_of_lt_extendHeight habove hk
  · have hpow : 64 ^ k ≤ 64 ^ h := Nat.pow_le_pow_right (by decide) hbelow
    rw [maxindex_eq hh] at hi
    rw [maxindex_eq (hbelow.trans hh)]
    omega

/-! ## Too few nodes -/

section Starved

variable {root : Root} {preloads : List Node}

/-- A supply whose slab cache is exhausted for the next `n` calls. -/
def starved (n : Nat) (freed preloads : List Node) : Supply :=
  ⟨⟨replicate n .fail, freed⟩, preloads⟩

lemma nodeAlloc_starved (hwait : root.rootGfpMask &&& gfpWait = 0) (n : Nat)
    (freed preloads : List Node) :
    nodeAlloc root (starved (n + 1) freed preloads) =
      (preloads.head?, starved n freed preloads.tail) := by
  simp only [nodeAlloc, starved, replicate_succ, radixTreeNodeAlloc, hwait, if_true]
  cases preloads <;> rfl

/-- Every round puts a node on top whose other slots are empty. -/
lemma extendLoop_starved (freed : List Node) (hwait : root.rootGfpMask &&& gfpWait = 0)
    {rounds n : Nat} (hn : rounds + 1 ≤ n) (hlen : rounds + 1 ≤ preloads.length)
    (hblank : ∀ node ∈ preloads, node.Blank) :
    ∃ root' r slots,
      extendLoop nodeAlloc (rounds + 1) root (starved n freed preloads) =
        (true, root', starved (n - (rounds + 1)) freed (preloads.drop (rounds + 1))) ∧
      root'.height = root.height + (rounds + 1) ∧ root'.gfpMask = root.gfpMask ∧
      root'.rnode.ptr = .node r slots ∧ ∀ d, d ≠ 0 → slots d = .null := by
  induction rounds generalizing root n preloads with
  | zero =>
    obtain ⟨n, rfl⟩ := Nat.exists_eq_add_of_le' hn
    obtain ⟨node, preloads, rfl⟩ := exists_cons_of_length_pos hlen
    refine ⟨extendOnce root node, _, _, ?_, rfl, rfl, rfl, fun d hd => ?_⟩
    · rw [extendLoop, nodeAlloc_starved hwait]
      rfl
    · rw [Function.update_of_ne hd]
      exact (hblank node mem_cons_self).slots d
  | succ rounds ih =>
    obtain ⟨n, rfl⟩ := Nat.exists_eq_add_of_le' (show 1 ≤ n by omega)
    obtain ⟨node, preloads, rfl⟩ := exists_cons_of_length_pos (Nat.zero_lt_of_lt hlen)
    have hwait' : (extendOnce root node).rootGfpMask &&& gfpWait = 0 := hwait
    obtain ⟨root', r, slots, hrun, hheight, hrest⟩ := ih hwait' (Nat.le_of_succ_le_succ hn)
      (Nat.le_of_succ_le_succ hlen) fun n hn => hblank n (mem_cons_of_mem _ hn)
    refine ⟨root', r, slots, ?_, ?_, hrest⟩
    · rw [extendLoop, nodeAlloc_starved hwait, Nat.add_sub_add_right]
      exact hrun
    · rw [hheight]
      change root.height + 1 + _ = _
      omega

/-- Below an empty slot a node is needed on every level. -/
lemma insertLoop_starved (index : Index) (item : Item) (path : List PathEntry)
    (freed : List Node) (hwait : root.rootGfpMask &&& gfpWait = 0) {h n : Nat} (hn : h ≤ n)
    (hlen : preloads.length < h) (hblank : ∀ node ∈ preloads, node.Blank) :
    ∃ rnode supply, insertLoop nodeAlloc root index item h path .null
      (starved n freed preloads) = some (-enomem, rnode, supply) := by
  induction h generalizing n preloads path with
  | zero => exact absurd hlen (Nat.not_lt_zero _)
  | succ h ih =>
    obtain ⟨n, rfl⟩ := Nat.exists_eq_add_of_le' (Nat.one_le_of_lt hn)
    rw [insertLoop, nodeAlloc_starved hwait]
    cases preloads with
    | nil => exact ⟨_, _, rfl⟩
    | cons node preloads =>
      have hnull : (node.setHeight (h + 1)).slots (slotOffset index h) = .null :=
        (hblank node mem_cons_self).slots _
      simp only [head?_cons, tail_cons, hnull]
      exact ih _ (Nat.le_of_succ_le_succ hn) (Nat.lt_of_succ_lt_succ hlen)
        fun node hnode => hblank node (mem_cons_of_mem _ hnode)

end Starved

/-! ## The guarantee -/

section Guarantee

variable {root : Root} {supply : Supply} {index : Index} {item : Item}

/-- The preloads suffice for the index: the tree is empty, or it can be made high enough with no
more nodes than are put aside, those of the new path included. -/
def Covered (root : Root) (index : Index) : Prop :=
  root.rnode.ptr = .null ∨
    ∃ height, index.toNat ≤ radixTreeMaxindex height ∧ 2 * height ≤
      root.height + radixTreeMaxPath + 1

/-- What the tree is made of when the way down begins, and what is left for it. -/
lemma grow_spend (hroot : root.Ok) (hwait : root.rootGfpMask &&& gfpWait = 0)
    (hcovered : Covered root index) (hfull : supply.preloads.length = radixTreeMaxPath) :
    ∃ root' supply', grow nodeAlloc index root supply = (true, root', supply') ∧
      root'.rootGfpMask &&& gfpWait = 0 ∧
      missing root'.height root'.rnode.ptr ≤ supply'.preloads.length := by
  have hmax : radixTreeMaxPath = 6 := rfl
  have hheight := hroot.height_le
  rw [grow]
  split
  next hi =>
    obtain ⟨hge, hle, -, hbelow⟩ := extendHeight_least hheight hi
    rw [radixTreeExtend, hmax]
    by_cases hnull : root.rnode.ptr = .null
    · refine ⟨{ root with height := extendHeight index 6 (root.height + 1) }, supply,
        by simp [hnull, SlotTree.isNull], hwait, ?_⟩
      exact (missing_le _ _).trans (by rw [hfull]; exact hle)
    · obtain ⟨height, hfit, hfew⟩ := hcovered.resolve_left hnull
      have hsome : root.rnode.ptr.isNull = false := by
        simpa [← Bool.not_eq_true] using hnull
      -- no height below the one that is looked for would do
      have hleast : extendHeight index 6 (root.height + 1) ≤ height :=
        Nat.le_of_not_lt fun hlt => not_le.mpr (hbelow height hlt) hfit
      have hroom : extendHeight index 6 (root.height + 1) - 1 +
          (extendHeight index 6 (root.height + 1) - root.height) ≤ supply.preloads.length := by
        omega
      obtain ⟨root', supply', hrun, hheight', hmask, hne, hleft⟩ := extendLoop_spend hwait hroom
      refine ⟨root', supply', by simp [hsome, hrun], ?_, ?_⟩
      · rw [Root.rootGfpMask, hmask]
        exact hwait
      · have hnode : root'.rnode.ptr.isNull = false := by
          simpa [← Bool.not_eq_true] using hne hnull
        rw [missing, hnode, hheight', Nat.add_sub_cancel' (by omega)]
        exact hleft
  next hi =>
    exact ⟨root, supply, rfl, hwait, (missing_le _ _).trans (by rw [hfull]; exact hheight)⟩

lemma insert_spend (supply : Supply) (hroot : root.Ok) (hwait : root.rootGfpMask &&& gfpWait = 0)
    (hcovered : Covered root index) (hfull : supply.preloads.length = radixTreeMaxPath)
    {error : Int} {root' : Root} {supply' : Supply}
    (hrun : radixTreeInsertWith nodeAlloc index item root supply = some (error, root', supply')) :
    error ≠ -enomem := by
  obtain ⟨root₁, supply₁, hgrow, hwait₁, hleft⟩ := grow_spend hroot hwait hcovered hfull
  rw [radixTreeInsertWith, hgrow] at hrun
  split at hrun
  · cases hrun
  · obtain ⟨⟨error₁, rnode, supply₂⟩, hloop, heq⟩ := map_eq_some_iff.mp hrun
    cases heq
    exact insertLoop_spend hwait₁ hleft hloop

/-- Without the slab cache the preloads run out. -/
lemma insert_starved (hroot : root.Ok) (hwait : root.rootGfpMask &&& gfpWait = 0)
    (hitem : isIndirectPtr item = false) (hbare : ¬Covered root index) (hok : supply.Ok)
    (hfull : supply.preloads.length = radixTreeMaxPath) :
    ∃ root' supply', radixTreeInsertWith nodeAlloc index item root
        (starved 12 supply.slab.freed supply.preloads) = some (-enomem, root', supply') := by
  have hmax : radixTreeMaxPath = 6 := rfl
  obtain ⟨hsome, hmany⟩ := not_or.mp hbare
  have hheight := hroot.height_le
  have hi : radixTreeMaxindex root.height < index.toNat := by
    by_contra hle
    exact hmany ⟨root.height, Nat.le_of_not_lt hle, by omega⟩
  obtain ⟨hge, hle, hreach, hbelow⟩ := extendHeight_least hheight hi
  have hneed : root.height + 7 < 2 * extendHeight index 6 (root.height + 1) := by
    by_contra hfew
    exact hmany ⟨_, hreach, by omega⟩
  have hnull : root.rnode.ptr.isNull = false := by
    simpa [← Bool.not_eq_true] using hsome
  obtain ⟨top, htop⟩ : ∃ top, extendHeight index 6 (root.height + 1) = top + 1 :=
    ⟨_, (Nat.sub_add_cancel (by omega)).symm⟩
  obtain ⟨rounds, hrounds⟩ : ∃ rounds, top + 1 - root.height = rounds + 1 :=
    ⟨top - root.height, by omega⟩
  rw [htop] at hge hle hreach hneed hbelow
  obtain ⟨root', r, slots, hrun, hheight', hmask, hptr, hslots⟩ :=
    extendLoop_starved supply.slab.freed hwait (show rounds + 1 ≤ 12 by omega)
      (show rounds + 1 ≤ supply.preloads.length by omega) hok.preloads
  have hgrow : grow nodeAlloc index root (starved 12 supply.slab.freed supply.preloads) =
      (true, root', starved (12 - (rounds + 1)) supply.slab.freed
        (supply.preloads.drop (rounds + 1))) := by
    rw [grow, if_pos hi, radixTreeExtend, hmax, htop, hrounds]
    simp only [hnull, Bool.false_eq_true, if_false]
    exact hrun
  -- the index goes to a new slot of the new root
  have hoffset : slotOffset index top ≠ 0 := by
    rw [Ne, slotOffset_eq_zero hle hreach]
    exact not_le.mpr (hbelow top (Nat.lt_succ_self top))
  have hwait' : root'.rootGfpMask &&& gfpWait = 0 := by
    rw [Root.rootGfpMask, hmask]
    exact hwait
  have hleft : (supply.preloads.drop (rounds + 1)).length < top := by
    rw [length_drop]
    omega
  obtain ⟨rnode, supply', hloop⟩ := insertLoop_starved index item
    [⟨r, slots, slotOffset index top⟩] supply.slab.freed hwait'
    (show top ≤ 12 - (rounds + 1) by omega) hleft
    fun node hnode => hok.preloads node (mem_of_mem_drop hnode)
  refine ⟨{ root' with rnode }, supply', ?_⟩
  have hheight₁ : root'.height = top + 1 := by omega
  rw [radixTreeInsertWith, hgrow]
  simp only [hitem, Bool.false_eq_true, if_false, Bool.not_true, hheight₁, hptr, insertLoop,
    hslots _ hoffset, hloop]
  rfl

/-- After a successful `radix_tree_preload` an insertion whose allocations may not wait succeeds or
finds the index in use whatever the slab cache does, exactly if the tree is empty or the new levels
and the new path have no more than `RADIX_TREE_MAX_PATH` nodes. -/
theorem radix_tree_preload_iff (mask : UInt32) (hmask : mask &&& gfpBitsMask = mask) (t : Tree)
    (a : Abstract) (h : Reaches mask t a) (hwait : t.root.rootGfpMask &&& gfpWait = 0)
    (supply supply' : Supply) (hsupply : supply.Ok)
    (hpreload : radixTreePreload supply = (0, supply'))
    (index : Index) (item : Item) (hitem : isIndirectPtr item = false) :
    (∀ grants, ∃ error root' rest,
      radixTreeInsertWith nodeAlloc index item t.root ⟨⟨grants, supply'.slab.freed⟩,
        supply'.preloads⟩ =
        some (error, root', rest) ∧ error ≠ -enomem) ↔ Covered t.root index := by
  have hok := (h.refines hmask).ok
  obtain ⟨hsupply', hfull⟩ := radixTreePreload_spec hsupply hpreload
  constructor
  · intro hall
    by_contra hbare
    obtain ⟨root₁, rest₁, hnomem⟩ := insert_starved hok.root hwait hitem hbare hsupply' hfull
    obtain ⟨error, root', rest, hrun, hne⟩ := hall (replicate 12 .fail)
    rw [starved, hrun, some.injEq, Prod.mk.injEq] at hnomem
    exact hne hnomem.1
  · intro hcovered grants
    have hgiven : Supply.Ok ⟨⟨grants, supply'.slab.freed⟩, supply'.preloads⟩ :=
      ⟨hsupply'.freed, hsupply'.preloads, hsupply'.length_le⟩
    obtain ⟨error, root', rest, hrun, -⟩ :=
      radixTreeInsertWith_spec nodeAlloc_gives hok.root hgiven hitem index
    have hne := insert_spend ⟨⟨grants, supply'.slab.freed⟩, supply'.preloads⟩ hok.root
      hwait hcovered
      hfull hrun
    exact ⟨error, root', rest, hrun, hne⟩

/-- A tree with one item, at index zero, and the preloads of a CPU that had none. -/
lemma preload_single : ∃ t a supply, Reaches 0 t a ∧ t.root.rootGfpMask &&& gfpWait = 0 ∧
    t.root.height = 0 ∧ radixTreePreload ⟨⟨[], []⟩, []⟩ = (0, supply) ∧
    ∃ root' rest, radixTreeInsertWith nodeAlloc 4294967295 16 t.root
      ⟨⟨replicate 12 .fail, supply.slab.freed⟩, supply.preloads⟩ = some (-enomem, root', rest) := by
  have hinit : Reaches 0 (radixTreeInit 0) .empty := .init
  have hreach := hinit.step (.insert 0 8 []) ⟨by decide, by decide⟩ rfl
  exact ⟨_, _, _, hreach, by decide, rfl, rfl, _, _, rfl⟩

theorem radix_tree_preload_iff_first_level : ∃ t a supply, Reaches 0 t a ∧
    radixTreePreload ⟨⟨[], []⟩, []⟩ = (0, supply) ∧
    ∃ error root' rest, radixTreeInsertWith nodeAlloc 63 16 t.root
      ⟨⟨replicate 12 .fail, supply.slab.freed⟩, supply.preloads⟩ = some (error, root', rest) ∧
        error ≠ -enomem := by
  obtain ⟨t, a, supply, hreach, hwait, hheight, hpreload, -⟩ := preload_single
  have hcovered : Covered t.root 63 := .inr ⟨1, by decide, by rw [hheight]; decide⟩
  exact ⟨t, a, supply, hreach, hpreload,
    (radix_tree_preload_iff 0 (by decide) t a hreach hwait _ supply ⟨by simp, by simp, by decide⟩
      hpreload 63 16 (by decide)).mpr hcovered _⟩

/-- Six levels are added and five nodes are missing on the new path. -/
theorem radix_tree_preload_exhausted : ∃ t a supply, Reaches 0 t a ∧
    t.root.rootGfpMask &&& gfpWait = 0 ∧ radixTreePreload ⟨⟨[], []⟩, []⟩ = (0, supply) ∧
    supply.preloads.length = radixTreeMaxPath ∧
    ∃ root' rest, radixTreeInsertWith nodeAlloc 4294967295 16 t.root
      ⟨⟨replicate 12 .fail, supply.slab.freed⟩, supply.preloads⟩ =
        some (-enomem, root', rest) := by
  obtain ⟨t, a, supply, hreach, hwait, -, hpreload, hnomem⟩ := preload_single
  refine ⟨t, a, supply, hreach, hwait, hpreload, ?_, hnomem⟩
  exact (radixTreePreload_spec ⟨by simp, by simp, by decide⟩ hpreload).2

end Guarantee

end R0Kernel.RadixTree
