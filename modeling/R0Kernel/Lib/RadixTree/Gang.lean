import R0Kernel.Foundation.Machine
import R0Kernel.Foundation.Masks
import R0Kernel.Foundation.Scan
import R0Kernel.Lib.RadixTree.Runs

/-! # Gang lookups

`radix_tree_gang_lookup` goes down from the root for every bottom node it takes items from. A round
moves ahead over indices without an item, or takes the items it passes, so the results are a scan of
the indices up to the place the next round starts from.
-/

namespace R0Kernel.RadixTree

open List UInt32

local instance neZeroMapSize : NeZero 64 := ⟨by decide⟩

/-! ## The rounds -/

/-- The index behind what is below the current slot of a node above `level` others. -/
def nextSlotIndex (index : Index) (level : Nat) : Index :=
  let shift := ofNat (level * radixTreeMapShift)
  (index &&& ~~~((1 <<< shift) - 1)) + (1 <<< shift)

/-- The loop over the slots of a node, with the slots that are left. -/
def seekSlot (present : Offset → Bool) (level : Nat) : Nat → Index → Index × Option Offset
  | 0, index => (index, none)
  | rounds + 1, index =>
    let i := Fin.ofNat 64 (63 - rounds)
    if present i then (index, some i)
    else
      let index := nextSlotIndex index level
      if index = 0 then (index, none) else seekSlot present level rounds index

/-- The loop over the slots of a bottom node, with the slots and the places that are left. -/
def grabItems (wanted : Offset → Bool) (slots : Offset → Slot) :
    (rounds room : Nat) → Index → Option (List Item × Index)
  | 0, _, index => some ([], index)
  | rounds + 1, room, index =>
    let i := Fin.ofNat 64 (63 - rounds)
    let index := index + 1
    if !wanted i then grabItems wanted slots rounds room index
    else
      match slots i with
      | .null => grabItems wanted slots rounds room index
      | .leaf x =>
        if room = 1 then some ([x], index)
        else (grabItems wanted slots rounds (room - 1) index).map
          fun (found, index) => (x :: found, index)
      | .node _ _ => none

/-- `__lookup`. -/
def lookupItems (maxItems : Nat) : Nat → Slot → Index → Option (List Item × Index)
  | 0, _, index => some ([], index)
  | 1, .node _ slots, index =>
    grabItems (fun _ => true) slots (64 - (slotOffset index 0).val) maxItems index
  | height + 2, .node _ slots, index =>
    match seekSlot (fun i => !(slots i).isNull) (height + 1)
        (64 - (slotOffset index (height + 1)).val) index with
    | (index, none) => some ([], index)
    | (index, some i) =>
      if (slots i).isNull then some ([], index)
      else lookupItems maxItems (height + 1) (slots i) index
  | _, _, _ => none

/-- `__lookup_tag`. -/
def lookupTagged (tag : Tag) (maxItems : Nat) : Nat → Slot → Index → Option (List Item × Index)
  | 0, _, index => some ([], index)
  | height + 1, .node r slots, index =>
    match seekSlot (r.tagGet tag) height (64 - (slotOffset index height).val) index with
    | (index, none) => some ([], index)
    | (index, some i) =>
      if height = 0 then
        grabItems (r.tagGet tag) slots (64 - (slotOffset index 0).val) maxItems index
      else if (slots i).isNull then some ([], index)
      else lookupTagged tag maxItems height (slots i) index
  | _, _, _ => none

def gangStep (lookup : Nat → Index → Option (List Item × Index)) (maxIndex maxItems : Nat)
    (s : Index × List Item) : (Index × List Item) ⊕ Option (List Item) :=
  if maxItems ≤ s.2.length then .inr (some s.2)
  else if maxIndex < s.1.toNat then .inr (some s.2)
  else
    match lookup (maxItems - s.2.length) s.1 with
    | none => .inr none
    | some (found, nextIndex) =>
      if nextIndex = 0 then .inr (some (s.2 ++ found)) else .inl (nextIndex, s.2 ++ found)

/-- What the two gang lookups share, with a bound on the rounds. -/
def gangLookup (lookup : Nat → Nat → Slot → Index → Option (List Item × Index)) (root : Root)
    (firstIndex : Index) (maxItems fuel : Nat) : Option (Option (List Item)) :=
  if root.rnode.ptr.isNull then some (some [])
  else if !root.rnode.indirect then
    if 0 < firstIndex then some (some []) else some ((slotItem root.rnode.ptr).map Option.toList)
  else
    match root.rnode.ptr with
    | .node r _ =>
      Machine.run (gangStep (fun maxItems => lookup maxItems r.height root.rnode.ptr)
        (radixTreeMaxindex r.height) maxItems) fuel (firstIndex, [])
    | _ => some none

def radixTreeGangLookup (root : Root) (firstIndex : Index) (maxItems fuel : Nat) :
    Option (Option (List Item)) :=
  gangLookup lookupItems root firstIndex maxItems fuel

def radixTreeGangLookupTag (root : Root) (firstIndex : Index) (maxItems : Nat) (tag : Tag)
    (fuel : Nat) : Option (Option (List Item)) :=
  if !root.rootTagGet tag then some (some [])
  else gangLookup (lookupTagged tag) root firstIndex maxItems fuel

open SlotTree Scan

/-! ## Indices as numbers -/

section Indices

variable {level n : Nat} {index : Index}

lemma toNat_ofNat_of_lt (hn : n < 2 ^ 32) : (ofNat n).toNat = n :=
  toNat_ofNat_of_lt' hn

lemma slotOffset_ofNat_val (hn : n < 2 ^ 32) :
    (slotOffset (ofNat n) level).val = n / 64 ^ level % 64 := by
  rw [slotOffset_val, toNat_ofNat_of_lt hn]

lemma div_pow_succ (n level : Nat) : n / 64 ^ (level + 1) = n / 64 ^ level / 64 := by
  rw [pow_succ, Nat.div_div_eq_div_mul]

/-- The number behind what is below the current slot. -/
def slotEnd (n level : Nat) : Nat := (n / 64 ^ level + 1) * 64 ^ level

lemma lt_slotEnd (n level : Nat) : n < slotEnd n level := by
  have hpos : 0 < 64 ^ level := Nat.pow_pos (by decide)
  rw [slotEnd, Nat.mul_comm]
  exact Nat.lt_mul_div_succ n hpos

lemma slotEnd_le (hlevel : level ≤ 5) (hn : n < 2 ^ 32) : slotEnd n level ≤ 2 ^ 32 := by
  have hsplit : (2 : Nat) ^ 32 = 2 ^ (32 - level * 6) * 64 ^ level := by
    rw [show 64 ^ level = 2 ^ (level * 6) by rw [Nat.mul_comm, Nat.pow_mul], ← pow_add]
    congr 1
    omega
  have hdiv : n / 64 ^ level < 2 ^ (32 - level * 6) := by
    rw [Nat.div_lt_iff_lt_mul (Nat.pow_pos (by decide)), ← hsplit]
    exact hn
  rw [hsplit]
  exact Nat.mul_le_mul_right _ hdiv

lemma nextSlotIndex_eq (hlevel : level ≤ 5) (index : Index) :
    nextSlotIndex index level = ofNat (slotEnd index.toNat level) := by
  have hpow : 2 ^ (level * 6) = 64 ^ level := by rw [Nat.mul_comm, Nat.pow_mul]
  have hlt : level * 6 < 32 := by omega
  have hone := Masks.toNat_one_shiftLeft hlt
  apply UInt32.toNat_inj.mp
  rw [nextSlotIndex, radixTreeMapShift, UInt32.toNat_add, Masks.toNat_and_not hone hlt.le,
    hone, hpow, UInt32.toNat_ofNat', slotEnd, Nat.add_mul, Nat.one_mul]

/-- The numbers up to there are below the same slot. -/
lemma div_eq_of_lt_slotEnd {j : Nat} (hj : n ≤ j) (hlt : j < slotEnd n level) :
    j / 64 ^ level = n / 64 ^ level := by
  have hpos : 0 < 64 ^ level := Nat.pow_pos (by decide)
  apply Nat.le_antisymm
  · exact Nat.le_of_lt_succ ((Nat.div_lt_iff_lt_mul hpos).mpr hlt)
  · exact Nat.div_le_div_right hj

lemma slotEnd_div (n level : Nat) : slotEnd n level / 64 ^ level = n / 64 ^ level + 1 :=
  Nat.mul_div_cancel _ (Nat.pow_pos (by decide))

end Indices

/-! ## The slots of a node -/

section Slots

variable {P : Nat → Option Item} {level : Nat} {wanted : Offset → Bool} {slots : Offset → Slot}

/-- The loop stops at a slot that is present, or behind the last slot; what it passes has no
result. -/
lemma seekSlot_spec (present : Offset → Bool) (hlevel : level ≤ 5) {rounds : Nat} {index : Index}
    (hrounds : (slotOffset index level).val + rounds = 64)
    (hnone : ∀ j < 2 ^ 32, j / 64 ^ (level + 1) = index.toNat / 64 ^ (level + 1) →
      present (slotOffset (ofNat j) level) = false → P j = none) :
    (∃ index', seekSlot present level rounds index = (index', some (slotOffset index' level)) ∧
        index.toNat ≤ index'.toNat ∧ present (slotOffset index' level) = true ∧
        index'.toNat / 64 ^ (level + 1) = index.toNat / 64 ^ (level + 1) ∧
        scan P index.toNat index'.toNat = []) ∨
      ∃ stop, seekSlot present level rounds index = (ofNat stop, none) ∧
        index.toNat < stop ∧ stop ≤ 2 ^ 32 ∧ scan P index.toNat stop = [] := by
  induction rounds generalizing index with
  | zero =>
    omega
  | succ rounds ih =>
    have hslot : Fin.ofNat 64 (63 - rounds) = slotOffset index level := by
      apply Fin.ext
      simp only [Fin.ofNat]
      omega
    rw [seekSlot, hslot]
    by_cases hpresent : present (slotOffset index level) = true
    · rw [if_pos hpresent]
      exact .inl ⟨index, rfl, le_rfl, hpresent, rfl, scan_self ..⟩
    · rw [if_neg hpresent, nextSlotIndex_eq hlevel]
      have habsent := Bool.eq_false_of_not_eq_true hpresent
      have hindex := index.toNat_lt
      have hstop := slotEnd_le hlevel hindex
      have hlt := lt_slotEnd index.toNat level
      have hskip : scan P index.toNat (slotEnd index.toNat level) = [] := by
        apply scan_eq_nil
        intro j hj hjlt
        have hdiv := div_eq_of_lt_slotEnd hj hjlt
        have hsame : slotOffset (ofNat j) level = slotOffset index level := by
          apply Fin.ext
          rw [slotOffset_ofNat_val (hjlt.trans_le hstop), slotOffset_val, hdiv]
        refine hnone j (hjlt.trans_le hstop) ?_ (hsame ▸ habsent)
        rw [div_pow_succ, div_pow_succ, hdiv]
      dsimp only
      split
      next hzero => exact .inr ⟨_, rfl, hlt, hstop, hskip⟩
      next hne =>
        have hroom : slotEnd index.toNat level < 2 ^ 32 := by
          refine hstop.lt_of_ne fun heq => hne ?_
          rw [heq]
          rfl
        have hnext := toNat_ofNat_of_lt hroom
        cases rounds with
        | zero => exact .inr ⟨_, rfl, hlt, hstop, hskip⟩
        | succ rounds =>
          have hoffset : (slotOffset (ofNat (slotEnd index.toNat level)) level).val =
              (slotOffset index level).val + 1 := by
            rw [slotOffset_val] at hrounds ⊢
            rw [hnext, slotEnd_div, slotOffset_val]
            omega
          have hblock : slotEnd index.toNat level / 64 ^ (level + 1) =
              index.toNat / 64 ^ (level + 1) := by
            rw [slotOffset_val] at hrounds
            rw [div_pow_succ, div_pow_succ, slotEnd_div]
            omega
          have hleft : (slotOffset (ofNat (slotEnd index.toNat level)) level).val +
              (rounds + 1) = 64 := by omega
          have hrest := ih hleft (by rw [hnext, hblock]; exact hnone)
          rw [hnext] at hrest
          rcases hrest with ⟨index', hrun, hle, hfound, hsame, hscan⟩ | ⟨stop, hrun,
            hle, htop, hscan⟩
          · refine .inl ⟨index', hrun, hlt.le.trans hle, hfound, hsame.trans hblock, ?_⟩
            rw [scan_append hlt.le hle, hskip, hscan, append_nil]
          · refine .inr ⟨stop, hrun, hlt.trans hle, htop, ?_⟩
            rw [scan_append hlt.le hle.le, hskip, hscan, append_nil]

/-- What a slot of a bottom node holds. -/
def leafOf : Slot → Option Item
  | .leaf x => some x
  | _ => none

/-- The loop takes what it passes, until there is no place left. -/
lemma grabItems_spec {block rounds room n : Nat} (hslots : ∀ d, Inv NodeOk 0 (slots d))
    (hP : ∀ j, j / 64 = block → P j =
      if wanted (slotOffset (ofNat j) 0) then leafOf (slots (slotOffset (ofNat j) 0))
      else none)
    (hn : n + rounds = (block + 1) * 64) (hrounds : rounds ≤ 64) (htop : n + rounds ≤ 2 ^ 32)
    (hroom : 1 ≤ room) :
    ∃ stop, grabItems wanted slots rounds room (ofNat n) =
        some (scan P n stop, ofNat stop) ∧
      n ≤ stop ∧ (0 < rounds → n < stop) ∧ stop ≤ 2 ^ 32 ∧ (scan P n stop).length ≤ room := by
  induction rounds generalizing n room with
  | zero => exact ⟨n, by simp [grabItems], le_rfl, by simp, htop, by simp⟩
  | succ rounds ih =>
    have hlt : n < 2 ^ 32 := by omega
    have hslot : Fin.ofNat 64 (63 - rounds) = slotOffset (ofNat n) 0 := by
      apply Fin.ext
      rw [slotOffset_ofNat_val hlt]
      simp only [Fin.ofNat, pow_zero, Nat.div_one]
      omega
    have hnext : ofNat n + 1 = ofNat (n + 1) := by
      rw [ofNat_add]
      rfl
    have hitem := hP n (by omega)
    -- a round that takes nothing
    have hpass : P n = none → ∃ stop,
        grabItems wanted slots rounds room (ofNat (n + 1)) =
          some (scan P n stop, ofNat stop) ∧
        n ≤ stop ∧ (0 < rounds + 1 → n < stop) ∧ stop ≤ 2 ^ 32 ∧ (scan P n stop).length ≤ room := by
      intro hnone
      obtain ⟨stop, hrun, hle, -, hstop, hlen⟩ := ih (n := n + 1) (by omega) (by omega)
        (by omega) hroom
      have hscan : scan P n stop = scan P (n + 1) stop := by
        rw [scan_cons hle, hnone]
        rfl
      exact ⟨stop, by rw [hrun, hscan], by omega, fun _ => hle, hstop, by rw [hscan]; exact hlen⟩
    rw [grabItems, hslot, hnext]
    cases hwanted : wanted (slotOffset (ofNat n) 0) with
    | false =>
      rw [hwanted] at hitem
      exact hpass hitem
    | true =>
      rw [hwanted] at hitem
      rcases (hslots (slotOffset (ofNat n) 0)).cases_zero with hempty | ⟨x, hx⟩
      · rw [hempty] at hitem ⊢
        exact hpass hitem
      · rw [hx] at hitem ⊢
        have hone : scan P n (n + 1) = [x] := by
          rw [scan_cons (Nat.lt_succ_self n), hitem, scan_self]
          rfl
        by_cases hlast : room = 1
        · refine ⟨n + 1, ?_, by omega, by omega, by omega, ?_⟩
          · simp [hlast, hone]
          · rw [hone]
            exact hroom
        · have hroom' : 1 ≤ room - 1 := by omega
          obtain ⟨stop, hrun, hle, -, hstop, hlen⟩ :=
            ih (n := n + 1) (by omega) (by omega) (by omega) hroom'
          have hscan : scan P n stop = x :: scan P (n + 1) stop := by
            rw [scan_append (Nat.le_succ n) hle, hone]
            rfl
          refine ⟨stop, ?_, by omega, fun _ => hle, hstop, ?_⟩
          · simp only [Bool.not_true, Bool.false_eq_true, if_false, hlast, hrun, hscan,
              Option.map_some]
          · rw [hscan, length_cons]
            omega

end Slots

/-! ## Going down -/

section Down

variable {P : Nat → Option Item} {pick : Option Item × Marks → Option Item} {h n maxItems : Nat}
  {b : Marks} {slot : Slot} {r : NodeInfo} {slots : Offset → Slot} {index : Index} {tag : Tag}

/-- The results for the indices that share their upper offsets with `n` are below the slot. -/
structure Under (P : Nat → Option Item) (pick : Option Item × Marks → Option Item) (h : Nat)
    (b : Marks) (slot : Slot) (n : Nat) : Prop where
  held : Held h b slot
  reads : ∀ j < 2 ^ 32, j / 64 ^ h = n / 64 ^ h →
    P j = pick (read slotMarks untagged b slot (digits h (ofNat j)))

lemma Under.of_div_eq {m : Nat} (hunder : Under P pick h b slot n)
    (heq : m / 64 ^ h = n / 64 ^ h) : Under P pick h b slot m :=
  ⟨hunder.held, fun j hj hdiv => hunder.reads j hj (hdiv.trans heq)⟩

lemma Under.read_child (hunder : Under P pick (h + 1) b (.node r slots) n) {j : Nat}
    (hj : j < 2 ^ 32) (hdiv : j / 64 ^ (h + 1) = n / 64 ^ (h + 1)) :
    P j = pick (read slotMarks untagged (slotMarks r (slotOffset (ofNat j) h))
      (slots (slotOffset (ofNat j) h)) (digits h (ofNat j))) := by
  rw [hunder.reads j hj hdiv, digits, read_node_cons]

lemma Under.held_child (hunder : Under P pick (h + 1) b (.node r slots) n) (d : Offset) :
    Held h (slotMarks r d) (slots d) := by
  obtain ⟨hok, hslots⟩ := hunder.held.inv
  exact ⟨hslots d, hok.marks d⟩

lemma Under.child (hunder : Under P pick (h + 1) b (.node r slots) index.toNat) :
    Under P pick h (slotMarks r (slotOffset index h)) (slots (slotOffset index h)) index.toNat := by
  refine ⟨hunder.held_child _, fun j hj hdiv => ?_⟩
  have hsame : slotOffset (ofNat j) h = slotOffset index h := by
    apply Fin.ext
    rw [slotOffset_ofNat_val hj, slotOffset_val, hdiv]
  have hblock : j / 64 ^ (h + 1) = index.toNat / 64 ^ (h + 1) := by
    rw [div_pow_succ, div_pow_succ, hdiv]
  rw [hunder.read_child hj hblock, hsame]

/-- The outcome of a round: the results up to where the next one starts. -/
def Scanned (P : Nat → Option Item) (index : Index) (room : Nat)
    (outcome : Option (List Item × Index)) : Prop :=
  ∃ stop, outcome = some (scan P index.toNat stop, ofNat stop) ∧ index.toNat < stop ∧
    stop ≤ 2 ^ 32 ∧ (scan P index.toNat stop).length ≤ room

lemma Scanned.of_nil {outcome : Option (List Item × Index)} {index' : Index} {room : Nat}
    (hscanned : Scanned P index' room outcome) (hle : index.toNat ≤ index'.toNat)
    (hnil : scan P index.toNat index'.toNat = []) : Scanned P index room outcome := by
  obtain ⟨stop, hrun, hlt, hstop, hlen⟩ := hscanned
  have hscan : scan P index.toNat stop = scan P index'.toNat stop := by
    rw [scan_append hle hlt.le, hnil, nil_append]
  exact ⟨stop, by rw [hrun, hscan], hle.trans_lt hlt, hstop, by rw [hscan]; exact hlen⟩

lemma Under.grab {wanted : Offset → Bool} (hunder : Under P pick 1 b (.node r slots) index.toNat)
    (hpick : ∀ d, pick (read slotMarks untagged (slotMarks r d) (slots d) []) =
      if wanted d then leafOf (slots d) else none) (hmax : 1 ≤ maxItems) :
    Scanned P index maxItems
      (grabItems wanted slots (64 - (slotOffset index 0).val) maxItems index) := by
  have hindex := index.toNat_lt
  have hval := slotOffset_val index 0
  rw [pow_zero, Nat.div_one] at hval
  have hP : ∀ j, j / 64 = index.toNat / 64 → P j =
      if wanted (slotOffset (ofNat j) 0) then leafOf (slots (slotOffset (ofNat j) 0))
      else none := by
    intro j hdiv
    have hj : j < 2 ^ 32 := by omega
    rw [hunder.read_child hj hdiv, digits, hpick]
  have hsum : index.toNat + (64 - (slotOffset index 0).val) =
      (index.toNat / 64 + 1) * 64 := by omega
  obtain ⟨stop, hrun, -, hlt, hstop, hlen⟩ := grabItems_spec
    (fun d => (hunder.held_child d).inv) hP hsum (by omega) (by omega) hmax
  rw [UInt32.ofNat_toNat] at hrun
  exact ⟨stop, hrun, hlt (by omega), hstop, hlen⟩

/-- The loop over the slots of a node ends behind the node, or the round goes on below a slot. -/
lemma Under.scan_seek (present : Offset → Bool) (hh : h ≤ 5)
    (hunder : Under P pick (h + 1) b (.node r slots) index.toNat)
    (habsent : ∀ d, present d = false → ∀ ds,
      pick (read slotMarks untagged (slotMarks r d) (slots d) ds) = none)
    {room : Nat} {k : Index → Offset → Option (List Item × Index)}
    (hk : ∀ index', present (slotOffset index' h) = true →
      Under P pick (h + 1) b (.node r slots) index'.toNat →
        Scanned P index' room (k index' (slotOffset index' h))) :
    Scanned P index room (match seekSlot present h (64 - (slotOffset index h).val) index with
      | (index, none) => some ([], index)
      | (index, some i) => k index i) := by
  have hrounds : (slotOffset index h).val + (64 - (slotOffset index h).val) = 64 :=
    Nat.add_sub_cancel' (slotOffset index h).isLt.le
  have hnone : ∀ j < 2 ^ 32, j / 64 ^ (h + 1) = index.toNat / 64 ^ (h + 1) →
      present (slotOffset (ofNat j) h) = false → P j = none := by
    intro j hj hdiv hoff
    rw [hunder.read_child hj hdiv, habsent _ hoff]
  rcases seekSlot_spec present hh hrounds hnone with
    ⟨index', hseek, hle, hpresent, hblock, hnil⟩ | ⟨stop, hseek, hlt, hstop, hnil⟩
  · rw [hseek]
    exact (hk index' hpresent (hunder.of_div_eq hblock)).of_nil hle hnil
  · rw [hseek]
    exact ⟨stop, by rw [hnil], hlt, hstop, by simp [hnil]⟩

lemma lookupItems_spec (hh : h ≤ 5) (hunder : Under P Prod.fst (h + 1) b slot index.toNat)
    (hne : slot ≠ .null) (hmax : 1 ≤ maxItems) :
    Scanned P index maxItems (lookupItems maxItems (h + 1) slot index) := by
  induction h generalizing b slot index with
  | zero =>
    obtain ⟨r, slots, rfl⟩ := hunder.held.inv.cases_succ.resolve_left hne
    refine hunder.grab (fun d => ?_) hmax
    rcases (hunder.held_child d).inv.cases_zero with hd | ⟨x, hd⟩
    · rw [hd]
      rfl
    · rw [hd]
      rfl
  | succ h ih =>
    obtain ⟨r, slots, rfl⟩ := hunder.held.inv.cases_succ.resolve_left hne
    have habsent : ∀ d, (!(slots d).isNull) = false → ∀ ds,
        (read slotMarks untagged (slotMarks r d) (slots d) ds).1 = none := by
      intro d hnull ds
      have hslot : slots d = .null := by simpa using hnull
      rw [hslot]
      cases ds <;> rfl
    refine hunder.scan_seek (fun i => !(slots i).isNull) hh habsent fun index' hpresent hunder' =>
      ?_
    have hsome : (slots (slotOffset index' (h + 1))).isNull = false := by simpa using hpresent
    have hslot : slots (slotOffset index' (h + 1)) ≠ .null := by
      simpa [← Bool.not_eq_true] using hsome
    simp only [hsome, Bool.false_eq_true, if_false]
    exact ih (by omega) hunder'.child hslot

def pickTag (tag : Tag) (content : Option Item × Marks) : Option Item :=
  if content.2 tag then content.1 else none

lemma Under.tagged_absent (hunder : Under P (pickTag tag) (h + 1) b (.node r slots) n) (d : Offset)
    (hoff : r.tagGet tag d = false) (ds : List Offset) :
    pickTag tag (read slotMarks untagged (slotMarks r d) (slots d) ds) = none := by
  have hbelow := (hunder.held_child d).untagged_below (show slotMarks r d tag = false from hoff) ds
  simp [pickTag, hbelow]

lemma lookupTagged_spec (hh : h ≤ 5) (hunder : Under P (pickTag tag) (h + 1) b slot index.toNat)
    (hne : slot ≠ .null) (hmax : 1 ≤ maxItems) :
    Scanned P index maxItems (lookupTagged tag maxItems (h + 1) slot index) := by
  induction h generalizing b slot index with
  | zero =>
    obtain ⟨r, slots, rfl⟩ := hunder.held.inv.cases_succ.resolve_left hne
    refine hunder.scan_seek (r.tagGet tag) hh hunder.tagged_absent fun index' _ hunder' => ?_
    refine hunder'.grab (fun d => ?_) hmax
    rcases (hunder.held_child d).inv.cases_zero with hd | ⟨x, hd⟩
    · rw [hd]
      rfl
    · rw [hd]
      rfl
  | succ h ih =>
    obtain ⟨r, slots, rfl⟩ := hunder.held.inv.cases_succ.resolve_left hne
    refine hunder.scan_seek (r.tagGet tag) hh hunder.tagged_absent fun index' hset hunder' => ?_
    have hslot : slots (slotOffset index' (h + 1)) ≠ .null := by
      intro hnull
      have hmarks := (hunder.held_child (slotOffset index' (h + 1))).marks
      rw [hnull] at hmarks
      have hoff : r.tagGet tag (slotOffset index' (h + 1)) = false := congrFun hmarks tag
      cases hset.symm.trans hoff
    have hsome : (slots (slotOffset index' (h + 1))).isNull = false := by
      simpa [← Bool.not_eq_true] using hslot
    simp only [Nat.add_eq_zero_iff, one_ne_zero, and_false, hsome, Bool.false_eq_true, if_false]
    exact ih (by omega) hunder'.child hslot

end Down

/-! ## The loop -/

section Loop

variable {P : Nat → Option Item} {pick : Option Item × Marks → Option Item} {root : Root}
  {lookup : Nat → Nat → Slot → Index → Option (List Item × Index)} {maxItems fuel : Nat}

/-- What the loop has taken, and where it goes on. The rank is what is left of the index space. -/
structure Collected (P : Nat → Option Item) (firstIndex maxItems rank : Nat)
    (s : Index × List Item) : Prop where
  le : firstIndex ≤ s.1.toNat
  results : s.2 = scan P firstIndex s.1.toNat
  length_le : s.2.length ≤ maxItems
  rank_eq : rank = 2 ^ 32 - s.1.toNat

section Step

variable {batch : Nat → Index → Option (List Item × Index)} {maxIndex firstIndex rank : Nat}
  (hbatch : ∀ n (index : Index), 1 ≤ n → index.toNat ≤ maxIndex → Scanned P index n (batch n index))
  (hnone : ∀ n, maxIndex < n → n < 2 ^ 32 → P n = none)
  {s s' : Index × List Item} {outcome : Option (List Item)}

include hbatch

/-- A round that goes on has moved ahead. -/
lemma Collected.step (h : Collected P firstIndex maxItems rank s)
    (hstep : gangStep batch maxIndex maxItems s = .inl s') :
    ∃ rank' < rank, Collected P firstIndex maxItems rank' s' := by
  rw [gangStep] at hstep
  split_ifs at hstep with hfull hend
  obtain ⟨stop, hrun, hlt, hstop, hlen⟩ := hbatch (maxItems - s.2.length) s.1 (by omega) (by omega)
  rw [hrun] at hstep
  dsimp only at hstep
  split_ifs at hstep with hzero
  cases hstep
  have hroom : stop < 2 ^ 32 := by
    refine hstop.lt_of_ne fun heq => hzero ?_
    rw [heq]
    rfl
  have hnext := toNat_ofNat_of_lt hroom
  have hrank := h.rank_eq
  refine ⟨2 ^ 32 - stop, by omega, ?_, ?_, ?_, ?_⟩
  · rw [hnext]
    exact h.le.trans hlt.le
  · rw [hnext, scan_append h.le hlt.le, ← h.results]
  · rw [length_append]
    omega
  · rw [hnext]

include hnone

/-- A round that ends the loop has all results, or as many as are wanted. -/
lemma Collected.exit (h : Collected P firstIndex maxItems rank s)
    (hstep : gangStep batch maxIndex maxItems s = .inr outcome) :
    outcome = some ((scan P firstIndex (2 ^ 32)).take maxItems) := by
  have hindex := s.1.toNat_lt
  have hle := h.le
  have hlen := h.length_le
  have hresults := h.results
  rw [gangStep] at hstep
  split_ifs at hstep with hfull hend
  · cases hstep
    have hmax : (scan P firstIndex s.1.toNat).length = maxItems := by
      rw [← hresults]
      omega
    rw [take_scan hle hindex.le hmax, ← hresults]
  · cases hstep
    have hrest : scan P s.1.toNat (2 ^ 32) = [] :=
      scan_eq_nil fun n hn hlt => hnone n (hend.trans_le hn) hlt
    rw [scan_append hle hindex.le, hrest, append_nil, ← hresults, take_of_length_le hlen]
  · obtain ⟨stop, hrun, hlt, hstop, hfound⟩ :=
      hbatch (maxItems - s.2.length) s.1 (by omega) (by omega)
    rw [hrun] at hstep
    dsimp only at hstep
    split_ifs at hstep with hzero
    cases hstep
    -- the index has wrapped
    have hwrap : stop = 2 ^ 32 := by
      have hmod := congrArg toNat hzero
      rw [UInt32.toNat_ofNat', UInt32.toNat_zero] at hmod
      omega
    rw [hwrap] at hfound ⊢
    rw [scan_append hle hindex.le, ← hresults, take_of_length_le]
    rw [length_append]
    omega

end Step

lemma gangStep_run {batch : Nat → Index → Option (List Item × Index)} {maxIndex : Nat}
    (hbatch : ∀ n (index : Index), 1 ≤ n → index.toNat ≤ maxIndex →
      Scanned P index n (batch n index))
    (hnone : ∀ n, maxIndex < n → n < 2 ^ 32 → P n = none) (firstIndex : Index)
    (hfuel : 2 ^ 32 < fuel) :
    Machine.run (gangStep batch maxIndex maxItems) fuel (firstIndex, []) =
      some (some ((scan P firstIndex.toNat (2 ^ 32)).take maxItems)) := by
  have hstart : Collected P firstIndex.toNat maxItems (2 ^ 32 - firstIndex.toNat)
      (firstIndex, []) :=
    ⟨le_rfl, by simp, by simp, rfl⟩
  obtain ⟨e, -, u, rank, hrun, -, hexit, hu⟩ := Machine.exists_run_of_ranked
    (fun _ _ _ h hstep => h.step hbatch hstep) hstart (show _ < fuel by omega)
  rw [hrun, hu.exit hbatch hnone hexit]

/-- A gang lookup whose rounds scan what is below the root. -/
lemma gangLookup_spec (hroot : root.Ok) (hpick : ∀ c : Option Item × Marks, c.1 = none →
    pick c = none)
    (hdirect : ∀ x, pick (some x, root.marks) = some x)
    (hP : ∀ n < 2 ^ 32, P n = pick (root.contents (ofNat n)))
    (hlookup : ∀ n h b slot (index : Index), h ≤ 5 → Under P pick (h + 1) b slot index.toNat →
      slot ≠ .null → 1 ≤ n → Scanned P index n (lookup n (h + 1) slot index))
    (firstIndex : Index) (hmax : 1 ≤ maxItems) (hfuel : 2 ^ 32 < fuel) :
    gangLookup lookup root firstIndex maxItems fuel =
      some (some ((scan P firstIndex.toNat (2 ^ 32)).take maxItems)) := by
  have hheight := hroot.height_le
  have hheld := hroot.held
  unfold gangLookup
  rcases hroot.rnode_cases with hptr | ⟨x, hptr, hzero, hind⟩ | ⟨r, slots, k, hptr, hk, hr, hind⟩
  · -- nothing is in the tree
    have hempty : ∀ i, (root.contents i).1 = none := by
      intro i
      have hlook := lookup_spec hroot i
      rw [radixTreeLookup, hptr] at hlook
      exact (Option.some.inj hlook).symm
    have hscan : scan P firstIndex.toNat (2 ^ 32) = [] :=
      scan_eq_nil fun n _ hn => by rw [hP n hn, hpick _ (hempty _)]
    rw [hptr, hscan, take_nil]
    rfl
  · -- one item, at index zero
    have hcontents : ∀ i, root.contents i = if i = 0 then (some x, root.marks)
        else (none, untagged) := by
      intro i
      rw [Root.contents, hptr, hzero, contentsOf_zero]
    have hrest : ∀ n, 0 < n → n < 2 ^ 32 → P n = none := by
      intro n hpos hn
      have hne : ofNat n ≠ 0 := by
        intro heq
        have hval := toNat_ofNat_of_lt hn
        rw [heq, UInt32.toNat_zero] at hval
        omega
      rw [hP n hn, hcontents, if_neg hne, hpick _ rfl]
    rw [hptr, hind]
    by_cases hfirst : 0 < firstIndex
    · have hscan : scan P firstIndex.toNat (2 ^ 32) = [] :=
        scan_eq_nil fun n hle hn => hrest n (Nat.lt_of_lt_of_le hfirst hle) hn
      rw [hscan]
      simp [hfirst, SlotTree.isNull]
    · obtain rfl : firstIndex = 0 := by simpa using hfirst
      have hscan : scan P 0 (2 ^ 32) = [x] := by
        rw [scan_cons (by decide), hP 0 (by decide), hcontents,
          if_pos (show ofNat 0 = 0 from rfl), hdirect,
          scan_eq_nil fun n hle hn => hrest n hle hn]
        rfl
      rw [UInt32.toNat_zero, hscan, take_of_length_le hmax]
      rfl
  · rw [hk] at hheight
    simp only [hptr, hind, SlotTree.isNull, head_node, Head.isNull_node,
      Bool.false_eq_true, if_false, Bool.not_true, hr, hk]
    refine gangStep_run (fun n index hn hindex => ?_) (fun n hlt hn => ?_) firstIndex hfuel
    · refine hlookup n k root.marks _ index (by omega) ⟨?_, fun j hj hdiv => ?_⟩ (by simp) hn
      · rw [← hptr, ← hk]
        exact hheld
      · rw [toNat_le_maxindex hheight] at hindex
        have hlow : j < 64 ^ (k + 1) := by
          rw [Nat.div_eq_of_lt hindex, Nat.div_eq_zero_iff_lt (Nat.pow_pos (by decide))] at hdiv
          exact hdiv
        have hle : (ofNat j).toNat ≤ radixTreeMaxindex (k + 1) := by
          rw [toNat_le_maxindex hheight, toNat_ofNat_of_lt hj]
          exact hlow
        rw [hP j hj, Root.contents, hk, contentsOf, if_pos hle, hptr]
    · rw [hP n hn, Root.contents, hk, contentsOf, if_neg, hpick _ rfl]
      rw [toNat_ofNat_of_lt hn]
      exact Nat.not_le.mpr hlt

end Loop

/-! ## The results -/

/-- The items from an index on, in the order of their indices. -/
def Abstract.itemsFrom (a : Abstract) (firstIndex : Index) : List Item :=
  scan (fun n => a.items (ofNat n)) firstIndex.toNat (2 ^ 32)

open Classical in
/-- The item at an index, if it has the tag. -/
noncomputable def Abstract.taggedItem (a : Abstract) (tag : Tag) (i : Index) : Option Item :=
  if i ∈ a.tagged tag then a.items i else none

/-- The items with a tag from an index on, in the order of their indices. -/
noncomputable def Abstract.taggedFrom (a : Abstract) (tag : Tag) (firstIndex : Index) : List Item :=
  scan (fun n => a.taggedItem tag (ofNat n)) firstIndex.toNat (2 ^ 32)

open Classical in
lemma Refines.taggedItem_eq {t : Tree} {a : Abstract} (h : Refines t a) (tag : Tag) (i : Index) :
    a.taggedItem tag i = pickTag tag (t.root.contents i) := by
  rw [Abstract.taggedItem, pickTag, h.items]
  exact if_congr (h.tagged i tag).symm rfl rfl

/-- Both gang lookups end within as many rounds as there are indices, with the items at the first
indices that are present, or that are present and have the tag, as many as are wanted. -/
theorem radix_tree_gang_lookup_exact (mask : UInt32) (hmask : mask &&& gfpBitsMask = mask)
    (t : Tree)
    (a : Abstract) (h : Reaches mask t a) (firstIndex : Index) (maxItems : Nat)
    (hmax : 1 ≤ maxItems) (fuel : Nat) (hfuel : 2 ^ 32 < fuel) :
    radixTreeGangLookup t.root firstIndex maxItems fuel =
        some (some ((a.itemsFrom firstIndex).take maxItems)) ∧
      ∀ tag, radixTreeGangLookupTag t.root firstIndex maxItems tag fuel =
        some (some ((a.taggedFrom tag firstIndex).take maxItems)) := by
  have href := h.refines hmask
  have hroot := href.ok.root
  constructor
  · exact gangLookup_spec hroot (fun _ hc => hc) (fun _ => rfl)
      (fun n _ => (href.items (ofNat n)).symm)
      (fun n h b slot index hh hunder hne hn => lookupItems_spec hh hunder hne hn) firstIndex
        hmax hfuel
  · intro tag
    rw [radixTreeGangLookupTag]
    cases hset : t.root.rootTagGet tag with
    | false =>
      have hnone : a.taggedFrom tag firstIndex = [] := by
        apply scan_eq_nil
        intro n _ _
        rw [href.taggedItem_eq, pickTag, hroot.contents_untagged hset]
        rfl
      rw [hnone, take_nil]
      rfl
    | true =>
      refine gangLookup_spec hroot (fun c hc => ?_) (fun x => ?_)
        (fun n _ => href.taggedItem_eq tag (ofNat n))
        (fun n h b slot index hh hunder hne hn => lookupTagged_spec hh hunder hne hn)
          firstIndex hmax
        hfuel
      · rw [pickTag, hc, ite_self]
      · have hmark : t.root.marks tag = true := hset
        simp [pickTag, hmark]

/-- An item at the last index, with a tag: the scan wraps there. -/
theorem radix_tree_gang_lookup_exact_last : ∃ t a, Reaches 0 t a ∧ a.items 4294967295 = some 8 ∧
    4294967295 ∈ a.tagged 1 ∧
    radixTreeGangLookup t.root 4294967295 3 (2 ^ 32 + 1) =
      some (some ((a.itemsFrom 4294967295).take 3)) ∧
    radixTreeGangLookupTag t.root 4294967295 3 1 (2 ^ 32 + 1) =
      some (some ((a.taggedFrom 1 4294967295).take 3)) := by
  have hinit : Reaches 0 (radixTreeInit 0) .empty := .init
  have hfirst := hinit.step (.insert 4294967295 8 []) ⟨by decide, by decide⟩ rfl
  have hreach := hfirst.step (.tagSet 4294967295 1) (fun h => by cases h) rfl
  obtain ⟨hitems, htagged⟩ := radix_tree_gang_lookup_exact 0 (by decide) _ _ hreach 4294967295 3
    (by decide) (2 ^ 32 + 1) (by decide)
  exact ⟨_, _, hreach, rfl, .inl rfl, hitems, htagged 1⟩

end R0Kernel.RadixTree
