import R0Kernel.Lib.RadixTree.Runs

/-! # The next hole

`radix_tree_next_hole` finds the lowest hole of the range it scans. Without a hole it returns the
index behind the range, or zero at the end of the index space; a caller who subtracts the first
index then sees fewer than `max_scan` indices if the range was cut off there.
-/

namespace R0Kernel.RadixTree

/-- The loop of `radix_tree_next_hole`, with the rounds that are left. -/
def nextHoleLoop (root : Root) : (rounds : Nat) → Index → Option Index
  | 0, index => some index
  | rounds + 1, index =>
    match radixTreeLookup root index with
    | none => none
    | some none => some index
    | some (some _) => if index + 1 = 0 then some (index + 1)
      else nextHoleLoop root rounds (index + 1)

def radixTreeNextHole (root : Root) (index maxScan : Index) : Option Index :=
  nextHoleLoop root maxScan.toNat index

variable {mask : UInt32} {t : Tree} {a : Abstract} {index : Index}

/-- The holes in the set that is searched, which ends at the last index. -/
def Abstract.holes (a : Abstract) (index : Index) (scan : Nat) : Set Index :=
  {j | index ≤ j ∧ j.toNat < index.toNat + scan ∧ a.items j = none}

lemma toNat_add_one_of_ne (hlast : index + 1 ≠ 0) : (index + 1).toNat = index.toNat + 1 := by
  have hlt := index.toNat_lt
  have hne := UInt32.toNat_inj.not.mpr hlast
  simp only [UInt32.toNat_add, UInt32.toNat_one, UInt32.toNat_zero] at hne ⊢
  omega

lemma toNat_of_add_one (hlast : index + 1 = 0) : index.toNat = 2 ^ 32 - 1 := by
  have hlt := index.toNat_lt
  have heq := congrArg UInt32.toNat hlast
  simp only [UInt32.toNat_add, UInt32.toNat_one, UInt32.toNat_zero] at heq
  omega

lemma Abstract.holes_succ (hitem : a.items index ≠ none) (hlast : index + 1 ≠ 0) (scan : Nat) :
    a.holes index (scan + 1) = a.holes (index + 1) scan := by
  ext j
  simp only [holes, Set.mem_ofPred_eq, UInt32.le_iff_toNat_le, toNat_add_one_of_ne hlast]
  refine ⟨fun ⟨hle, hlt, hj⟩ => ⟨?_, by omega, hj⟩, fun ⟨hle, hlt, hj⟩ => ⟨by omega, by omega, hj⟩⟩
  have hne : index.toNat ≠ j.toNat := fun heq => hitem (UInt32.toNat_inj.mp heq ▸ hj)
  omega

lemma nextHoleLoop_spec (h : ∀ i, radixTreeLookup t.root i = some (a.items i)) (scan : Nat)
    (index : Index) : ∃ r, nextHoleLoop t.root scan index = some r ∧
      (IsLeast (a.holes index scan) r ∨
        a.holes index scan = ∅ ∧ r.toNat = min (index.toNat + scan) (2 ^ 32) % 2 ^ 32) := by
  induction scan generalizing index with
  | zero =>
    refine ⟨index, rfl, .inr ⟨?_, ?_⟩⟩
    · ext j
      simp only [Abstract.holes, UInt32.le_iff_toNat_le, Set.mem_ofPred_eq, Set.mem_empty_iff_false,
        iff_false]
      omega
    · have := index.toNat_lt
      omega
  | succ scan ih =>
    rw [nextHoleLoop, h]
    cases hitem : a.items index with
    | none =>
      refine ⟨index, rfl, .inl ⟨⟨UInt32.le_refl _, by omega, hitem⟩, fun j hj => hj.1⟩⟩
    | some x =>
      have hne : a.items index ≠ none := by simp [hitem]
      by_cases hlast : index + 1 = 0
      · have hmax := toNat_of_add_one hlast
        refine ⟨_, if_pos hlast, .inr ⟨?_, ?_⟩⟩
        · refine Set.eq_empty_of_forall_notMem fun j ⟨hle, _, hj⟩ => hne ?_
          have hj' : j = index := by
            rw [UInt32.le_iff_toNat_le] at hle
            have := j.toNat_lt
            exact UInt32.toNat_inj.mp (by omega)
          rwa [← hj']
        · rw [hlast]
          simp only [UInt32.toNat_zero]
          omega
      · obtain ⟨r, hrun, hr⟩ := ih (index + 1)
        refine ⟨r, (if_neg hlast).trans hrun, ?_⟩
        rw [Abstract.holes_succ hne hlast]
        rwa [toNat_add_one_of_ne hlast, add_right_comm] at hr

/-- What the documentation says of the returned value: the lowest hole of the set that is searched,
or a value that is `max_scan` or more away. -/
structure NextHole (a : Abstract) (index maxScan r : Index) : Prop where
  hole : (a.holes index maxScan.toNat).Nonempty → IsLeast (a.holes index maxScan.toNat) r
  noHole : a.holes index maxScan.toNat = ∅ → maxScan ≤ r - index

/-- `radix_tree_next_hole` returns, and what it returns is as documented if and only if there is a
hole or the range does not go beyond the last index. -/
theorem radix_tree_next_hole_iff (mask : UInt32) (hmask : mask &&& gfpBitsMask = mask) (t : Tree)
    (a : Abstract) (h : Reaches mask t a) (index maxScan : Index) (hscan : 1 ≤ maxScan) :
    ∃ r, radixTreeNextHole t.root index maxScan = some r ∧
      (NextHole a index maxScan r ↔
        (a.holes index maxScan.toNat).Nonempty ∨ index.toNat + maxScan.toNat ≤ 2 ^ 32) := by
  have href := h.refines hmask
  have hlookup : ∀ i, radixTreeLookup t.root i = some (a.items i) := fun i => by
    rw [lookup_spec href.ok.root, href.items]
  obtain ⟨r, hrun, hleast | ⟨hempty, hr⟩⟩ := nextHoleLoop_spec hlookup maxScan.toNat index
  · have hsome : (a.holes index maxScan.toNat).Nonempty := ⟨r, hleast.1⟩
    exact ⟨r, hrun, iff_of_true ⟨fun _ => hleast, fun hempty =>
      absurd hempty hsome.ne_empty⟩ (.inl hsome)⟩
  · refine ⟨r, hrun, ⟨fun hnext => .inr ?_, ?_⟩⟩
    · have hfar := hnext.noHole hempty
      rw [UInt32.le_iff_toNat_le, UInt32.toNat_sub, hr] at hfar
      rw [UInt32.le_iff_toNat_le, UInt32.toNat_one] at hscan
      have := index.toNat_lt
      have := maxScan.toNat_lt
      omega
    · rintro (hsome | hle)
      · exact absurd hempty hsome.ne_empty
      · refine ⟨fun hsome => absurd hempty hsome.ne_empty, fun _ => ?_⟩
        rw [UInt32.le_iff_toNat_le, UInt32.toNat_sub, hr]
        have := index.toNat_lt
        have := maxScan.toNat_lt
        omega

lemma reaches_last_index : ∃ t a, Reaches 0 t a ∧ a.items 4294967295 = some 8 ∧ a.items 7 = none ∧
    radixTreeNextHole t.root 4294967295 2 = some 0 := by
  have hinit : Reaches 0 (radixTreeInit 0) .empty := .init
  have hreach := hinit.step (.insert 4294967295 8 []) ⟨by decide, by decide⟩ rfl
  exact ⟨_, _, hreach, rfl, rfl, rfl⟩

theorem radix_tree_next_hole_iff_hole : ∃ t a r, Reaches 0 t a ∧
    radixTreeNextHole t.root 7 2 = some r ∧ NextHole a 7 2 r := by
  obtain ⟨t, a, hreach, -, hhole, -⟩ := reaches_last_index
  obtain ⟨r, hrun, hiff⟩ := radix_tree_next_hole_iff 0 (by decide) t a hreach 7 2 (by decide)
  exact ⟨t, a, r, hreach, hrun, hiff.mpr (.inl ⟨7, by decide, by decide, hhole⟩)⟩

/-- Two indices are asked for and one is left, which is no hole. The result is one away. -/
theorem radix_tree_next_hole_wraps : ∃ t a r, Reaches 0 t a ∧
    radixTreeNextHole t.root 4294967295 2 = some r ∧ ¬NextHole a 4294967295 2 r := by
  obtain ⟨t, a, hreach, hitem, -, hrun⟩ := reaches_last_index
  refine ⟨t, a, 0, hreach, hrun, fun hnext => ?_⟩
  have hempty : a.holes 4294967295 (UInt32.toNat 2) = ∅ := by
    refine Set.eq_empty_of_forall_notMem fun j ⟨hle, _, hj⟩ => ?_
    have hlast : j = 4294967295 := by
      have hlt := j.toNat_lt
      exact UInt32.toNat_inj.mp (le_antisymm (Nat.le_of_lt_succ hlt) hle)
    rw [hlast, hitem] at hj
    cases hj
  exact absurd (hnext.noHole hempty) (by decide)

end R0Kernel.RadixTree
