import R0Kernel.Fs.Ext2.Release

/-!
# The shared branch

`ext2_find_shared` and the freeing that follows it, as a recursion on the path: where nothing of the
branch is kept behind a pointer, the tree at the pointer is released, and otherwise the rest of the
path is followed and then the slots behind it are released. This holds for both ways in which
`ext2_find_shared` leaves the end of the branch, the detached top and the pointer one back.
-/

namespace R0Kernel.Ext2.Truncate

open BlockTree Function List

lemma rdropWhile_cons_of_ne_nil {α : Type} {q : α → Bool} {x : α} {xs : List α}
    (hne : (x :: xs).rdropWhile q ≠ []) : (x :: xs).rdropWhile q = x :: xs.rdropWhile q := by
  induction xs using reverseRecOn with
  | nil =>
    rw [← nil_append [x], rdropWhile_concat] at hne ⊢
    split_ifs at hne ⊢ with hx
    · simp at hne
    · simp
  | append_singleton xs y ih =>
    rw [← cons_append, rdropWhile_concat] at hne ⊢
    rw [rdropWhile_concat]
    split_ifs at hne ⊢
    · exact ih hne
    · rfl

/-! ### What is kept of a branch -/

/-- The links behind the first that are kept: those of the path without the zeros at its end, as far
as it goes, up to the last with a pointer to its left. -/
def kept (m : Mem) (loc : Loc) (o : Nat) (os : List Nat) : List Link :=
  (getBranch m loc (o :: os.rdropWhile (· == 0))).tail.rdropWhile (allZeroes m)

/-- The last of the links that are kept, or the first of the path. -/
def lastKept (m : Mem) (loc : Loc) (o : Nat) (os : List Nat) : Link :=
  ((kept m loc o os).getLast?).getD ⟨loc, o, m.read loc o⟩

section Kept

variable {m : Mem} {loc : Loc} {o o' : Nat} {os : List Nat}

section

variable (m : Mem) (loc : Loc)

lemma length_getBranch (os : List Nat) :
    (getBranch m loc os).length ≤ os.length := by
  induction os generalizing loc with
  | nil => simp [getBranch]
  | cons o os ih =>
    rw [getBranch]
    split
    · simp
    · simpa using ih _

lemma tail_getBranch (o : Nat) (os : List Nat) :
    (getBranch m loc (o :: os)).tail =
      if m.read loc o = 0 then [] else getBranch m (.block (m.read loc o)) os := by
  rw [getBranch]
  split <;> rfl

lemma kept_length_le (o : Nat) (os : List Nat) :
    (kept m loc o os).length ≤ (os.rdropWhile (· == 0)).length := by
  refine ( rdropWhile_prefix ..).length_le.trans ?_
  rw [tail_getBranch]
  split
  · simp
  · exact length_getBranch ..

lemma kept_length_le_path (o : Nat) (os : List Nat) :
    (kept m loc o os).length ≤ os.length :=
  (kept_length_le ..).trans ( rdropWhile_prefix ..).length_le

end

@[simp]
lemma kept_nil : kept m loc o [] = [] := by
  simp [kept, getBranch]

lemma read_ne_zero_of_kept (hne : kept m loc o os ≠ []) : m.read loc o ≠ 0 := by
  intro hzero
  simp [kept, tail_getBranch, hzero] at hne

/-- A branch that is kept goes on with what is kept from its next pointer on. -/
lemma kept_cons (hne : kept m loc o (o' :: os) ≠ []) : kept m loc o (o' :: os) =
    ⟨.block (m.read loc o), o', m.read (.block (m.read loc o)) o'⟩ ::
      kept m (.block (m.read loc o)) o' os := by
  have hnr := read_ne_zero_of_kept hne
  have hpath : (o' :: os).rdropWhile (· == 0) = o' :: os.rdropWhile (· == 0) := by
    refine rdropWhile_cons_of_ne_nil fun hnil => ?_
    simp [kept, hnil, getBranch] at hne
  rw [kept, tail_getBranch, if_neg hnr, hpath] at hne ⊢
  rw [kept]
  rw [getBranch] at hne ⊢
  split_ifs at hne ⊢
  · exact rdropWhile_cons_of_ne_nil hne
  · exact rdropWhile_cons_of_ne_nil hne

lemma lastKept_of_nil (hnil : kept m loc o os = []) :
    lastKept m loc o os = ⟨loc, o, m.read loc o⟩ := by
  rw [lastKept, hnil]
  rfl

lemma lastKept_cons (hne : kept m loc o (o' :: os) ≠ []) :
    lastKept m loc o (o' :: os) = lastKept m (.block (m.read loc o)) o' os := by
  rw [lastKept, kept_cons hne, getLast?_cons]
  rfl

end Kept

/-! ### The recursion on the path -/

/-- Release what is at the path `o :: os` and behind it, below the slot `o`. -/
def cut (ptrs : Nat) : (os : List Nat) → Loc → (o : Nat) → Mem → Mem
  | [], loc, o, m => releaseSlot ptrs 0 loc o m
  | o' :: os, loc, o, m =>
    if kept m loc o (o' :: os) = [] then releaseSlot ptrs (os.length + 1) loc o m
    else
      release ptrs (fun _ => os.length) (.block (m.read loc o))
        (range' (o' + 1) (ptrs - (o' + 1))) (cut ptrs os (.block (m.read loc o)) o' m)

lemma clearEnds_append (ptrs depth : Nat) (ls ls' : List Link) (m : Mem) :
    clearEnds ptrs depth (ls ++ ls') m =
      clearEnds ptrs (depth + ls.length) ls' (clearEnds ptrs depth ls m) := by
  induction ls generalizing depth m with
  | nil => rfl
  | cons l ls ih =>
    rw [cons_append, clearEnds, clearEnds, ih, length_cons, add_assoc,
      add_comm 1]

/-- Once the tree at the last pointer has been released, what is left are the ends of the blocks. -/
lemma clearEnds_kept (ptrs : Nat) (os : List Nat) (loc : Loc) (o : Nat) (m : Mem) :
    clearEnds ptrs (os.length - (kept m loc o os).length) (kept m loc o os).reverse
      (releaseSlot ptrs (os.length - (kept m loc o os).length) (lastKept m loc o os).loc
        (lastKept m loc o os).p m) = cut ptrs os loc o m := by
  induction os generalizing loc o with
  | nil => simp [lastKept_of_nil, clearEnds, cut]
  | cons o' os ih =>
    rw [cut]
    split_ifs with hkept
    · simp [hkept, lastKept_of_nil, clearEnds]
    · have hle := kept_length_le_path m (.block (m.read loc o)) o' os
      rw [lastKept_cons hkept, kept_cons hkept, length_cons, length_cons,
        Nat.add_sub_add_right, reverse_cons, clearEnds_append, ih, length_reverse,
        Nat.sub_add_cancel hle, clearEnds, clearEnds, freeBranches_eq]

/-! ### The end of the branch -/

section LastKept

variable {m : Mem} {loc : Loc} {o : Nat} {os : List Nat}

lemma p_mem_of_getBranch {l : Link} (hl : l ∈ getBranch m loc os) : l.p ∈ os := by
  induction os generalizing loc with
  | nil => simp [getBranch] at hl
  | cons o os ih =>
    rw [getBranch] at hl
    split_ifs at hl
    · simp_all
    · obtain rfl | hl := mem_cons.mp hl
      · simp
      · exact mem_cons_of_mem _ (ih hl)

variable (hne : kept m loc o os ≠ [])

include hne

lemma getLast?_kept :
    (kept m loc o os).getLast? = some (lastKept m loc o os) := by
  rw [lastKept, getLast?_eq_some_getLast hne]
  rfl

lemma lastKept_p_mem : (lastKept m loc o os).p ∈ os := by
  have hmem := mem_of_getLast? (getLast?_kept hne)
  have hbranch := ( rdropWhile_prefix ..).subset hmem
  rw [tail_getBranch, if_neg (read_ne_zero_of_kept hne)] at hbranch
  exact ( rdropWhile_prefix ..).subset (p_mem_of_getBranch hbranch)

lemma lastKept_p_pos : 0 < (lastKept m loc o os).p := by
  have hlast : ¬allZeroes m ((kept m loc o os).getLast hne) = true :=
    rdropWhile_last_not _ _ hne
  have heq := getLast?_kept hne
  rw [getLast?_eq_some_getLast hne, Option.some.injEq] at heq
  refine Nat.pos_of_ne_zero fun hp => hlast ?_
  rw [heq, allZeroes, hp]
  rfl

end LastKept

lemma release_range' (ptrs : Nat) (hs : Nat → Nat) (loc : Loc) {o n : Nat} (m : Mem)
    (ho : o < n) : release ptrs hs loc (range' o (n - o)) m =
      release ptrs hs loc (range' (o + 1) (n - (o + 1))) (releaseSlot ptrs (hs o) loc o m) := by
  rw [show n - o = (n - (o + 1)) + 1 by omega, range'_succ, release_cons]

/-- The pointer is moved to the variable of the caller. -/
def detach (m : Mem) (loc : Loc) (o : Nat) : Mem :=
  { m with nr := m.read loc o }.write loc o 0

section Detached

variable {loc : Loc} {o : Nat} {m : Mem} (hloc : loc ≠ .nr)

include hloc

lemma detach_nr : (detach m loc o).nr = m.read loc o :=
  Mem.read_write_of_loc_ne (i := o) (j := 0) hloc.symm

lemma detach_write (hnr : m.nr = 0) : (detach m loc o).write .nr 0 0 = m.write loc o 0 := by
  cases loc with
  | nr => exact absurd rfl hloc
  | inode => simp_all [detach, Mem.write]
  | block b => simp_all [detach, Mem.write]

lemma detach_of_zero (hnr : m.nr = 0) (hzero : m.read loc o = 0) : detach m loc o = m := by
  cases m
  cases loc with
  | nr => exact absurd rfl hloc
  | inode =>
    simp only [Mem.read] at hzero hnr
    simp only [detach, Mem.write, Mem.read, hzero, hnr]
    rw [← hzero, update_eq_self]
  | block b =>
    simp only [Mem.read] at hzero hnr
    simp only [detach, Mem.write, Mem.read, hzero, hnr]
    rw [← hzero, update_eq_self, update_eq_self]

lemma kill_detached (ptrs depth : Nat) (hnr : m.nr = 0) :
    (if (detach m loc o).nr = 0 then detach m loc o
      else freeBranches ptrs depth .nr [0] (detach m loc o)) = releaseSlot ptrs depth loc o m := by
  rw [detach_nr hloc]
  split_ifs with hzero
  · rw [detach_of_zero hloc hnr hzero]
    cases depth <;> rw [releaseSlot, if_pos hzero]
  · have hread : (detach m loc o).read .nr 0 = m.read loc o := detach_nr hloc
    rw [freeBranches_eq, release_cons]
    cases depth <;>
      simp only [releaseSlot, hread, if_neg hzero, detach_write hloc hnr] <;> rfl

end Detached

/-! ### The whole branch -/

section Branch

variable {ptrs first : Nat} {rest : List Nat} {m : Mem}

lemma take_getBranch (m : Mem) (loc : Loc) (o : Nat) (os : List Nat) :
    (getBranch m loc (o :: os)).take 1 = [⟨loc, o, m.read loc o⟩] := by
  rw [getBranch]
  split <;> rfl

lemma getLast?_shared (m : Mem) (loc : Loc) (o : Nat) (os : List Nat) :
    (⟨loc, o, m.read loc o⟩ :: kept m loc o os).getLast? = some (lastKept m loc o os) := by
  rw [getLast?_cons, lastKept]

lemma lastKept_loc_ne {loc : Loc} {o : Nat} {os : List Nat} (hloc : loc ≠ .nr) :
    (lastKept m loc o os).loc ≠ .nr := by
  induction os generalizing loc o with
  | nil => rwa [lastKept_of_nil kept_nil]
  | cons o' os ih =>
    by_cases hnil : kept m loc o (o' :: os) = []
    · rwa [lastKept_of_nil hnil]
    · rw [lastKept_cons hnil]
      exact ih (by simp)

lemma findShared_cases (m : Mem) (first : Nat) (rest : List Nat) {m₀ : Mem} {ks : List Link}
    {l : Link} (hm₀ : { m with nr := 0 } = m₀) (hks : kept m₀ .inode first rest = ks)
    (hl : lastKept m₀ .inode first rest = l) :
    ks ≠ [] ∧ findShared m first rest =
        (m₀, ⟨.inode, first, m₀.read .inode first⟩ :: (ks.dropLast ++ [{ l with p := l.p - 1 }])) ∨
      findShared m first rest =
        (detach m₀ l.loc l.p, ⟨.inode, first, m₀.read .inode first⟩ :: ks) := by
  have hlast : (⟨.inode, first, m₀.read .inode first⟩ :: ks).getLast? = some l :=
    hks ▸ hl ▸ getLast?_shared m₀ .inode first rest
  have hkept : (getBranch m₀ .inode (first :: rest.rdropWhile (· == 0))).tail.rdropWhile
      (allZeroes m₀) = ks := hks
  simp only [findShared, hm₀, take_getBranch, drop_one, hkept, singleton_append, hlast,
    length_cons]
  split_ifs with hfull
  · have hne : ks ≠ [] := by
      rintro rfl
      simp only [length_nil] at hfull
      omega
    exact .inl ⟨hne, by rw [dropLast_cons_of_ne_nil hne, cons_append]⟩
  · subst hm₀
    exact .inr rfl

lemma truncateBranch_eq (hrest : ∀ o ∈ rest, o < ptrs) :
    truncateBranch ptrs first rest m = cut ptrs rest .inode first { m with nr := 0 } := by
  rw [← clearEnds_kept]
  generalize hm₀ : { m with nr := 0 } = m₀
  generalize hks : kept m₀ .inode first rest = ks
  generalize hl : lastKept m₀ .inode first rest = l
  have hnr : m₀.nr = 0 := by rw [← hm₀]
  rw [truncateBranch]
  obtain ⟨hne, hshared⟩ | hshared := findShared_cases m first rest hm₀ hks hl
  · -- the pointer one back: its block is released from the pointer itself on
    rw [← hks] at hne
    have hpos : 0 < l.p := hl ▸ lastKept_p_pos hne
    have hlt : l.p < ptrs := hl ▸ hrest _ (lastKept_p_mem hne)
    have hlast : ks = ks.dropLast ++ [l] := by
      rw [dropLast_append_getLast? l (hl ▸ hks ▸ getLast?_kept hne)]
    rw [hshared, hlast]
    simp only [hnr, if_true, length_cons, length_append, length_nil, tail_cons,
      reverse_append, reverse_cons, reverse_nil, nil_append,
      singleton_append, dropLast_concat, Nat.add_sub_add_right, clearEnds,
      freeBranches_eq]
    rw [Nat.sub_add_cancel hpos, release_range' _ _ _ _ hlt]
  · rw [hshared]
    simp only [length_cons, tail_cons, Nat.add_sub_add_right]
    rw [kill_detached (hl ▸ lastKept_loc_ne (by simp)) _ _ hnr]

end Branch

end R0Kernel.Ext2.Truncate
