import R0Kernel.Fs.Locks.Refine

/-! # The lock list of an inode as byte maps, one for each owner

A request that succeeds writes its type over its range in the map of its owner
and changes no other map, so no two owners ever hold conflicting types on a byte.
-/

namespace R0Kernel.Fs.Locks

open List

/-! ## Contiguous entries -/

section Contiguous

variable {α : Type*} {p : α → Bool} {before block block' after : List α}

/-- The entries with the property follow each other. -/
def Contiguous (p : α → Bool) (l : List α) : Prop :=
  ∃ before block after, l = before ++ block ++ after ∧
    (∀ x ∈ before, p x = false) ∧ (∀ x ∈ block, p x = true) ∧ ∀ x ∈ after, p x = false

lemma Contiguous.sublist {l l' : List α} (h : Contiguous p l) (hsub : l'.Sublist l) :
    Contiguous p l' := by
  obtain ⟨before, block, after, rfl, hbefore, hblock, hafter⟩ := h
  obtain ⟨l₁, after', rfl, hl₁, hafter'⟩ := sublist_append_iff.mp hsub
  obtain ⟨before', block', rfl, hbefore', hblock'⟩ := sublist_append_iff.mp hl₁
  exact ⟨before', block', after', rfl, fun x hx => hbefore x (hbefore'.subset hx),
    fun x hx => hblock x (hblock'.subset hx), fun x hx => hafter x (hafter'.subset hx)⟩

lemma Contiguous.between {x y z : α} (h : Contiguous p [x, y, z]) (hx : p x = true)
    (hz : p z = true) : p y = true := by
  obtain ⟨before, block, after, heq, hbefore, hblock, hafter⟩ := h
  cases before with
  | cons x' before => simp_all
  | nil =>
    cases block with
    | nil =>
      have hmem : x ∈ [] ++ [] ++ after := heq ▸ mem_cons_self
      have hafter' := hafter x (by simpa using hmem)
      simp [hx] at hafter'
    | cons x' block =>
      cases block with
      | nil =>
        obtain ⟨rfl, rfl⟩ : x = x' ∧ [y, z] = after := by simpa using heq
        have hafter' := hafter z (by simp)
        simp [hz] at hafter'
      | cons y' block => simp_all

/-- A block without the property can be replaced by another one unless it is
empty and separates nothing. -/
lemma Contiguous.replace (h : Contiguous p (before ++ block ++ after))
    (hblock : ∀ x ∈ block, p x = false) (hblock' : ∀ x ∈ block', p x = false)
    (hempty : block = [] → after = []) : Contiguous p (before ++ block' ++ after) := by
  have hside : (∀ x ∈ before, p x = false) ∨ ∀ x ∈ after, p x = false := by
    by_contra hboth
    push Not at hboth
    obtain ⟨⟨x, hx, hpx⟩, z, hz, hpz⟩ := hboth
    obtain ⟨y, hy⟩ : ∃ y, y ∈ block := by
      apply exists_mem_of_ne_nil
      rintro rfl
      simp [hempty rfl] at hz
    have hsub : [x, y, z].Sublist (before ++ block ++ after) :=
      ((singleton_sublist.mpr hx).append (singleton_sublist.mpr hy)).append
        (singleton_sublist.mpr hz)
    have hpy := (h.sublist hsub).between (by simpa using hpx) (by simpa using hpz)
    simp [hblock y hy] at hpy
  rcases hside with hbefore | hafter
  · obtain ⟨before₁, block₁, after₁, rfl, hbefore₁, hblock₁, hafter₁⟩ :=
      h.sublist (sublist_append_right (before ++ block) after)
    refine ⟨before ++ block' ++ before₁, block₁, after₁, by simp, ?_, hblock₁, hafter₁⟩
    exact forall_mem_append.mpr ⟨forall_mem_append.mpr ⟨hbefore, hblock'⟩, hbefore₁⟩
  · obtain ⟨before₁, block₁, after₁, rfl, hbefore₁, hblock₁, hafter₁⟩ :=
      h.sublist ((sublist_append_left before block).trans (sublist_append_left _ after))
    refine ⟨before₁, block₁, after₁ ++ block' ++ after, by simp, hbefore₁, hblock₁, ?_⟩
    exact forall_mem_append.mpr ⟨forall_mem_append.mpr ⟨hafter₁, hblock'⟩, hafter⟩

end Contiguous

variable {Owner : Type*} [DecidableEq Owner]

/-! ## The invariant -/

def isPosixOf (o : Owner) (fl : FileLock Owner) : Bool :=
  fl.flags.posix && fl.owner == o

def ownerLocks (o : Owner) (flock : List (FileLock Owner)) : List (FileLock Owner) :=
  flock.filter (isPosixOf o)

/-- The type of the owner's POSIX lock on the byte. -/
def lockAt (flock : List (FileLock Owner)) (o : Owner) (b : Int) : Option LockType :=
  typeAt (ownerLocks o flock) b

/-- The POSIX locks of each owner are contiguous, sorted, disjoint and merged. -/
structure Represented (flock : List (FileLock Owner)) : Prop where
  contiguous : ∀ o, Contiguous (isPosixOf o) flock
  held : ∀ o, ∀ fl ∈ ownerLocks o flock, IsHeld o fl
  sorted : ∀ o, (ownerLocks o flock).Pairwise Separated

/-- Leases and `flock` locks come first, as their insertions keep them. -/
structure WellFormed (flock : List (FileLock Owner)) : Prop extends Represented flock where
  posixLast : flock.Pairwise fun f g => f.flags.posix = true → g.flags.posix = true

/-- Two owners share a byte only for reading. -/
def Compatible (flock : List (FileLock Owner)) : Prop :=
  ∀ o o' b t t', o ≠ o' → lockAt flock o b = some t → lockAt flock o' b = some t' →
    t = .rdlck ∧ t' = .rdlck

variable {flock before block block' after : List (FileLock Owner)} {o o' : Owner}
  {request fl : FileLock Owner} {flock' : List (FileLock Owner)}

lemma isPosixOf_iff : isPosixOf o fl = true ↔ fl.flags.posix = true ∧ fl.owner = o := by
  simp [isPosixOf]

lemma Laid.isPosixOf (h : Laid o block) : ∀ fl ∈ block, isPosixOf o fl = true :=
  fun fl hfl => isPosixOf_iff.mpr ⟨(h.held fl hfl).posix, (h.held fl hfl).owner⟩

lemma isPosixOf_of_owner_ne (hne : fl.owner ≠ o) : isPosixOf o fl = false := by
  simp [isPosixOf, hne]

lemma ownerLocks_block (hbefore : ∀ fl ∈ before, isPosixOf o fl = false)
    (hblock : ∀ fl ∈ block, isPosixOf o fl = true) (hafter : ∀ fl ∈ after, fl.owner ≠ o) :
    ownerLocks o (before ++ block ++ after) = block := by
  have hbefore_nil : before.filter (isPosixOf o) = [] :=
    filter_eq_nil_iff.mpr (by simpa using hbefore)
  have hafter_nil : after.filter (isPosixOf o) = [] :=
    filter_eq_nil_iff.mpr fun fl hfl => by simp [isPosixOf_of_owner_ne (hafter fl hfl)]
  rw [ownerLocks, filter_append, filter_append, hbefore_nil, hafter_nil,
    filter_eq_self.mpr hblock, nil_append, append_nil]

lemma ownerLocks_other (hblock : ∀ fl ∈ block, isPosixOf o fl = true) (ho : o' ≠ o) :
    ownerLocks o' (before ++ block ++ after) = ownerLocks o' before ++ ownerLocks o' after := by
  have hblock_nil : block.filter (isPosixOf o') = [] := by
    refine filter_eq_nil_iff.mpr fun fl hfl => ?_
    have howner := (isPosixOf_iff.mp (hblock fl hfl)).2
    simp [isPosixOf_of_owner_ne (howner.trans_ne ho.symm)]
  rw [ownerLocks, filter_append, filter_append, hblock_nil, append_nil]
  rfl

/-- A list split around the POSIX locks of one owner. -/
structure Split (o : Owner) (flock before block after : List (FileLock Owner)) : Prop where
  eq : flock = before ++ block ++ after
  before_ne : ∀ fl ∈ before, isPosixOf o fl = false
  block_eq : ∀ fl ∈ block, isPosixOf o fl = true
  after_posix : ∀ fl ∈ after, fl.flags.posix = true
  after_ne : ∀ fl ∈ after, fl.owner ≠ o
  after_nil : block = [] → after = []

lemma WellFormed.exists_split (hl : WellFormed flock) (o : Owner) :
    ∃ before block after, Split o flock before block after := by
  obtain ⟨before, block, after, rfl, hbefore, hblock, hafter⟩ := hl.contiguous o
  cases block with
  | nil =>
    refine ⟨before ++ after, [], [], by simp, ?_, by simp, by simp, by simp, fun _ => rfl⟩
    exact forall_mem_append.mpr ⟨hbefore, hafter⟩
  | cons first block =>
    have hfirst := (isPosixOf_iff.mp (hblock first mem_cons_self)).1
    -- what follows a POSIX lock is a POSIX lock, so only its owner can be another one
    have hposix : ∀ fl ∈ after, fl.flags.posix = true := fun fl hfl =>
      (pairwise_append.mp hl.posixLast).2.2 first (by simp) fl hfl hfirst
    refine ⟨before, first :: block, after, rfl, hbefore, hblock, hposix, ?_, by simp⟩
    intro fl hfl howner
    have hmine := isPosixOf_iff.mpr ⟨hposix fl hfl, howner⟩
    simp [hafter fl hfl] at hmine

namespace Split

variable (h : Split o flock before block after)

include h

lemma ownerLocks_eq : ownerLocks o flock = block := by
  rw [h.eq]
  exact ownerLocks_block h.before_ne h.block_eq h.after_ne

lemma laid (hl : WellFormed flock) : Laid o block :=
  h.ownerLocks_eq ▸ ⟨hl.held o, hl.sorted o⟩

lemma span (ho : request.owner = o) :
    (flock.span fun fl => !fl.flags.posix || !posixSameOwner request fl) =
      (before, block ++ after) := by
  have htest : (fun fl : FileLock Owner => !fl.flags.posix || !posixSameOwner request fl) =
      fun fl => !isPosixOf o fl := by
    funext fl
    rw [isPosixOf, posixSameOwner, ho, Bool.not_and, BEq.comm]
  have hbefore : ∀ fl ∈ before, (!isPosixOf o fl) = true := by simpa using h.before_ne
  rw [htest, span_eq_takeWhile_dropWhile, h.eq, append_assoc,
    takeWhile_append_of_pos hbefore, dropWhile_append_of_pos hbefore]
  cases block with
  | nil => simp [h.after_nil rfl]
  | cons first block => simp [h.block_eq first]

/-- Replacing the owner's locks keeps the list well-formed. -/
lemma replace (hl : WellFormed flock) (hlaid : Laid o block') :
    WellFormed (before ++ block' ++ after) := by
  have hblock' : ∀ fl ∈ block', isPosixOf o fl = true := hlaid.isPosixOf
  have hposix : ∀ fl ∈ block', fl.flags.posix = true := fun fl hfl => (hlaid.held fl hfl).posix
  have hlocks (o' : Owner) : Laid o' (ownerLocks o' (before ++ block' ++ after)) := by
    by_cases ho : o' = o
    · subst ho
      rwa [ownerLocks_block h.before_ne hblock' h.after_ne]
    · rw [ownerLocks_other hblock' ho, ← ownerLocks_other h.block_eq ho, ← h.eq]
      exact ⟨hl.held o', hl.sorted o'⟩
  refine ⟨⟨fun o' => ?_, fun o' => (hlocks o').held, fun o' => (hlocks o').sorted⟩, ?_⟩
  · by_cases ho : o' = o
    · subst ho
      exact ⟨before, block', after, rfl, h.before_ne, hblock', fun fl hfl =>
        isPosixOf_of_owner_ne (h.after_ne fl hfl)⟩
    · have hne : ∀ block : List (FileLock Owner), (∀ fl ∈ block, isPosixOf o fl = true) →
          ∀ fl ∈ block, isPosixOf o' fl = false := fun block hblock fl hfl =>
        isPosixOf_of_owner_ne ((isPosixOf_iff.mp (hblock fl hfl)).2.trans_ne (Ne.symm ho))
      exact (h.eq ▸ hl.contiguous o').replace (hne _ h.block_eq) (hne _ hblock') h.after_nil
  · have hlast := h.eq ▸ hl.posixLast
    simp only [pairwise_append, mem_append] at hlast ⊢
    obtain ⟨⟨hbefore, _, _⟩, hafter, _⟩ := hlast
    refine ⟨⟨hbefore, ?_, fun _ _ g hg _ => hposix g hg⟩, hafter,
      fun _ _ g hg _ => h.after_posix g hg⟩
    exact pairwise_of_forall_mem_list fun _ _ g hg _ => hposix g hg

end Split

/-! ## One request -/

/-- On success the locks of the owner are overlaid with a request that no other
owner's lock conflicts with; otherwise the list is as before. -/
lemma posixLockFile_cases (blocked : List (Blocked Owner)) (alloc alloc2 : Bool)
    (hl : WellFormed flock) (hr : IsRequest o request) :
    ((posixLockFile flock blocked request alloc alloc2).2 = flock ∧
      ((posixLockFile flock blocked request alloc alloc2).1 = .ok →
        request.flags.access = true)) ∨
    (request.type ≠ .unlck → ∀ fl ∈ flock, posixLocksConflict request fl = false) ∧
      ∃ before block after, Split o flock before block after ∧
        (posixLockFile flock blocked request alloc alloc2).2 =
          before ++ overlay request block ++ after := by
  unfold posixLockFile
  split
  next fl hfound =>
    left
    split
    · exact ⟨rfl, by simp⟩
    · split
      · exact ⟨rfl, by simp⟩
      · exact ⟨rfl, by simp⟩
  next hnone =>
    split
    next haccess => exact .inl ⟨rfl, fun _ => haccess⟩
    next =>
      have hfree : request.type ≠ .unlck →
          ∀ fl ∈ flock, posixLocksConflict request fl = false := by
        intro hne
        rw [if_neg hne] at hnone
        simpa using hnone
      obtain ⟨before, block, after, hsplit⟩ := hl.exists_split o
      rw [hsplit.span hr.owner]
      have hafter : ∀ fl ∈ after.head?, fl.owner ≠ o := fun fl hfl =>
        hsplit.after_ne fl (mem_of_mem_head? hfl)
      rcases outcome_overlay before _ _ hr (hsplit.laid hl) hafter with hdone | hfailed
      · exact .inr ⟨hfree, before, block, after, hsplit, hdone.2⟩
      · exact .inl ⟨hfailed.2.trans hsplit.eq.symm, fun hok => absurd hok hfailed.1⟩

/-- The request has been written over the byte map of its owner. -/
structure Writes (request : FileLock Owner) (flock flock' : List (FileLock Owner)) : Prop where
  inside : ∀ b, request.start ≤ b → b ≤ request.stop →
    lockAt flock' request.owner b = request.type.granted
  outside : ∀ b, b < request.start ∨ request.stop < b →
    lockAt flock' request.owner b = lockAt flock request.owner b
  other : ∀ o, o ≠ request.owner → ∀ b, lockAt flock' o b = lockAt flock o b

lemma Split.writes (h : Split request.owner flock before block after) (hl : WellFormed flock)
    (hr : IsRequest request.owner request) :
    WellFormed (before ++ overlay request block ++ after) ∧
      Writes request flock (before ++ overlay request block ++ after) := by
  obtain ⟨hlaid, -, htypes⟩ := overlay_leaves hr (h.laid hl)
  have hblock' := hlaid.isPosixOf
  have hmap : ∀ b, lockAt (before ++ overlay request block ++ after) request.owner b =
      if request.start ≤ b ∧ b ≤ request.stop then request.type.granted
      else lockAt flock request.owner b := by
    intro b
    rw [lockAt, lockAt, ownerLocks_block h.before_ne hblock' h.after_ne, h.ownerLocks_eq,
      htypes, written]
  refine ⟨h.replace hl hlaid, ?_, ?_, ?_⟩
  · intro b hstart hstop
    rw [hmap, if_pos ⟨hstart, hstop⟩]
  · intro b hout
    rw [hmap, if_neg (by omega)]
  · intro o ho b
    rw [lockAt, lockAt, h.eq, ownerLocks_other hblock' ho, ownerLocks_other h.block_eq ho]

/-- A byte that another owner holds and the request asks for without a conflict
is held and asked for reading. -/
lemma shared_of_no_conflict {b : Int} {t : LockType} (hl : WellFormed flock)
    (hfree : ∀ fl ∈ flock, posixLocksConflict request fl = false) (ho : o ≠ request.owner)
    (hstart : request.start ≤ b) (hstop : b ≤ request.stop) (hheld : request.type ≠ .unlck)
    (hat : lockAt flock o b = some t) : t = .rdlck ∧ request.type = .rdlck := by
  obtain ⟨fl, hmem, hfstart, hfstop, rfl⟩ := exists_of_typeAt hat
  have hfl := hl.held o fl hmem
  have hno := hfree fl (mem_of_mem_filter hmem)
  have hdiffers : posixSameOwner request fl = false := by
    simpa [posixSameOwner, hfl.owner] using ho.symm
  have hoverlap : locksOverlap request fl = true := by
    simp only [locksOverlap, Bool.and_eq_true, decide_eq_true_eq]
    omega
  simp only [posixLocksConflict, hfl.posix, hdiffers, hoverlap, locksConflict, Bool.not_true,
    Bool.or_false, Bool.false_eq_true, if_false, Bool.or_eq_false_iff, beq_eq_false_iff_ne] at hno
  have hread : ∀ t : LockType, t ≠ .unlck → t ≠ .wrlck → t = .rdlck := by
    intro t
    cases t <;> simp
  exact ⟨hread _ hfl.held hno.1, hread _ hheld hno.2⟩

lemma Writes.compatible (h : Writes request flock flock') (hl : WellFormed flock)
    (hc : Compatible flock)
    (hfree : request.type ≠ .unlck → ∀ fl ∈ flock, posixLocksConflict request fl = false) :
    Compatible flock' := by
  -- the owner of the request against any other owner; the statement is symmetric
  have hside : ∀ o' b t t', o' ≠ request.owner → lockAt flock' request.owner b = some t →
      lockAt flock' o' b = some t' → t = .rdlck ∧ t' = .rdlck := by
    intro o' b t t' ho' ht ht'
    rw [h.other o' ho'] at ht'
    by_cases hin : request.start ≤ b ∧ b ≤ request.stop
    · rw [h.inside b hin.1 hin.2] at ht
      have hheld : request.type ≠ .unlck := by
        intro hunlck
        rw [hunlck] at ht
        cases ht
      rw [LockType.granted_of_ne hheld, Option.some.injEq] at ht
      have hshared := shared_of_no_conflict hl (hfree hheld) ho' hin.1 hin.2 hheld ht'
      exact ⟨ht ▸ hshared.2, hshared.1⟩
    · rw [h.outside b (by omega)] at ht
      exact hc request.owner o' b t t' ho'.symm ht ht'
  intro o o' b t t' hne ht ht'
  by_cases ho : o = request.owner
  · subst ho
    exact hside o' b t t' hne.symm ht ht'
  · by_cases ho' : o' = request.owner
    · subst ho'
      exact (hside o b t' t ho ht' ht).symm
    · rw [h.other o ho] at ht
      rw [h.other o' ho'] at ht'
      exact hc o o' b t t' hne ht ht'

/-! ## Runs -/

/-- A request, or a change to the leases and `flock` locks in front. -/
inductive Step (flock : List (FileLock Owner)) : List (FileLock Owner) → Prop where
  | request (blocked : List (Blocked Owner)) (request : FileLock Owner) (alloc alloc2 : Bool)
      (hr : IsRequest request.owner request) :
      Step flock (posixLockFile flock blocked request alloc alloc2).2
  | others {front front' posix : List (FileLock Owner)} (heq : flock = front ++ posix)
      (hfront : ∀ fl ∈ front, fl.flags.posix = false)
      (hfront' : ∀ fl ∈ front', fl.flags.posix = false)
      (hposix : ∀ fl ∈ posix, fl.flags.posix = true) : Step flock (front' ++ posix)

def Reaches : List (FileLock Owner) → List (FileLock Owner) → Prop :=
  Relation.ReflTransGen Step

section Front

variable {front front' posix : List (FileLock Owner)}

lemma ownerLocks_front (hfront : ∀ fl ∈ front, fl.flags.posix = false) (o : Owner) :
    ownerLocks o (front ++ posix) = ownerLocks o posix := by
  have hnil : front.filter (isPosixOf o) = [] :=
    filter_eq_nil_iff.mpr fun fl hfl => by simp [isPosixOf, hfront fl hfl]
  rw [ownerLocks, filter_append, hnil]
  rfl

lemma WellFormed.replace_front (hl : WellFormed (front ++ posix))
    (hfront : ∀ fl ∈ front, fl.flags.posix = false)
    (hfront' : ∀ fl ∈ front', fl.flags.posix = false)
    (hposix : ∀ fl ∈ posix, fl.flags.posix = true) : WellFormed (front' ++ posix) := by
  have hlocks : ∀ o, ownerLocks o (front' ++ posix) = ownerLocks o (front ++ posix) := fun o => by
    rw [ownerLocks_front hfront, ownerLocks_front hfront']
  refine ⟨⟨fun o => ?_, fun o => hlocks o ▸ hl.held o, fun o => hlocks o ▸ hl.sorted o⟩, ?_⟩
  · obtain ⟨before, block, after, rfl, hbefore, hblock, hafter⟩ :=
      (hl.contiguous o).sublist (sublist_append_right front posix)
    refine ⟨front' ++ before, block, after, by simp, ?_, hblock, hafter⟩
    refine forall_mem_append.mpr ⟨fun fl hfl => ?_, hbefore⟩
    simp [isPosixOf, hfront' fl hfl]
  · refine pairwise_append.mpr ⟨?_, (pairwise_append.mp hl.posixLast).2.1,
      fun _ _ g hg _ => hposix g hg⟩
    exact pairwise_of_forall_mem_list fun f hf g _ h => by simp [hfront' f hf] at h

end Front

lemma step_preserves (hl : WellFormed flock) (hc : Compatible flock) (hstep : Step flock flock') :
    WellFormed flock' ∧ Compatible flock' := by
  cases hstep with
  | request blocked request alloc alloc2 hr =>
    rcases posixLockFile_cases blocked alloc alloc2 hl hr with
      ⟨hsame, _⟩ | ⟨hfree, before, block, after, hsplit, heq⟩
    · rw [hsame]
      exact ⟨hl, hc⟩
    · rw [heq]
      obtain ⟨hl', hwrites⟩ := hsplit.writes hl hr
      exact ⟨hl', hwrites.compatible hl hc hfree⟩
  | others heq hfront hfront' hposix =>
    subst heq
    refine ⟨hl.replace_front hfront hfront' hposix, fun o o' b t t' hne ht ht' => ?_⟩
    rw [lockAt, ownerLocks_front hfront', ← ownerLocks_front hfront] at ht ht'
    exact hc o o' b t t' hne ht ht'

/-- A request that returns zero writes its type over its range in the byte map of
its owner and changes nothing else, and in every run two owners share a byte
only for reading. -/
theorem posix_locks_byte_map :
    (∀ (flock : List (FileLock Owner)) (blocked : List (Blocked Owner))
      (request : FileLock Owner) (alloc alloc2 : Bool), WellFormed flock →
      IsRequest request.owner request → request.flags.access = false →
      (posixLockFile flock blocked request alloc alloc2).1 = .ok →
      WellFormed (posixLockFile flock blocked request alloc alloc2).2 ∧
        Writes request flock (posixLockFile flock blocked request alloc alloc2).2) ∧
    ∀ flock flock' : List (FileLock Owner), WellFormed flock → Compatible flock →
      Reaches flock flock' → WellFormed flock' ∧ Compatible flock' := by
  constructor
  · intro flock blocked request alloc alloc2 hl hr haccess hok
    rcases posixLockFile_cases blocked alloc alloc2 hl hr with
      ⟨_, hprobe⟩ | ⟨_, before, block, after, hsplit, heq⟩
    · simp [hprobe hok] at haccess
    · rw [heq]
      exact hsplit.writes hl hr
  · intro flock flock' hl hc hrun
    induction hrun with
    | refl => exact ⟨hl, hc⟩
    | tail _ hstep ih => exact step_preserves ih.1 ih.2 hstep

/-! ## Fixed lists -/

def lockFlags : Flags := ⟨true, false, false, false⟩

lemma wellFormed_nil : WellFormed ([] : List (FileLock Owner)) :=
  ⟨⟨fun _ => ⟨[], [], [], rfl, by simp, by simp, by simp⟩, fun _ => by simp [ownerLocks],
    fun _ => by simp [ownerLocks]⟩, List.Pairwise.nil⟩

lemma compatible_nil : Compatible ([] : List (FileLock Owner)) := by
  intro o o' b t t' _ ht
  simp [lockAt, ownerLocks, typeAt] at ht

/-- Unlocking the middle of a range of ten bytes leaves its two ends. -/
theorem posix_locks_byte_map_middle :
    posixLockFile [⟨1, lockFlags, .wrlck, 0, 9⟩] [] (⟨1, lockFlags, .unlck, 3, 5⟩ : FileLock Nat)
        true true =
      (.ok, [⟨1, lockFlags, .wrlck, 0, 2⟩, ⟨1, lockFlags, .wrlck, 6, 9⟩]) ∧
    WellFormed [(⟨1, lockFlags, .wrlck, 0, 2⟩ : FileLock Nat), ⟨1, lockFlags, .wrlck, 6, 9⟩] ∧
    Writes (⟨1, lockFlags, .unlck, 3, 5⟩ : FileLock Nat) [⟨1, lockFlags, .wrlck, 0, 9⟩]
      [⟨1, lockFlags, .wrlck, 0, 2⟩, ⟨1, lockFlags, .wrlck, 6, 9⟩] := by
  have hlock : Step ([] : List (FileLock Nat)) [⟨1, lockFlags, .wrlck, 0, 9⟩] :=
    Step.request [] ⟨1, lockFlags, .wrlck, 0, 9⟩ true true
      ⟨rfl, rfl, by decide, by decide, by decide⟩
  have hrun := posix_locks_byte_map.2 _ _ wellFormed_nil compatible_nil
    (Relation.ReflTransGen.single hlock)
  exact ⟨by decide, posix_locks_byte_map.1 _ [] ⟨1, lockFlags, .unlck, 3, 5⟩ true true hrun.1
    ⟨rfl, rfl, by decide, by decide, by decide⟩ rfl (by decide)⟩

/-- A lease of an owner behind its POSIX lock. -/
def leaseLast : List (FileLock Nat) :=
  [⟨1, lockFlags, .rdlck, 0, 4⟩, ⟨1, ⟨false, false, false, false⟩, .wrlck, 0, offsetMax⟩]

/-- A probe returns zero and locks nothing; and with a lease behind the POSIX
locks, which the pass does not tell from one of them, a write lock that returns
zero is not held. -/
theorem posix_locks_probe_and_lease :
    (posixLockFile [] [] (⟨1, ⟨true, true, false, false⟩, .wrlck, 0, 9⟩ : FileLock Nat) true true =
      (.ok, []) ∧ lockAt ([] : List (FileLock Nat)) 1 0 ≠ some .wrlck) ∧
    Represented leaseLast ∧
      (posixLockFile leaseLast [] ⟨1, lockFlags, .wrlck, 10, 20⟩ true true).1 = .ok ∧
      lockAt (posixLockFile leaseLast [] ⟨1, lockFlags, .wrlck, 10, 20⟩ true true).2 1 10 ≠
        some .wrlck := by
  refine ⟨by decide, ⟨fun o => ?_, fun o => ?_, fun o => ?_⟩, by decide, by decide⟩
  · by_cases ho : 1 = o
    · subst ho
      exact ⟨[], _, _, singleton_append.symm, by simp, by decide, by decide⟩
    · exact ⟨leaseLast, [], [], by simp, by simp [leaseLast, isPosixOf, ho], by simp, by simp⟩
  · by_cases ho : 1 = o
    · subst ho
      simpa [leaseLast, ownerLocks, isPosixOf, lockFlags] using
        (⟨⟨rfl, rfl, by decide, by decide, by decide⟩, by decide⟩ :
          IsHeld 1 (⟨1, lockFlags, .rdlck, 0, 4⟩ : FileLock Nat))
    · simp [leaseLast, ownerLocks, isPosixOf, ho]
  · by_cases ho : 1 = o <;> simp [leaseLast, ownerLocks, isPosixOf, lockFlags, ho]

end R0Kernel.Fs.Locks
