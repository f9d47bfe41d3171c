import R0Kernel.Fs.Locks.Inode

/-! # A failed request leaves the list as it was

The pass changes nodes before the results of the allocations are looked at. Once
it has changed one, the request starts at or before every lock of the owner that
is still to come, so no later lock can be cut in two and the test for the second
allocation does not fire. While it has changed none, every error leaves the list
alone. -/

namespace R0Kernel.Fs.Locks

open List

variable {Owner : Type*} [DecidableEq Owner]

/-- The locks of the owner that the second loop can come to: those from its first
POSIX lock on. The leases and `flock` locks in front of that are skipped. -/
def walked (o : Owner) (flock : List (FileLock Owner)) : List (FileLock Owner) :=
  (flock.dropWhile fun fl => !isPosixOf o fl).filter fun fl => fl.owner == o

/-- For each owner, these locks are ranges in ascending order without overlaps. -/
structure OwnerSorted (flock : List (FileLock Owner)) : Prop where
  ordered : ∀ o, ∀ fl ∈ walked o flock, fl.start ≤ fl.stop
  apart : ∀ o, (walked o flock).Pairwise fun f g => f.stop < g.start

variable {o : Owner} {w : Walk Owner} {fl : FileLock Owner} {f : FileLock Owner → FileLock Owner}
  {flock rest l : List (FileLock Owner)}

/-! ## What the variables point to -/

section Variables

omit [DecidableEq Owner]

/-- The nodes that the variables point to are in front of `before`. -/
structure Placed (w : Walk Owner) : Prop where
  request : ∀ i ∈ w.request, i < w.passed.length
  left : ∀ i ∈ w.left, i < w.passed.length
  right : w.right = none

section

variable (h : Placed w)

include h

lemma Placed.pass (fl : FileLock Owner) : Placed (w.pass fl) := by
  refine ⟨fun i hi => ?_, fun i hi => ?_, h.right⟩
  · have := h.request i hi
    simp only [Walk.pass, length_append]
    omega
  · have := h.left i hi
    simp only [Walk.pass, length_append]
    omega

lemma Placed.adopt (fl : FileLock Owner) : Placed (w.adopt fl) := by
  refine ⟨?_, (h.pass fl).left, h.right⟩
  simp [Walk.adopt, Walk.pass]

lemma Placed.modifyReq : Placed (w.modifyReq f) := by
  unfold Walk.modifyReq
  split
  · exact ⟨by simp_all, h.left, h.right⟩
  · exact ⟨by simpa using h.request, by simpa using h.left, h.right⟩

lemma Placed.req_pass (fl : FileLock Owner) : (w.pass fl).req = w.req := by
  unfold Walk.req Walk.pass
  cases hreq : w.request with
  | none => rfl
  | some i =>
    have hi := h.request i hreq
    simp [getElem?_append_left hi]

lemma Placed.req_modifyReq : (w.modifyReq f).req = f w.req := by
  unfold Walk.req Walk.modifyReq
  cases hreq : w.request with
  | none => simp
  | some i =>
    have hi := h.request i hreq
    simp [hi]

end

lemma req_adopt (w : Walk Owner) (fl : FileLock Owner) : (w.adopt fl).req = fl := by
  simp [Walk.req, Walk.adopt, Walk.pass]

lemma added_modifyReq (w : Walk Owner) : (w.modifyReq f).added = w.added := by
  unfold Walk.modifyReq
  split <;> rfl

/-- After a merge the request and the node both start at the lower start. -/
structure Merged (w : Walk Owner) (fl : FileLock Owner) (w' : Walk Owner) (fl' : FileLock Owner) :
    Prop where
  placed : Placed w'
  added : w'.added = w.added
  req_owner : w'.req.owner = w.req.owner
  req_start : w'.req.start = min w.req.start fl.start
  owner : fl'.owner = fl.owner
  start : fl'.start = min w.req.start fl.start

lemma Placed.mergeInto (h : Placed w) (fl : FileLock Owner) :
    Merged w fl (w.mergeInto fl).1 (w.mergeInto fl).2 := by
  -- the two starts are levelled first, whichever of them is assigned
  obtain ⟨first, hfirst, hmerged⟩ : ∃ first, first =
      (if w.req.start < fl.start then (w, { fl with start := w.req.start })
        else (w.modifyReq fun r => { r with start := fl.start }, fl)) ∧
      Merged w fl first.1 first.2 := by
    refine ⟨_, rfl, ?_⟩
    by_cases hlt : w.req.start < fl.start
    · rw [if_pos hlt]
      exact ⟨h, rfl, rfl, by simp [hlt.le], rfl, by simp [hlt.le]⟩
    · rw [if_neg hlt]
      have hle := not_lt.mp hlt
      dsimp only
      refine ⟨h.modifyReq, added_modifyReq w, ?_, ?_, rfl, by simp [hle]⟩ <;>
        rw [h.req_modifyReq]
      simp [hle]
  unfold Walk.mergeInto
  simp only [← hfirst]
  obtain ⟨hplaced, hadded, howner, hstart, howner', hstart'⟩ := hmerged
  split
  · exact ⟨hplaced, hadded, howner, hstart, howner', hstart'⟩
  · dsimp only
    refine ⟨hplaced.modifyReq, (added_modifyReq _).trans hadded, ?_, ?_, howner', hstart'⟩ <;>
      rw [hplaced.req_modifyReq]
    · exact howner
    · exact hstart

end Variables

/-! ## The pass -/

/-- The locks from `*before` on that the loop can still come to. -/
def ahead (o : Owner) (rest : List (FileLock Owner)) : List (FileLock Owner) :=
  rest.takeWhile fun fl => fl.owner == o

/-- A node has been changed or deleted: the request has its place, and no lock
ahead begins before it. -/
structure Started (o : Owner) (w : Walk Owner) (rest : List (FileLock Owner)) : Prop where
  added : w.added = true
  begins : ∀ g ∈ ahead o rest, w.req.start ≤ g.start

/-- How the pass ends: with the list as it was, or with the request in place and
no lock to be cut in two. -/
def Ended (l : List (FileLock Owner)) (walked : Walk Owner × List (FileLock Owner)) : Prop :=
  walked.1.passed ++ walked.2 = l ∨
    walked.1.added = true ∧ (walked.1.right.isSome = true → walked.1.left ≠ walked.1.right)

lemma ended_here (hw : Placed w) (h : w.passed ++ rest = l ∨ Started o w rest) :
    Ended l (w, rest) := by
  rcases h with hsame | hstarted
  · exact .inl hsame
  · exact .inr ⟨hstarted.added, by simp [hw.right]⟩

lemma ahead_cons (howner : fl.owner = o) : ahead o (fl :: rest) = fl :: ahead o rest := by
  simp [ahead, howner]

/-- A lock that is passed leaves what is known as it is. -/
lemma state_pass (hw : Placed w) (howner : fl.owner = o)
    (h : w.passed ++ fl :: rest = l ∨ Started o w (fl :: rest)) :
    (w.pass fl).passed ++ rest = l ∨ Started o (w.pass fl) rest := by
  rcases h with hsame | ⟨hadded, hbegins⟩
  · left
    simpa [Walk.pass] using hsame
  · right
    rw [ahead_cons howner] at hbegins
    refine ⟨hadded, fun g hg => ?_⟩
    rw [hw.req_pass]
    exact hbegins g (mem_cons_of_mem _ hg)

/-- The variables after `fl` has been found to overlap with the request. -/
lemma overlap_ended (hw : Placed w) (hreq : w.req.owner = o) (howner : fl.owner = o)
    (hbehind : ∀ g ∈ ahead o rest, fl.start ≤ g.start)
    (hstate : w.passed ++ fl :: rest = l ∨ Started o w (fl :: rest))
    (ih : ∀ w : Walk Owner, Placed w → w.req.owner = o →
      (w.passed ++ rest = l ∨ Started o w rest) → Ended l (processOwner w rest)) :
    Ended l
      (let w := if fl.start < w.req.start then { w with left := some w.passed.length } else w
      if w.req.stop < fl.stop then ({ w with right := some w.passed.length }, fl :: rest)
      else if w.req.start ≤ fl.start then
        if w.added then processOwner w rest
        else processOwner (w.adopt { fl with
          start := w.req.start, stop := w.req.stop, type := w.req.type }) rest
      else processOwner (w.pass fl) rest) := by
  by_cases hlt : fl.start < w.req.start
  · -- a lock that begins before the request is met only while nothing has changed
    have hsame : w.passed ++ fl :: rest = l := by
      rcases hstate with hsame | ⟨_, hbegins⟩
      · exact hsame
      · rw [ahead_cons howner] at hbegins
        exact absurd (hbegins fl mem_cons_self) (not_le.mpr hlt)
    simp only [if_pos hlt]
    split_ifs with hright hle
    · exact .inl hsame
    · exact absurd hle (not_le.mpr hlt)
    · exact absurd hle (not_le.mpr hlt)
    · set w' : Walk Owner := { w with left := some w.passed.length }
      have hplaced : Placed (w'.pass fl) := by
        refine ⟨(hw.pass fl).request, ?_, hw.right⟩
        simp [w', Walk.pass]
      refine ih _ hplaced ?_ (.inl (by simpa [w', Walk.pass] using hsame))
      exact (congrArg FileLock.owner (hw.req_pass fl)).trans hreq
  · have hle := not_lt.mp hlt
    simp only [if_neg hlt, if_pos hle]
    split_ifs with hright hadded
    · rcases hstate with hsame | hstarted
      · exact .inl hsame
      · refine .inr ⟨hstarted.added, fun _ heq => ?_⟩
        exact absurd (hw.left _ heq) (lt_irrefl _)
    · exact ih w hw hreq (.inr ⟨hadded, fun g hg => hle.trans (hbehind g hg)⟩)
    · refine ih _ (hw.adopt _) ?_ (.inr ⟨rfl, fun g hg => ?_⟩)
      · rw [req_adopt]
        exact howner
      · rw [req_adopt]
        exact hle.trans (hbehind g hg)

lemma processOwner_ended (rest : List (FileLock Owner)) : ∀ w : Walk Owner, Placed w →
    w.req.owner = o → (ahead o rest).Pairwise (fun f g => f.start ≤ g.start) →
    (w.passed ++ rest = l ∨ Started o w rest) → Ended l (processOwner w rest) := by
  induction rest with
  | nil =>
    intro w hw _ _ hstate
    exact ended_here hw hstate
  | cons fl rest ih =>
    intro w hw hreq hsorted hstate
    unfold processOwner
    by_cases howner : fl.owner = o
    swap
    · have hdiff : posixSameOwner w.req fl = false := by
        simpa [posixSameOwner, hreq] using Ne.symm howner
      rw [if_pos (by simp [hdiff])]
      exact ended_here hw hstate
    have hsame : posixSameOwner w.req fl = true := by simp [posixSameOwner, hreq, howner]
    rw [if_neg (by simp [hsame])]
    rw [ahead_cons howner, pairwise_cons] at hsorted
    obtain ⟨hbehind, hsorted⟩ := hsorted
    have hpass := ih (w.pass fl) (hw.pass fl) (by rw [hw.req_pass, hreq]) hsorted
      (state_pass hw howner hstate)
    by_cases htype : w.req.type = fl.type
    · have hmerged := hw.mergeInto fl
      split_ifs with hbefore hafter hadded
      · exact hpass
      · exact ended_here hw hstate
      · refine ih _ hmerged.placed (hmerged.req_owner.trans hreq) hsorted
          (.inr ⟨hmerged.added.trans hadded, fun g hg => ?_⟩)
        rw [hmerged.req_start]
        exact (min_le_right _ _).trans (hbehind g hg)
      · refine ih _ (hmerged.placed.adopt _) ?_ hsorted (.inr ⟨rfl, fun g hg => ?_⟩)
        · rw [req_adopt, hmerged.owner, howner]
        · rw [req_adopt, hmerged.start]
          exact (min_le_right _ _).trans (hbehind g hg)
    · rw [if_neg htype]
      by_cases hbefore : fl.stop < w.req.start
      · rw [if_pos hbefore]
        exact hpass
      rw [if_neg hbefore]
      by_cases hafter : w.req.stop < fl.start
      · rw [if_pos hafter]
        exact ended_here hw hstate
      rw [if_neg hafter]
      have ih' := fun w hw hreq => ih w hw hreq hsorted
      by_cases hunlck : w.req.type = .unlck
      · simp only [if_pos hunlck]
        -- an unlock counts as added from here on, before it has changed anything
        have hw' : Placed { w with added := true } := ⟨hw.request, hw.left, hw.right⟩
        exact overlap_ended hw' hreq howner hbehind
          (hstate.imp id fun hstarted => ⟨rfl, hstarted.begins⟩) ih'
      · simp only [if_neg hunlck]
        exact overlap_ended hw hreq howner hbehind hstate ih'

/-! ## The request -/

omit [DecidableEq Owner] in
lemma finishLock_error {walked : Walk Owner × List (FileLock Owner)} {newFl newFl2 : Bool}
    (h : Ended l walked) (herr : (finishLock walked.1 walked.2 newFl newFl2).1 ≠ .ok) :
    (finishLock walked.1 walked.2 newFl newFl2).2 = l := by
  rcases h with hsame | ⟨hadded, hcut⟩
  · revert herr
    unfold finishLock
    split_ifs <;> simp [hsame]
  · -- with the request in place only the second allocation could be missing
    have hcut' : (walked.1.right.isSome && walked.1.left == walked.1.right) = false := by
      cases hright : walked.1.right with
      | none => rfl
      | some i =>
        have hne := hcut (by simp [hright])
        rw [hright] at hne
        simpa using hne
    simp [finishLock, hadded, hcut'] at herr

lemma OwnerSorted.ahead (h : OwnerSorted flock) (o : Owner) :
    (ahead o (flock.dropWhile fun fl => !isPosixOf o fl)).Pairwise
      fun f g => f.start ≤ g.start := by
  have hsub : (Locks.ahead o (flock.dropWhile fun fl => !isPosixOf o fl)).Sublist
      (walked o flock) := by
    have hfilter := (takeWhile_sublist (fun fl : FileLock Owner => fl.owner == o)
      (l := flock.dropWhile fun fl => !isPosixOf o fl)).filter fun fl => fl.owner == o
    rwa [filter_eq_self.mpr] at hfilter
    intro fl hfl
    simpa using mem_takeWhile_imp hfl
  refine ((h.apart o).sublist hsub).imp_of_mem fun {f g} hf _ hlt => ?_
  exact (h.ordered o f (hsub.subset hf)).trans hlt.le

lemma walked_eq_ownerLocks (h : flock.Pairwise fun f g => f.flags.posix → g.flags.posix)
    (o : Owner) : walked o flock = ownerLocks o flock := by
  induction flock with
  | nil => rfl
  | cons fl rest ih =>
    obtain ⟨hlast, hrest⟩ := pairwise_cons.mp h
    cases hfl : isPosixOf o fl with
    | false => simpa [walked, ownerLocks, hfl] using ih hrest
    | true =>
      have hposix : ∀ g ∈ fl :: rest, g.flags.posix = true := by
        have hfirst := (isPosixOf_iff.mp hfl).1
        exact forall_mem_cons.mpr ⟨hfirst, fun g hg => hlast g hg hfirst⟩
      rw [walked, dropWhile_cons_of_neg (by simp [hfl])]
      exact filter_congr fun g hg => by simp [isPosixOf, hposix g hg]

/-- The condition of the next theorem holds in every list that requests keep well formed. -/
lemma WellFormed.ownerSorted (h : WellFormed flock) : OwnerSorted flock := by
  refine ⟨fun o fl hfl => ?_, fun o => ?_⟩
  · rw [walked_eq_ownerLocks h.posixLast] at hfl
    exact (h.held o fl hfl).ordered
  · rw [walked_eq_ownerLocks h.posixLast]
    exact (h.sorted o).imp fun hsep => hsep.1

/-- When the function returns an error, the list is the one it was called with. -/
theorem posixLockFile_error_unchanged (flock : List (FileLock Owner))
    (blocked : List (Blocked Owner)) (request : FileLock Owner) (alloc alloc2 : Bool)
    (hsorted : OwnerSorted flock)
    (herr : (posixLockFile flock blocked request alloc alloc2).1 ≠ .ok) :
    (posixLockFile flock blocked request alloc alloc2).2 = flock := by
  revert herr
  unfold posixLockFile
  cases (if request.type = .unlck then none
    else flock.find? fun fl => posixLocksConflict request fl) with
  | some fl =>
    dsimp only
    split_ifs <;> simp
  | none =>
    dsimp only
    split_ifs with haccess
    · simp
    have htest : (fun fl : FileLock Owner => !fl.flags.posix || !posixSameOwner request fl) =
        fun fl => !isPosixOf request.owner fl := by
      simp [isPosixOf, posixSameOwner, Bool.not_and, Bool.beq_comm]
    rw [htest, span_eq_takeWhile_dropWhile]
    refine finishLock_error (processOwner_ended _ _ ?_ rfl (hsorted.ahead request.owner) ?_)
    · exact ⟨by simp, by simp, rfl⟩
    · exact .inl takeWhile_append_dropWhile

/-- Unlocking the middle of a lock without a second structure. -/
theorem posixLockFile_error_unchanged_cut :
    let held : FileLock Nat := ⟨1, ⟨true, false, false, false⟩, .rdlck, 0, 10⟩
    let request : FileLock Nat := ⟨1, ⟨true, false, false, false⟩, .unlck, 4, 5⟩
    (posixLockFile [held] [] request true false).1 = .enolck ∧
      (posixLockFile [held] [] request true false).2 = [held] := by
  intro held request
  have hsorted : OwnerSorted [held] := by
    have hsub : ∀ o, (walked o [held]).Sublist [held] := fun o =>
      filter_sublist.trans (dropWhile_sublist _)
    refine ⟨fun o fl hfl => ?_, fun o => (pairwise_singleton _ held).sublist (hsub o)⟩
    obtain rfl := mem_singleton.mp ((hsub o).subset hfl)
    decide
  have herr : (posixLockFile [held] [] request true false).1 = .enolck := by decide
  exact ⟨herr, posixLockFile_error_unchanged _ _ _ _ _ hsorted (by simp [herr])⟩

end R0Kernel.Fs.Locks
