import R0Kernel.Fs.Locks.Segment

/-! # The pass computes the overlay

`processOwner` and `finishLock` on an owner's locks give `overlay`. Until a lock
is adopted the request is the caller's structure and the variable `left` marks a
lock still to be trimmed; from then on the request is the last node passed.
-/

namespace R0Kernel.Fs.Locks

open List

section Modify

variable {α : Type*}

lemma modify_append_left {i : Nat} {xs : List α} (ys : List α) (f : α → α)
    (hi : i < xs.length) : (xs ++ ys).modify i f = xs.modify i f ++ ys := by
  induction xs generalizing i with
  | nil => simp at hi
  | cons x xs ih =>
    cases i with
    | zero => rfl
    | succ i => simpa using ih (Nat.lt_of_succ_lt_succ hi)

lemma modify_concat_length (xs : List α) (x : α) (f : α → α) :
    (xs ++ [x]).modify xs.length f = xs ++ [f x] := by
  induction xs with
  | nil => rfl
  | cons y ys ih => simpa using ih

end Modify

lemma loff_eq {x : Int} (hlow : -1 ≤ x) (hhigh : x ≤ offsetMax) : loff x = x := by
  unfold offsetMax at hhigh
  apply Int.bmod_eq_of_le <;> omega

variable {Owner : Type*}

/-- The nodes in front once `left` has been cut off before `start`. -/
def trimmed (left : Option Nat) (start : Int) (passed : List (FileLock Owner)) :
    List (FileLock Owner) :=
  match left with
  | some i => passed.modify i fun fl => { fl with stop := start - 1 }
  | none => passed

lemma trimmed_append {left : Option Nat} {passed : List (FileLock Owner)} (start : Int)
    (later : List (FileLock Owner)) (hleft : ∀ i ∈ left, i < passed.length) :
    trimmed left start (passed ++ later) = trimmed left start passed ++ later := by
  cases left with
  | none => rfl
  | some i => exact modify_append_left later _ (hleft i rfl)

/-- Before a lock is adopted. -/
abbrev searching (passed : List (FileLock Owner)) (r : FileLock Owner) (left : Option Nat)
    (added : Bool) : Walk Owner :=
  ⟨passed, r, none, left, none, added⟩

/-- The request is the lock `r` behind `passed`. -/
abbrev adopted (passed : List (FileLock Owner)) (r caller : FileLock Owner)
    (left : Option Nat) : Walk Owner :=
  ⟨passed ++ [r], caller, some passed.length, left, none, true⟩

section Phases

variable {passed rest later locks : List (FileLock Owner)} {r caller fl : FileLock Owner}
  {left right : Option Nat} {added newFl newFl2 : Bool} {o : Owner}

lemma req_adopted :
    (⟨passed ++ [r], caller, some passed.length, left, right, added⟩ : Walk Owner).req = r := by
  simp [Walk.req]

lemma mergeInto_searching :
    (searching passed r left added).mergeInto fl =
      (searching passed
        { r with start := min fl.start r.start, stop := max fl.stop r.stop } left added,
        { fl with start := min fl.start r.start, stop := max fl.stop r.stop }) := by
  unfold Walk.mergeInto
  by_cases hstart : r.start < fl.start <;> by_cases hstop : fl.stop < r.stop <;>
    simp [Walk.req, Walk.modifyReq, hstart, hstop, le_of_lt, not_lt.mp]

lemma mergeInto_adopted (hstart : r.start ≤ fl.start) :
    ((adopted passed r caller left).mergeInto fl).1 =
      adopted passed { r with stop := max r.stop fl.stop } caller left := by
  have hreq : (adopted passed r caller left).req = r := req_adopted
  unfold Walk.mergeInto
  rcases lt_or_eq_of_le hstart with hlt | heq
  · by_cases hstop : fl.stop < r.stop <;>
      simp [hreq, Walk.modifyReq, modify_concat_length, hlt, hstop, le_of_lt, not_lt.mp]
  · by_cases hstop : fl.stop < r.stop <;>
      simp [hreq, Walk.modifyReq, modify_concat_length, ← heq, hstop, le_of_lt, not_lt.mp]

/-! ## After the pass -/

section

variable (hr : IsRequest o r)

include hr

lemma loff_pred : loff (r.start - 1) = r.start - 1 :=
  loff_eq (by linarith [hr.nonneg]) (by linarith [hr.ordered, hr.bounded])

lemma loff_succ (hbound : r.stop < offsetMax) :
    loff (r.stop + 1) = r.stop + 1 :=
  loff_eq (by linarith [hr.nonneg, hr.ordered]) (by linarith)

lemma insertAndTrim_none (request : Option Nat)
    (hreq : (⟨passed, caller, request, left, none, added⟩ : Walk Owner).req = r) :
    insertAndTrim ⟨passed, caller, request, left, none, added⟩ rest =
      trimmed left r.start passed ++ (if added then [] else [r]) ++ rest := by
  unfold insertAndTrim
  cases left <;> simp [hreq, trimmed, loff_pred hr]

lemma insertAndTrim_right (hbound : r.stop < offsetMax) {request : Option Nat} {j : Nat}
    (hne : left ≠ some j)
    (hreq : (⟨passed, caller, request, left, some j, added⟩ : Walk Owner).req = r) :
    insertAndTrim ⟨passed, caller, request, left, some j, added⟩ (fl :: rest) =
      trimmed left r.start passed ++ (if added then [] else [r]) ++
        { fl with start := r.stop + 1 } :: rest := by
  unfold insertAndTrim
  cases left <;> simp [hreq, hne, trimmed, loff_pred hr, loff_succ hr hbound]

lemma finishLock_adopted (hleft : ∀ i ∈ left, i < passed.length) :
    finishLock (adopted passed r caller left) rest newFl newFl2 =
      (.ok, trimmed left r.start passed ++ r :: rest) := by
  simp [finishLock, insertAndTrim_none hr _ req_adopted, trimmed_append _ _ hleft]

lemma finishLock_adopted_right (hleft : ∀ i ∈ left, i < passed.length)
    (hbound : r.stop < offsetMax) :
    finishLock { adopted passed r caller left with right := some (passed ++ [r]).length }
        (fl :: rest) newFl newFl2 =
      (.ok, trimmed left r.start passed ++ r :: { fl with start := r.stop + 1 } :: rest) := by
  have hne : left ≠ some (passed ++ [r]).length := by
    intro heq
    have := hleft _ heq
    simp at this
  simp only [finishLock, insertAndTrim_right hr hbound hne req_adopted, trimmed_append _ _ hleft,
    beq_eq_false_iff_ne.mpr hne, Bool.and_false, Bool.false_and, Bool.not_true, if_true,
    Bool.false_eq_true, if_false, append_assoc, singleton_append]

end

/-- The list is replaced on success and untouched on an error. -/
def Completes (result : Errno × List (FileLock Owner))
    (before after : List (FileLock Owner)) : Prop :=
  result.1 = .ok ∧ result.2 = after ∨ result.1 ≠ .ok ∧ result.2 = before

lemma Completes.of_eq {result : Errno × List (FileLock Owner)}
    {before after : List (FileLock Owner)} (h : result = (.ok, after)) :
    Completes result before after := by
  rw [h]
  exact .inl ⟨rfl, rfl⟩

lemma finishLock_searching (rest : List (FileLock Owner)) (hr : IsRequest o r)
    (hleft : r.type = .unlck → left = none) :
    Completes (finishLock (searching passed r left false) rest newFl newFl2)
      (passed ++ rest) (trimmed left r.start passed ++ inserted r ++ rest) := by
  have hinsert : insertAndTrim (searching passed r left false) rest = _ :=
    insertAndTrim_none hr none rfl
  by_cases hunlck : r.type = .unlck
  · obtain rfl := hleft hunlck
    cases hexists : r.flags.exists' <;>
      simp [Completes, finishLock, inserted, trimmed, Walk.req, hunlck, hexists]
  · cases newFl <;> simp [Completes, finishLock, hinsert, inserted, Walk.req, hunlck]

lemma finishLock_sweeping (hr : IsRequest o r) :
    finishLock (searching passed r left true) rest newFl newFl2 =
      (.ok, trimmed left r.start passed ++ rest) := by
  simp [finishLock, insertAndTrim_none hr none rfl]

section

variable (fl : FileLock Owner) (rest : List (FileLock Owner)) (newFl newFl2 : Bool)
  (hr : IsRequest o r)

include hr

lemma finishLock_right (hleft : ∀ i ∈ left, i < passed.length) (hbound : r.stop < offsetMax) :
    finishLock ⟨passed, r, none, left, some passed.length, r.type == .unlck⟩
        (fl :: rest) newFl newFl2 =
      if r.type = .unlck ∨ newFl = true then
        (.ok, trimmed left r.start passed ++ inserted r ++
          { fl with start := r.stop + 1 } :: rest)
      else (.enolck, passed ++ fl :: rest) := by
  have hne : left ≠ some passed.length := fun heq => absurd (hleft _ heq) (lt_irrefl _)
  rw [finishLock, insertAndTrim_right hr hbound hne rfl]
  by_cases hunlck : r.type = .unlck
  · simp [inserted, hunlck, hne]
  · cases newFl <;> simp [inserted, Walk.req, hunlck, hne]

lemma finishLock_split (hbound : r.stop < offsetMax) :
    Completes
      (finishLock ⟨passed, r, none, some passed.length, some passed.length, r.type == .unlck⟩
        (fl :: rest) newFl newFl2)
      (passed ++ fl :: rest)
      (passed ++ { fl with stop := r.start - 1 } :: inserted r ++
        { fl with start := r.stop + 1 } :: rest) := by
  unfold finishLock insertAndTrim
  cases newFl2 with
  | false => simp [Completes]
  | true =>
    by_cases hunlck : r.type = .unlck
    · simp [Completes, inserted, Walk.req, hunlck, loff_pred hr, loff_succ hr hbound]
    · cases newFl <;>
        simp [Completes, inserted, Walk.req, hunlck, loff_pred hr, loff_succ hr hbound]

end

/-! ## The pass -/

variable [DecidableEq Owner]

lemma sameOwner (hr : IsRequest o r) (hfl : IsRequest o fl) : posixSameOwner r fl = true := by
  simp [posixSameOwner, hr.owner, hfl.owner]

lemma processOwner_stop {w : Walk Owner} (hstop : ∀ g ∈ rest.head?, g.owner ≠ w.req.owner) :
    processOwner w rest = (w, rest) := by
  cases rest with
  | nil => rfl
  | cons fl rest =>
    have hne : posixSameOwner w.req fl = false := by
      simpa [posixSameOwner] using (hstop fl rfl).symm
    simp [processOwner, hne]

/-- The pass over the owner's locks and what follows it. -/
def outcome (w : Walk Owner) (locks : List (FileLock Owner)) (newFl newFl2 : Bool) :
    Errno × List (FileLock Owner) :=
  finishLock (processOwner w locks).1 (processOwner w locks).2 newFl newFl2

lemma outcome_adopted (hr : IsHeld o r) (hlocks : ∀ g ∈ locks, IsHeld o g)
    (hstart : ∀ g ∈ locks, r.start ≤ g.start) (hlater : ∀ g ∈ later.head?, g.owner ≠ o)
    (hleft : ∀ i ∈ left, i < passed.length) :
    outcome (adopted passed r caller left) (locks ++ later) newFl newFl2 =
      (.ok, trimmed left r.start passed ++ absorb r locks ++ later) := by
  induction locks generalizing r with
  | nil =>
    rw [outcome, processOwner_stop (by rwa [req_adopted, hr.owner])]
    simpa [absorb] using finishLock_adopted hr.toIsRequest hleft
  | cons fl rest ih =>
    obtain ⟨hfl, hrest⟩ := forall_mem_cons.mp hlocks
    obtain ⟨hle, hstart'⟩ := forall_mem_cons.mp hstart
    have hordered := hfl.ordered
    -- the request starts at or before every lock that is left, so none is skipped
    have hnotBefore : ¬ fl.stop < r.start := by omega
    have hnotBefore' : ¬ fl.stop < r.start - 1 := by omega
    have hnotLeft : ¬ fl.start < r.start := by omega
    rw [cons_append]
    unfold outcome processOwner absorb
    simp only [req_adopted, sameOwner hr.toIsRequest hfl.toIsRequest, loff_pred hr.toIsRequest,
      loff_pred hfl.toIsRequest, hnotBefore, hnotBefore', hnotLeft, Bool.not_true,
      Bool.false_eq_true, if_false, hr.held, if_true, hle]
    split_ifs with htype hgap hgap hstick
    · simpa using finishLock_adopted hr.toIsRequest hleft
    · rw [mergeInto_adopted hle]
      exact ih (hr.extend hfl) hrest hstart'
    · simpa using finishLock_adopted hr.toIsRequest hleft
    · simpa using finishLock_adopted_right hr.toIsRequest hleft (hstick.trans_le hfl.bounded)
    · exact ih hr hrest hstart'

/-- An unlock that has met its first lock: only deletions and one trim follow. -/
lemma outcome_sweeping (hr : IsRequest o r) (hunlck : r.type = .unlck)
    (hlocks : ∀ g ∈ locks, IsHeld o g) (hstart : ∀ g ∈ locks, r.start ≤ g.start)
    (hlater : ∀ g ∈ later.head?, g.owner ≠ o) (hleft : ∀ i ∈ left, i < passed.length) :
    outcome (searching passed r left true) (locks ++ later) newFl newFl2 =
      (.ok, trimmed left r.start passed ++ overlay r locks ++ later) := by
  induction locks with
  | nil =>
    rw [outcome, processOwner_stop (by rwa [Walk.req, hr.owner])]
    simpa [overlay, inserted, hunlck] using finishLock_sweeping hr
  | cons fl rest ih =>
    obtain ⟨hfl, hrest⟩ := forall_mem_cons.mp hlocks
    obtain ⟨hle, hstart'⟩ := forall_mem_cons.mp hstart
    have hne : LockType.unlck ≠ fl.type := hfl.held.symm
    have hordered := hfl.ordered
    have hnotBefore : ¬ fl.stop < r.start := by omega
    have hnotLeft : ¬ fl.start < r.start := by omega
    rw [cons_append]
    unfold outcome processOwner overlay leftPiece inserted
    simp only [Walk.req, sameOwner hr hfl.toIsRequest, hunlck, hne, hnotBefore, hnotLeft, hle,
      Bool.not_true, Bool.false_eq_true, if_false, if_true]
    split_ifs with hgap hstick
    · simpa using finishLock_sweeping hr
    · have hright := finishLock_right fl (rest ++ later) newFl newFl2 hr hleft
        (hstick.trans_le hfl.bounded)
      simpa [hunlck, inserted] using hright
    · exact ih hrest hstart'

/-- One round of the pass before a lock is adopted. -/
lemma processOwner_searching (hr : IsRequest o r) (hfl : IsRequest o fl) :
    processOwner (searching passed r left false) (fl :: rest) =
      if r.type = fl.type then
        if fl.stop < r.start - 1 then
          processOwner (searching (passed ++ [fl]) r left false) rest
        else if r.stop < fl.start - 1 then (searching passed r left false, fl :: rest)
        else processOwner (adopted passed
          { fl with start := min fl.start r.start, stop := max fl.stop r.stop }
          { r with start := min fl.start r.start, stop := max fl.stop r.stop } left) rest
      else if fl.stop < r.start then
        processOwner (searching (passed ++ [fl]) r left false) rest
      else if r.stop < fl.start then (searching passed r left false, fl :: rest)
      else if r.stop < fl.stop then
        (⟨passed, r, none, if fl.start < r.start then some passed.length else left,
          some passed.length, r.type == .unlck⟩, fl :: rest)
      else if r.start ≤ fl.start then
        if r.type = .unlck then processOwner (searching passed r left true) rest
        else processOwner (adopted passed
          { fl with start := r.start, stop := r.stop, type := r.type } r left) rest
      else processOwner
        (searching (passed ++ [fl]) r (some passed.length) (r.type == .unlck)) rest := by
  rw [processOwner]
  have hreq : (searching passed r left false).req = r := rfl
  simp only [hreq, sameOwner hr hfl, loff_pred hr, loff_pred hfl, mergeInto_searching,
    Bool.false_eq_true, if_false]
  have hbeq : (r.type == LockType.unlck) = decide (r.type = .unlck) := by
    cases r.type <;> rfl
  by_cases hunlck : r.type = .unlck <;> by_cases hlt : fl.start < r.start <;>
    simp [Walk.req, Walk.pass, Walk.adopt, hbeq, hunlck, hlt, not_le.mpr, not_lt.mp]

/-- The pass until a lock is adopted. Once `left` is set the request starts at or
before all the locks that are left. -/
lemma outcome_searching (hr : IsRequest o r) (hlocks : Laid o locks)
    (hlater : ∀ g ∈ later.head?, g.owner ≠ o) (hleft : ∀ i ∈ left, i < passed.length)
    (hpast : ∀ i ∈ left, r.type ≠ .unlck ∧ ∀ g ∈ locks, r.start ≤ g.start) :
    Completes (outcome (searching passed r left false) (locks ++ later) newFl newFl2)
      (passed ++ locks ++ later) (trimmed left r.start passed ++ overlay r locks ++ later) := by
  have hnone : r.type = .unlck → left = none := fun hunlck =>
    Option.eq_none_iff_forall_not_mem.mpr fun i hi => (hpast i hi).1 hunlck
  induction locks generalizing passed left with
  | nil =>
    rw [outcome, processOwner_stop (by rwa [Walk.req, hr.owner])]
    simpa [overlay] using finishLock_searching later hr hnone
  | cons fl rest ih =>
    obtain ⟨hfl, hbehind, hrest⟩ := laid_cons.mp hlocks
    have hnone' : fl.start < r.start → left = none := fun hlt =>
      Option.eq_none_iff_forall_not_mem.mpr fun i hi =>
        absurd ((hpast i hi).2 fl mem_cons_self) (not_le.mpr hlt)
    have hstarts : ∀ x ≤ fl.stop, ∀ g ∈ rest, x ≤ g.start := fun x hx g hg =>
      hx.trans (hbehind g hg).1.le
    have hskip : Completes
        (outcome (searching (passed ++ [fl]) r left false) (rest ++ later) newFl newFl2)
        (passed ++ fl :: rest ++ later)
        (trimmed left r.start passed ++ fl :: overlay r rest ++ later) := by
      have hlen : ∀ i ∈ left, i < (passed ++ [fl]).length := fun i hi => by
        simpa using (hleft i hi).le.trans_lt (Nat.lt_succ_self _)
      have := ih hrest hlen (fun i hi => ⟨(hpast i hi).1, (forall_mem_cons.mp (hpast i hi).2).2⟩)
        hnone
      rw [trimmed_append _ _ hleft] at this
      simpa using this
    have hstop : Completes
        (finishLock (searching passed r left false) (fl :: rest ++ later) newFl newFl2)
        (passed ++ fl :: rest ++ later)
        (trimmed left r.start passed ++ (inserted r ++ fl :: rest) ++ later) := by
      simpa using finishLock_searching (fl :: rest ++ later) hr hnone
    rw [cons_append, outcome, processOwner_searching hr hfl.toIsRequest]
    unfold overlay
    split_ifs with htype hgap hgap hreach hgap hstick hlt hcovered hunlck
    · exact hskip
    · simpa [inserted, htype, hfl.held] using hstop
    · have hmerged : trimmed left (min fl.start r.start) passed =
          trimmed left r.start passed := by
        cases left with
        | none => rfl
        | some i => rw [min_eq_right ((hpast i rfl).2 fl mem_cons_self)]
      rw [← hmerged]
      exact .of_eq (outcome_adopted (hfl.merge hr) hrest.held
        (hstarts _ ((min_le_left _ _).trans hfl.ordered)) hlater hleft)
    · exact hskip
    · exact hstop
    · rw [leftPiece, if_pos hlt, hnone' hlt]
      simpa [trimmed] using finishLock_split fl (rest ++ later) newFl newFl2 hr
        (hstick.trans_le hfl.bounded)
    · rw [leftPiece, finishLock_right fl (rest ++ later) newFl newFl2 hr hleft
        (hstick.trans_le hfl.bounded)]
      split
      · exact .inl ⟨rfl, by simp⟩
      · exact .inr ⟨by simp, by simp⟩
    · exact .of_eq (outcome_sweeping hr hunlck hrest.held (hstarts _ (not_lt.mp hreach)) hlater
        hleft)
    · exact .of_eq (outcome_adopted (hfl.retype ⟨hr, hunlck⟩) hrest.held
        (hstarts _ (not_lt.mp hreach)) hlater hleft)
    · -- the lock sticks out in front only and is the one `left` points to
      have hstarts' := hstarts _ (not_lt.mp hreach)
      have hlen : ∀ i ∈ some passed.length, i < (passed ++ [fl]).length := by simp
      have htrim : trimmed (some passed.length) r.start (passed ++ [fl]) =
          passed ++ leftPiece r fl := by
        simp [trimmed, leftPiece, modify_concat_length, not_le.mp hcovered]
      rw [hnone' (not_le.mp hcovered)]
      by_cases hunlck : r.type = .unlck
      · rw [beq_iff_eq.mpr hunlck]
        apply Completes.of_eq
        refine (outcome_sweeping hr hunlck hrest.held hstarts' hlater hlen).trans ?_
        rw [htrim]
        simp [trimmed]
      · have hnext := ih hrest hlen (fun _ _ => ⟨hunlck, hstarts'⟩) fun h => absurd h hunlck
        rw [htrim] at hnext
        rw [beq_eq_false_iff_ne.mpr hunlck]
        simpa [trimmed, outcome] using hnext

lemma outcome_overlay (passed : List (FileLock Owner)) (newFl newFl2 : Bool)
    (hr : IsRequest o r) (hlocks : Laid o locks) (hlater : ∀ g ∈ later.head?, g.owner ≠ o) :
    Completes (outcome (searching passed r none false) (locks ++ later) newFl newFl2)
      (passed ++ locks ++ later) (passed ++ overlay r locks ++ later) :=
  outcome_searching hr hlocks hlater (by simp) (by simp)

end Phases

end R0Kernel.Fs.Locks
