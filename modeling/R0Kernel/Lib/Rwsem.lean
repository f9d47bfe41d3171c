import Mathlib

/-!
# Reader/writer semaphores

The model of the spinlock version of the reader/writer semaphore. Each function is one critical
section of `wait_lock`. `Sys` adds what the code does not record: who holds the semaphore, and the
requests in the order in which they came and were granted.
-/

namespace R0Kernel.Rwsem

open Multiset List

variable {Task : Type}

/-! ### The code -/

/-- `RWSEM_WAITING_FOR_READ` and `RWSEM_WAITING_FOR_WRITE` -/
inductive Flags where
  | read
  | write
deriving DecidableEq

structure Waiter (Task : Type) where
  task : Task
  flags : Flags
deriving DecidableEq

/-- `activity` is an `__s32`, which does not overflow below `2 ^ 31` read holds. -/
structure RwSemaphore (Task : Type) where
  activity : Int
  waitList : List (Waiter Task)
deriving DecidableEq

/-- The loop of `__rwsem_do_wake`: the waiters it wakes, and those it leaves in the list. -/
def wakeReaders : List (Waiter Task) → List (Waiter Task) × List (Waiter Task)
  | [] => ([], [])
  | waiter :: rest =>
    match waiter.flags with
    | .read => (waiter :: (wakeReaders rest).1, (wakeReaders rest).2)
    | .write => ([], waiter :: rest)

def dontWakeWriters (sem : RwSemaphore Task) : RwSemaphore Task × List (Waiter Task) :=
  (⟨sem.activity + (wakeReaders sem.waitList).1.length, (wakeReaders sem.waitList).2⟩,
    (wakeReaders sem.waitList).1)

/-- `__rwsem_do_wake`, with the waiters it wakes; `waiter` is the first of the list. -/
def rwsemDoWake (sem : RwSemaphore Task) (waiter : Waiter Task) (rest : List (Waiter Task))
    (wakewrite : Bool) : RwSemaphore Task × List (Waiter Task) :=
  match wakewrite, waiter.flags with
  | false, .write => (sem, [])
  | false, .read => dontWakeWriters sem
  | true, .write => (⟨-1, rest⟩, [waiter])
  | true, .read => dontWakeWriters sem

/-- `__rwsem_wake_one_writer`. It does not look at the flags of the waiter. -/
def rwsemWakeOneWriter (waiter : Waiter Task) (rest : List (Waiter Task)) :
    RwSemaphore Task × List (Waiter Task) :=
  (⟨-1, rest⟩, [waiter])

def downReadTrylock (sem : RwSemaphore Task) : RwSemaphore Task × Bool :=
  if 0 ≤ sem.activity ∧ sem.waitList = [] then ({ sem with activity := sem.activity + 1 }, true)
  else (sem, false)

/-- `__down_read` up to the point where it waits: whether the lock was granted at once. -/
def downRead (sem : RwSemaphore Task) (tsk : Task) : RwSemaphore Task × Bool :=
  if 0 ≤ sem.activity ∧ sem.waitList = [] then ({ sem with activity := sem.activity + 1 }, true)
  else ({ sem with waitList := sem.waitList ++ [⟨tsk, .read⟩] }, false)

def downWriteTrylock (sem : RwSemaphore Task) : RwSemaphore Task × Bool :=
  if sem.activity = 0 ∧ sem.waitList = [] then ({ sem with activity := -1 }, true)
  else (sem, false)

/-- `__down_write_nested` up to the point where it waits. -/
def downWrite (sem : RwSemaphore Task) (tsk : Task) : RwSemaphore Task × Bool :=
  if sem.activity = 0 ∧ sem.waitList = [] then ({ sem with activity := -1 }, true)
  else ({ sem with waitList := sem.waitList ++ [⟨tsk, .write⟩] }, false)

/-- `__up_read`, with the waiters it wakes. -/
def upRead (sem : RwSemaphore Task) : RwSemaphore Task × List (Waiter Task) :=
  match sem.waitList with
  | waiter :: rest =>
    if sem.activity - 1 = 0 then rwsemWakeOneWriter waiter rest
    else ({ sem with activity := sem.activity - 1 }, [])
  | [] => ({ sem with activity := sem.activity - 1 }, [])

/-- `__up_write`, with the waiters it wakes. -/
def upWrite (sem : RwSemaphore Task) : RwSemaphore Task × List (Waiter Task) :=
  match sem.waitList with
  | waiter :: rest => rwsemDoWake { sem with activity := 0 } waiter rest true
  | [] => ({ sem with activity := 0 }, [])

/-- `__downgrade_write`, with the waiters it wakes. -/
def downgradeWrite (sem : RwSemaphore Task) : RwSemaphore Task × List (Waiter Task) :=
  match sem.waitList with
  | waiter :: rest => rwsemDoWake { sem with activity := 1 } waiter rest false
  | [] => ({ sem with activity := 1 }, [])

/-! ### The tasks around the semaphore -/

/-- A semaphore with its holders. `arrivals` are the requests in the order in which they came (a
failed trylock is not one), `grants` those granted, in the order in which they were. -/
structure Sys (Task : Type) where
  sem : RwSemaphore Task
  readers : Multiset Task
  writers : Multiset Task
  arrivals : List (Waiter Task)
  grants : List (Waiter Task)

namespace Sys

/-- The task gets what it asked for, whatever `activity` says. -/
def grant (s : Sys Task) (w : Waiter Task) : Sys Task :=
  match w.flags with
  | .read => { s with readers := w.task ::ₘ s.readers, grants := s.grants ++ [w] }
  | .write => { s with writers := w.task ::ₘ s.writers, grants := s.grants ++ [w] }

def grantAll (s : Sys Task) (ws : List (Waiter Task)) : Sys Task :=
  ws.foldl grant s

/-- A request has come, and was granted at once or left waiting. -/
def arrive (s : Sys Task) (w : Waiter Task) (r : RwSemaphore Task × Bool) : Sys Task :=
  let s' := { s with sem := r.1, arrivals := s.arrivals ++ [w] }
  if r.2 then s'.grant w else s'

/-- A trylock was made; it is a request only if it succeeded. -/
def tried (s : Sys Task) (w : Waiter Task) (r : RwSemaphore Task × Bool) : Sys Task :=
  if r.2 then s.arrive w r else { s with sem := r.1 }

/-- The semaphore has changed and waiters were woken. -/
def wake (s : Sys Task) (r : RwSemaphore Task × List (Waiter Task)) : Sys Task :=
  grantAll { s with sem := r.1 } r.2

def init : Sys Task :=
  ⟨⟨0, []⟩, 0, 0, [], []⟩

def Waits (s : Sys Task) (t : Task) : Prop :=
  ∃ w ∈ s.sem.waitList, w.task = t

end Sys

/-- A step of the system: some task that is not asleep calls one of the functions, and releases
only what it holds. -/
inductive Step [DecidableEq Task] : Sys Task → Sys Task → Prop where
  | downRead {s : Sys Task} (t : Task) : ¬ s.Waits t →
      Step s (s.arrive ⟨t, .read⟩ (downRead s.sem t))
  | downWrite {s : Sys Task} (t : Task) : ¬ s.Waits t →
      Step s (s.arrive ⟨t, .write⟩ (downWrite s.sem t))
  | downReadTrylock {s : Sys Task} (t : Task) : ¬ s.Waits t →
      Step s (s.tried ⟨t, .read⟩ (downReadTrylock s.sem))
  | downWriteTrylock {s : Sys Task} (t : Task) : ¬ s.Waits t →
      Step s (s.tried ⟨t, .write⟩ (downWriteTrylock s.sem))
  | upRead {s : Sys Task} (t : Task) : ¬ s.Waits t → t ∈ s.readers →
      Step s (Sys.wake { s with readers := s.readers.erase t } (upRead s.sem))
  | upWrite {s : Sys Task} (t : Task) : ¬ s.Waits t → t ∈ s.writers →
      Step s (Sys.wake { s with writers := s.writers.erase t } (upWrite s.sem))
  | downgradeWrite {s : Sys Task} (t : Task) : ¬ s.Waits t → t ∈ s.writers →
      Step s (Sys.wake { s with writers := s.writers.erase t, readers := t ::ₘ s.readers }
        (downgradeWrite s.sem))

/-! ### The invariant -/

inductive Counts (s : Sys Task) : Prop where
  | written : s.sem.activity = -1 → s.writers.card = 1 → s.readers = 0 → Counts s
  | read : s.sem.activity = s.readers.card → s.writers = 0 → Counts s

structure Inv (s : Sys Task) : Prop where
  counts : Counts s
  idle : s.sem.activity = 0 → s.sem.waitList = []
  head : 0 < s.sem.activity → ∀ w ∈ s.sem.waitList.head?, w.flags = .write
  fifo : s.arrivals = s.grants ++ s.sem.waitList

/-! ### Waking -/

section Waking

variable {s : Sys Task} {ws : List (Waiter Task)} {w : Waiter Task}

@[simp]
lemma grant_sem (w : Waiter Task) : (s.grant w).sem = s.sem := by
  unfold Sys.grant
  split <;> rfl

@[simp]
lemma grant_arrivals (w : Waiter Task) : (s.grant w).arrivals = s.arrivals := by
  unfold Sys.grant
  split <;> rfl

@[simp]
lemma grant_grants (w : Waiter Task) : (s.grant w).grants = s.grants ++ [w] := by
  unfold Sys.grant
  split <;> rfl

lemma grant_of_read (hw : w.flags = .read) :
    (s.grant w).readers = w.task ::ₘ s.readers ∧ (s.grant w).writers = s.writers := by
  unfold Sys.grant
  rw [hw]
  exact ⟨rfl, rfl⟩

lemma grant_of_write (hw : w.flags = .write) :
    (s.grant w).readers = s.readers ∧ (s.grant w).writers = w.task ::ₘ s.writers := by
  unfold Sys.grant
  rw [hw]
  exact ⟨rfl, rfl⟩

lemma grantAll_frame (s : Sys Task) (ws : List (Waiter Task)) :
    (s.grantAll ws).sem = s.sem ∧ (s.grantAll ws).arrivals = s.arrivals ∧
      (s.grantAll ws).grants = s.grants ++ ws := by
  induction ws generalizing s with
  | nil => exact ⟨rfl, rfl, (append_nil _).symm⟩
  | cons w ws ih =>
    obtain ⟨hsem, harr, hgrants⟩ := ih (s.grant w)
    refine ⟨hsem.trans (grant_sem w), harr.trans (grant_arrivals w), ?_⟩
    rw [Sys.grantAll, List.foldl_cons, ← Sys.grantAll, hgrants, grant_grants,
      append_assoc, singleton_append]

lemma grantAll_of_read (s : Sys Task) (hws : ∀ w ∈ ws, w.flags = .read) :
    (s.grantAll ws).readers.card = s.readers.card + ws.length ∧
      (s.grantAll ws).writers = s.writers := by
  induction ws generalizing s with
  | nil => exact ⟨rfl, rfl⟩
  | cons w ws ih =>
    obtain ⟨hreaders, hwriters⟩ := grant_of_read (s := s) (hws w mem_cons_self)
    obtain ⟨hcard, hrest⟩ := ih (s.grant w) fun v hv => hws v (mem_cons_of_mem w hv)
    rw [hreaders, card_cons] at hcard
    refine ⟨?_, hrest.trans hwriters⟩
    rw [length_cons, ← add_assoc, add_right_comm]
    exact hcard

lemma wakeReaders_spec (l : List (Waiter Task)) :
    (wakeReaders l).1 ++ (wakeReaders l).2 = l ∧ (∀ w ∈ (wakeReaders l).1, w.flags = .read) ∧
      ∀ w ∈ (wakeReaders l).2.head?, w.flags = .write := by
  induction l with
  | nil => exact ⟨rfl, nofun, nofun⟩
  | cons w l ih =>
    obtain ⟨hsplit, hread, hhead⟩ := ih
    rw [wakeReaders]
    split
    next hw =>
      exact ⟨congrArg (w :: ·) hsplit, forall_mem_cons.mpr ⟨hw, hread⟩, hhead⟩
    next hw => exact ⟨rfl, nofun, by simpa using hw⟩

/-- Waking readers: `activity` counts them, and a writer is left at the head. -/
lemma inv_dontWakeWriters (sem : RwSemaphore Task) (hcount : sem.activity = s.readers.card)
    (hwriters : s.writers = 0)
    (hidle : sem.activity = 0 → ∀ w ∈ sem.waitList.head?, w.flags = .read)
    (hfifo : s.arrivals = s.grants ++ sem.waitList) : Inv (s.wake (dontWakeWriters sem)) := by
  obtain ⟨hsplit, hread, hhead⟩ := wakeReaders_spec sem.waitList
  rw [dontWakeWriters, Sys.wake]
  generalize (wakeReaders sem.waitList).1 = woken at hsplit hread ⊢
  generalize (wakeReaders sem.waitList).2 = rest at hsplit hhead ⊢
  obtain ⟨hsem, harr, hgrants⟩ := grantAll_frame
    { s with sem := ⟨sem.activity + woken.length, rest⟩ } woken
  obtain ⟨hcard, hwr⟩ := grantAll_of_read
    { s with sem := ⟨sem.activity + woken.length, rest⟩ } hread
  refine ⟨.read ?_ (hwr.trans hwriters), ?_, ?_, ?_⟩
  · rw [hsem, hcard, Nat.cast_add, ← hcount]
  · rw [hsem]
    dsimp only
    intro hzero
    have hnone : woken = [] := length_eq_zero_iff.mp (by omega)
    rw [hnone] at hsplit
    rw [← hsplit] at hidle
    -- the first waiter would be a reader here and a writer there
    cases rest with
    | nil => rfl
    | cons w rest =>
      have hr := hidle (by omega) w rfl
      have hw := hhead w rfl
      rw [hr] at hw
      cases hw
  · rw [hsem]
    exact fun _ => hhead
  · rw [harr, hgrants, hsem, append_assoc, hsplit]
    exact hfifo

lemma inv_wakeWriter {rest : List (Waiter Task)} (hw : w.flags = .write)
    (hreaders : s.readers = 0) (hwriters : s.writers = 0)
    (hfifo : s.arrivals = s.grants ++ w :: rest) : Inv (s.wake (⟨-1, rest⟩, [w])) := by
  obtain ⟨hr, hwr⟩ := grant_of_write (s := { s with sem := ⟨-1, rest⟩ }) hw
  rw [Sys.wake, Sys.grantAll, List.foldl_cons, List.foldl_nil]
  refine ⟨.written ?_ ?_ (hr.trans hreaders), ?_, ?_, ?_⟩
  · rw [grant_sem]
  · rw [hwr, hwriters]
    rfl
  · rw [grant_sem]
    nofun
  · rw [grant_sem]
    nofun
  · rw [grant_arrivals, grant_grants, grant_sem, append_assoc]
    exact hfifo

lemma wake_nil (r : RwSemaphore Task) : s.wake (r, []) = { s with sem := r } := rfl

end Waking

/-! ### Every step keeps the invariant -/

section Steps

variable {s s' : Sys Task}

section

variable (h : Inv s) {t : Task}

include h

/-- A request that is granted at once comes when nobody waits: it is woken as it arrives. -/
lemma inv_arrive_read (t : Task) (hact : 0 ≤ s.sem.activity) (hnil : s.sem.waitList = []) :
    Inv (s.arrive ⟨t, .read⟩ ({ s.sem with activity := s.sem.activity + 1 }, true)) := by
  cases h.counts with
  | written hneg => omega
  | read hcount hwriters =>
    dsimp only
    rw [hnil]
    refine inv_dontWakeWriters (s := { s with arrivals := s.arrivals ++ [⟨t, .read⟩] })
      ⟨s.sem.activity, [⟨t, .read⟩]⟩ hcount hwriters (by simp) ?_
    rw [h.fifo, hnil, append_nil]

lemma inv_arrive_write (t : Task) (hact : s.sem.activity = 0) (hnil : s.sem.waitList = []) :
    Inv (s.arrive ⟨t, .write⟩ ({ s.sem with activity := -1 }, true)) := by
  cases h.counts with
  | written hneg => omega
  | read hcount hwriters =>
    have hreaders : s.readers = 0 := card_eq_zero.mp (by omega)
    dsimp only
    rw [hnil]
    refine inv_wakeWriter (s := { s with arrivals := s.arrivals ++ [⟨t, .write⟩] })
      (w := ⟨t, .write⟩) rfl hreaders hwriters ?_
    rw [h.fifo, hnil, append_nil]

/-- A request that has to wait goes to the end of the list. -/
lemma inv_arrive_wait (w : Waiter Task) (hbusy : s.sem.activity = 0 → s.sem.waitList ≠ [])
    (hread : w.flags = .read → 0 < s.sem.activity → s.sem.waitList ≠ []) :
    Inv (s.arrive w ({ s.sem with waitList := s.sem.waitList ++ [w] }, false)) := by
  refine ⟨?_, ?_, ?_, ?_⟩
  · cases h.counts with
    | written hact hone hnone => exact .written hact hone hnone
    | read hcount hwriters => exact .read hcount hwriters
  · intro hact
    exact absurd (h.idle hact) (hbusy hact)
  · intro hact v hv
    cases hlist : s.sem.waitList with
    | nil =>
      rw [hlist] at hv
      cases hv
      cases hw : w.flags with
      | read => exact absurd hlist (hread hw hact)
      | write => rfl
    | cons first rest =>
      rw [hlist] at hv
      apply h.head hact v
      rw [hlist]
      exact hv
  · change s.arrivals ++ [w] = s.grants ++ (s.sem.waitList ++ [w])
    rw [h.fifo, append_assoc]

lemma inv_upRead [DecidableEq Task] (ht : t ∈ s.readers) :
    Inv (Sys.wake { s with readers := s.readers.erase t } (upRead s.sem)) := by
  cases h.counts with
  | written _ _ hnone =>
    rw [hnone] at ht
    exact absurd ht (notMem_zero t)
  | read hcount hwriters =>
    have hpos : 0 < s.readers.card := card_pos_iff_exists_mem.mpr ⟨t, ht⟩
    have hcard : ((s.readers.erase t).card : Int) = s.sem.activity - 1 := by
      rw [card_erase_of_mem ht, Nat.pred_eq_sub_one]
      omega
    have hact : 0 < s.sem.activity := by omega
    have hfifo := h.fifo
    unfold upRead
    split
    next waiter rest hlist =>
      have hwrite := h.head hact waiter (by rw [hlist]; rfl)
      split
      next hlast =>
        have hnone : s.readers.erase t = 0 := card_eq_zero.mp (by omega)
        rw [hlist] at hfifo
        exact inv_wakeWriter hwrite hnone hwriters hfifo
      next hmore =>
        rw [wake_nil]
        refine ⟨.read hcard.symm hwriters, ?_, ?_, hfifo⟩
        · dsimp only
          omega
        · exact fun _ => h.head hact
    next hlist =>
      refine ⟨.read hcard.symm hwriters, fun _ => hlist, ?_, hfifo⟩
      exact fun _ => h.head hact

lemma Inv.of_writer [DecidableEq Task] (ht : t ∈ s.writers) :
    s.readers = 0 ∧ s.writers.erase t = 0 := by
  cases h.counts with
  | written _ hone hnone =>
    refine ⟨hnone, card_eq_zero.mp ?_⟩
    rw [card_erase_of_mem ht, hone]
    rfl
  | read _ hwriters =>
    rw [hwriters] at ht
    exact absurd ht (notMem_zero t)

lemma inv_upWrite [DecidableEq Task] (ht : t ∈ s.writers) :
    Inv (Sys.wake { s with writers := s.writers.erase t } (upWrite s.sem)) := by
  obtain ⟨hreaders, hwriters⟩ := h.of_writer ht
  have hfifo := h.fifo
  have hcount : (0 : Int) = s.readers.card := by
    rw [hreaders]
    rfl
  unfold upWrite
  split
  next waiter rest hlist =>
    cases hw : waiter.flags with
    | write =>
      rw [hlist] at hfifo
      simp only [rwsemDoWake, hw]
      exact inv_wakeWriter hw hreaders hwriters hfifo
    | read =>
      simp only [rwsemDoWake, hw]
      exact inv_dontWakeWriters _ hcount hwriters (by simp [hlist, hw]) hfifo
  next hlist =>
    exact ⟨.read hcount hwriters, fun _ => hlist, nofun, hfifo⟩

lemma inv_downgradeWrite [DecidableEq Task] (ht : t ∈ s.writers) :
    Inv (Sys.wake { s with writers := s.writers.erase t, readers := t ::ₘ s.readers }
      (downgradeWrite s.sem)) := by
  obtain ⟨hreaders, hwriters⟩ := h.of_writer ht
  have hfifo := h.fifo
  have hcount : (1 : Int) = (t ::ₘ s.readers).card := by
    rw [hreaders]
    rfl
  unfold downgradeWrite
  split
  next waiter rest hlist =>
    cases hw : waiter.flags with
    | write =>
      simp only [rwsemDoWake, hw]
      exact ⟨.read hcount hwriters, nofun, by simp [wake_nil, hlist, hw], hfifo⟩
    | read =>
      simp only [rwsemDoWake, hw]
      exact inv_dontWakeWriters _ hcount hwriters nofun hfifo
  next hlist =>
    exact ⟨.read hcount hwriters, nofun, by simp [wake_nil, hlist], hfifo⟩

lemma inv_step [DecidableEq Task] (hstep : Step s s') : Inv s' := by
  cases hstep with
  | downRead t _ =>
    unfold downRead
    split
    next hfree => exact inv_arrive_read h t hfree.1 hfree.2
    next hbusy =>
      apply inv_arrive_wait h
      · intro hact hnil
        exact hbusy ⟨hact.ge, hnil⟩
      · intro _ hact hnil
        exact hbusy ⟨hact.le, hnil⟩
  | downWrite t _ =>
    unfold downWrite
    split
    next hfree => exact inv_arrive_write h t hfree.1 hfree.2
    next hbusy =>
      apply inv_arrive_wait h
      · intro hact hnil
        exact hbusy ⟨hact, hnil⟩
      · nofun
  | downReadTrylock t _ =>
    unfold downReadTrylock
    split
    next hfree => exact inv_arrive_read h t hfree.1 hfree.2
    next => exact h
  | downWriteTrylock t _ =>
    unfold downWriteTrylock
    split
    next hfree => exact inv_arrive_write h t hfree.1 hfree.2
    next => exact h
  | upRead t _ ht => exact inv_upRead h ht
  | upWrite t _ ht => exact inv_upWrite h ht
  | downgradeWrite t _ ht => exact inv_downgradeWrite h ht

end

lemma inv_init : Inv (Sys.init : Sys Task) :=
  ⟨.read rfl rfl, fun _ => rfl, nofun, rfl⟩

lemma inv_run [DecidableEq Task] (hrun : Relation.ReflTransGen Step Sys.init s) : Inv s := by
  induction hrun with
  | refl => exact inv_init
  | tail _ hstep ih => exact inv_step ih hstep

end Steps

/-- In every state that tasks can reach, `activity` tells who holds the semaphore, a free
semaphore has no waiters, a writer is at the head of the list while readers hold it, and the
requests are granted in the order in which they came. -/
theorem rwsem_invariant [DecidableEq Task] (s : Sys Task)
    (hrun : Relation.ReflTransGen Step Sys.init s) :
    (s.sem.activity = -1 ↔ s.writers.card = 1 ∧ s.readers = 0) ∧
    (∀ n : Nat, s.sem.activity = n ↔ s.readers.card = n ∧ s.writers = 0) ∧
    -1 ≤ s.sem.activity ∧ (s.readers.card < 2 ^ 31 → s.sem.activity < 2 ^ 31) ∧
    (s.sem.activity = 0 → s.sem.waitList = []) ∧
    (0 < s.sem.activity → ∀ w ∈ s.sem.waitList.head?, w.flags = .write) ∧
    s.arrivals = s.grants ++ s.sem.waitList := by
  have hinv := inv_run hrun
  cases hinv.counts with
  | written hact hone hnone =>
    refine ⟨⟨fun _ => ⟨hone, hnone⟩, fun _ => hact⟩, fun n => ⟨by omega, ?_⟩, hact.ge, by omega,
      hinv.idle, hinv.head, hinv.fifo⟩
    rintro ⟨-, hwriters⟩
    rw [hwriters] at hone
    cases hone
  | read hcount hwriters =>
    refine ⟨⟨by omega, ?_⟩, fun n => ?_, by omega, by omega, hinv.idle, hinv.head,
      hinv.fifo⟩
    · rw [hwriters]
      nofun
    · rw [hcount]
      exact ⟨fun heq => ⟨Int.ofNat.inj heq, hwriters⟩, fun heq => congrArg _ heq.1⟩

/-- A writer, then a reader and a writer that have to wait for it; the first writer downgrades, so
that the reader is woken, and both readers release. -/
def handOver : Sys Nat :=
  ⟨⟨-1, []⟩, 0, {2}, [⟨0, .write⟩, ⟨1, .read⟩, ⟨2, .write⟩], [⟨0, .write⟩, ⟨1, .read⟩, ⟨2, .write⟩]⟩

lemma handOver_reachable : Relation.ReflTransGen Step Sys.init handOver :=
  .tail (.tail (.tail (.tail (.tail (.tail .refl (.downWrite 0 (by simp [Sys.Waits, Sys.init])))
    (.downRead 1 nofun)) (.downWrite 2 nofun)) (.downgradeWrite 0 nofun (by decide)))
    (.upRead 0 nofun (by decide))) (.upRead 1 nofun (by decide))

theorem rwsem_invariant_handOver : Relation.ReflTransGen Step Sys.init handOver ∧
    (handOver.sem.activity = -1 ↔ handOver.writers.card = 1 ∧ handOver.readers = 0) ∧
    (∀ n : Nat, handOver.sem.activity = n ↔ handOver.readers.card = n ∧ handOver.writers = 0) ∧
    -1 ≤ handOver.sem.activity ∧
    (handOver.readers.card < 2 ^ 31 → handOver.sem.activity < 2 ^ 31) ∧
    (handOver.sem.activity = 0 → handOver.sem.waitList = []) ∧
    (0 < handOver.sem.activity → ∀ w ∈ handOver.sem.waitList.head?, w.flags = .write) ∧
    handOver.arrivals = handOver.grants ++ handOver.sem.waitList :=
  ⟨handOver_reachable, rwsem_invariant handOver handOver_reachable⟩

end R0Kernel.Rwsem
