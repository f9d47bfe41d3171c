import R0Kernel.Foundation.LinkQueue
import R0Kernel.Foundation.Machine
import R0Kernel.Ipc.Sem.Semop

/-!
# The queue of sleeping semaphore operations

The model of `update_queue`, one pass of its loop as one step of a machine. The invariant is that
every entry before the cursor would still have to sleep: an altering entry that completes sends
the cursor back to the head, and one that does not alter the array cannot change what the entries
before it have seen.
-/

namespace R0Kernel.Ipc.Semaphore

open LinkQueue Machine Function List Prod

variable {n : Nat} {Id U : Type} [DecidableEq Id] [DecidableEq U]

/-! ### The code -/

/-- The fields of `struct sem_queue` that `sys_semtimedop` fills in. It sets `alter` if some
operation has a nonzero `sem_op`, and has an undo structure if some operation asks for one. -/
structure SemQueue (n : Nat) (U : Type) where
  sops : List (Sembuf n)
  undo : Option U
  pid : Int
  alter : Bool
  alter_of_op : ∀ sop ∈ sops, sop.semOp ≠ 0 → alter = true
  undo_of_flag : ∀ sop ∈ sops, sop.undo = true → undo.isSome = true

/-- What operations change: the semaphores and the undo structures. -/
structure Sems (n : Nat) (U : Type) where
  sma : SemArray n
  semadj : U → Semadj n

/-- `un->semadj`. Without an undo structure no operation looks at it. -/
def Sems.adjOf (s : Sems n U) : Option U → Semadj n
  | some u => s.semadj u
  | none => fun _ => 0

/-- The undo structures after one of them has changed. -/
def Sems.putAdj (s : Sems n U) : Option U → Semadj n → U → Semadj n
  | some u, semadj => update s.semadj u semadj
  | none, _ => s.semadj

/-- The call of `try_atomic_semop` for a queued operation. -/
def attempt (s : Sems n U) (q : SemQueue n U) (now : Int) : Int × Sems n U :=
  match tryAtomicSemop s.sma q.sops (s.adjOf q.undo) q.pid now with
  | (error, sma, semadj) => (error, ⟨sma, s.putAdj q.undo semadj⟩)

def inWakeup : Int := 1

/-- The state of `update_queue`. `results` are the values given to `q->status` for the entries it
has removed, in order; `cursor` is the local variable `q`. -/
structure Scan (n : Nat) (Id U : Type) where
  sems : Sems n U
  links : Links Id
  status : Id → Int
  results : List (Id × Int)
  cursor : Option Id

/-- The entry `q` has been completed with `error` and taken out of the queue. -/
def Scan.complete (s : Scan n Id U) (entry : Id → SemQueue n U) (q : Id) (error : Int)
    (sems : Sems n U) (links : Links Id) : Scan n Id U where
  sems := sems
  links := links
  status := update (update s.status q inWakeup) q error
  results := s.results ++ [(q, error)]
  cursor := if (entry q).alter then links.first else links.next q

/-- One pass of the loop of `update_queue`. The exit is `none` if `remove_from_queue` is called
for an entry that is not in the queue. `now` is what `get_seconds` gives, as the entries
complete. -/
def updateStep (entry : Id → SemQueue n U) (now : Nat → Int) (s : Scan n Id U) :
    Scan n Id U ⊕ Option (Scan n Id U) :=
  match s.cursor with
  | none => .inr (some s)
  | some q =>
    match attempt s.sems (entry q) (now s.results.length) with
    | (error, sems) =>
      if error ≤ 0 then
        match s.links.unlink q with
        | some links => .inl (s.complete entry q error sems links)
        | none => .inr none
      else .inl { s with sems := sems, cursor := s.links.next q }

/-- `update_queue`, with the entries `links` and nothing completed yet. -/
def updateQueue (entry : Id → SemQueue n U) (now : Nat → Int) (sems : Sems n U)
    (links : Links Id) (status : Id → Int) (fuel : Nat) : Option (Option (Scan n Id U)) :=
  run (updateStep entry now) fuel ⟨sems, links, status, [], links.first⟩

/-! ### What the result of an operation depends on -/

section Results

variable {semadj semadj' : Semadj n} {base base' : Fin n → Sem} {sop : Sembuf n}
  {past past' sops : List (Sembuf n)} {sma sma' : SemArray n} {pid pid' now now' r : Int}

/-- A call that does not succeed changes nothing, whatever the values are. -/
lemma tryAtomicSemop_unchanged
    (h : tryAtomicSemop sma sops semadj pid now = (r, sma', semadj')) (hr : r ≠ 0) :
    sma' = sma ∧ semadj' = semadj := by
  unfold tryAtomicSemop at h
  split at h
  next =>
    cases h
    exact absurd rfl hr
  next base past stop sop hloop =>
    have hback := undoLoop_applyLoop hloop
    rw [hback] at h
    cases h
    exact ⟨rfl, rfl⟩

lemma applyOp_error_congr {stop : Stop} (h : vals base = vals base')
    (herror : applyOp semadj base sop = .error stop) :
    applyOp semadj base' sop = .error stop := by
  have hval : (base sop.semNum).semval = (base' sop.semNum).semval := congrFun h sop.semNum
  unfold applyOp at herror ⊢
  rw [hval] at herror
  split_ifs at herror ⊢
  all_goals exact herror

/-- Where the first loop is left depends on the values only. -/
lemma applyLoop_stop_congr (h : vals base = vals base') :
    (applyLoop semadj base past sops).2.2 = (applyLoop semadj base' past' sops).2.2 := by
  induction sops generalizing base base' past past' with
  | nil => rfl
  | cons sop rest ih =>
    rw [applyLoop, applyLoop]
    cases hop : applyOp semadj base sop with
    | error stop => rw [applyOp_error_congr h hop]
    | ok next =>
      cases hop' : applyOp semadj base' sop with
      | error stop =>
        rw [applyOp_error_congr h.symm hop'] at hop
        cases hop
      | ok next' =>
        apply ih
        rw [applyOp_ok hop, applyOp_ok hop', vals_addVal, vals_addVal, h]

/-- The value returned, by how the first loop was left. -/
def resultOf : Option (Stop × Sembuf n) → Int
  | none => 0
  | some (stop, sop) => stop.result sop

lemma tryAtomicSemop_fst (sma : SemArray n) (sops : List (Sembuf n)) (semadj : Semadj n)
    (pid now : Int) : (tryAtomicSemop sma sops semadj pid now).1 =
      resultOf (applyLoop semadj sma.semBase [] sops).2.2 := by
  unfold tryAtomicSemop
  split
  next hloop =>
    rw [hloop]
    rfl
  next hloop =>
    rw [hloop]
    rfl

lemma resultOf_cases (stop : Option (Stop × Sembuf n)) :
    resultOf stop ≤ 0 ∨ resultOf stop = 1 := by
  cases stop with
  | none => exact .inl le_rfl
  | some failed =>
    rcases failed.1.result_cases failed.2 with hone | hneg
    · exact .inr hone
    · exact .inl hneg.le

lemma applyLoop_past (h : applyLoop semadj base past sops = (base', past', none)) :
    ∀ sop ∈ past', sop ∈ past ∨ sop ∈ sops := by
  induction sops generalizing base past with
  | nil =>
    cases h
    exact fun sop hsop => .inl hsop
  | cons op rest ih =>
    rw [applyLoop] at h
    split at h
    next =>
      intro sop hsop
      rcases ih h sop hsop with hmem | hmem
      · rcases mem_cons.mp hmem with rfl | hpast
        · exact .inr mem_cons_self
        · exact .inl hpast
      · exact .inr (mem_cons_of_mem op hmem)
    next => cases h

lemma applyLoop_zero (hzero : ∀ sop ∈ sops, sop.semOp = 0) {stop : Option (Stop × Sembuf n)}
    (h : applyLoop semadj base past sops = (base', past', stop)) : vals base' = vals base := by
  induction sops generalizing base past with
  | nil =>
    cases h
    rfl
  | cons op rest ih =>
    rw [applyLoop] at h
    split at h
    next next hok =>
      have hop : op.semOp.toInt = 0 := by
        rw [hzero op mem_cons_self]
        rfl
      rw [ih (fun sop hsop => hzero sop (mem_cons_of_mem op hsop)) h, applyOp_ok hok,
        vals_addVal, hop, Int.add_zero, update_eq_self]
    next =>
      cases h
      rfl

lemma commitLoop_zero (hzero : ∀ sop ∈ past, sop.semOp = 0) :
    (commitLoop pid base semadj past).2 = semadj := by
  induction past generalizing base with
  | nil => rfl
  | cons op past ih =>
    have hadj : (if op.undo then update semadj op.semNum (semadj op.semNum - op.semOp)
        else semadj) = semadj := by
      rw [hzero op mem_cons_self, Int16.sub_zero, update_eq_self, ite_self]
    rw [commitLoop, hadj]
    exact ih fun sop hsop => hzero sop (mem_cons_of_mem op hsop)

/-- An operation that only waits for zeros changes neither the values nor the adjustments. -/
lemma tryAtomicSemop_zero (hzero : ∀ sop ∈ sops, sop.semOp = 0)
    (h : tryAtomicSemop sma sops semadj pid now = (r, sma', semadj')) :
    vals sma'.semBase = vals sma.semBase ∧ semadj' = semadj := by
  unfold tryAtomicSemop at h
  split at h
  next base past hloop =>
    cases h
    constructor
    · rw [vals_commitLoop]
      exact applyLoop_zero hzero hloop
    · apply commitLoop_zero
      intro sop hsop
      rcases applyLoop_past hloop sop hsop with hmem | hmem
      · cases hmem
      · exact hzero sop hmem
  next base past stop sop hloop =>
    have hback := undoLoop_applyLoop hloop
    rw [hback] at h
    cases h
    exact ⟨rfl, rfl⟩

end Results

/-! ### Attempts for queued operations -/

variable {sems sems' : Sems n U} {e : SemQueue n U} {now now' : Int}

lemma attempt_fst (sems : Sems n U) (e : SemQueue n U) (now : Int) :
    (attempt sems e now).1 = (tryAtomicSemop sems.sma e.sops (sems.adjOf e.undo) e.pid now).1 :=
  rfl

lemma attempt_cases (sems : Sems n U) (e : SemQueue n U) (now : Int) :
    (attempt sems e now).1 ≤ 0 ∨ (attempt sems e now).1 = 1 := by
  rw [attempt_fst, tryAtomicSemop_fst]
  exact resultOf_cases _

lemma attempt_result_congr (hvals : vals sems.sma.semBase = vals sems'.sma.semBase)
    (hadj : sems.semadj = sems'.semadj) : (attempt sems e now).1 = (attempt sems' e now').1 := by
  have hadjOf : sems.adjOf e.undo = sems'.adjOf e.undo := by
    cases hundo : e.undo with
    | none => rfl
    | some u => exact congrFun hadj u
  rw [attempt_fst, attempt_fst, tryAtomicSemop_fst, tryAtomicSemop_fst, ← hadjOf]
  exact congrArg resultOf (applyLoop_stop_congr hvals)

lemma putAdj_adjOf (sems : Sems n U) (undo : Option U) :
    sems.putAdj undo (sems.adjOf undo) = sems.semadj := by
  cases undo with
  | none => rfl
  | some u => exact update_eq_self u sems.semadj

lemma attempt_unchanged (h : (attempt sems e now).1 ≠ 0) : (attempt sems e now).2 = sems := by
  rw [attempt_fst] at h
  rw [attempt]
  generalize hres : tryAtomicSemop sems.sma e.sops (sems.adjOf e.undo) e.pid now = res at h ⊢
  obtain ⟨error, sma', semadj'⟩ := res
  obtain ⟨rfl, rfl⟩ := tryAtomicSemop_unchanged hres h
  dsimp only
  rw [putAdj_adjOf]

/-- An entry that does not alter the array leaves the results of all others as they are. -/
lemma attempt_not_alter (halter : e.alter = false) (e' : SemQueue n U) (now now' : Int) :
    (attempt (attempt sems e now).2 e' now').1 = (attempt sems e' now').1 := by
  have hzero : ∀ sop ∈ e.sops, sop.semOp = 0 := by
    intro sop hsop
    by_contra hop
    rw [e.alter_of_op sop hsop hop] at halter
    cases halter
  generalize hres : tryAtomicSemop sems.sma e.sops (sems.adjOf e.undo) e.pid now = res
  obtain ⟨error, sma', semadj'⟩ := res
  obtain ⟨hvals, rfl⟩ := tryAtomicSemop_zero hzero hres
  have hsems : (attempt sems e now).2 = ⟨sma', sems.semadj⟩ := by
    rw [attempt, hres]
    dsimp only
    rw [putAdj_adjOf]
  rw [hsems]
  exact attempt_result_congr hvals rfl

/-! ### The scan -/

/-- The entries completed so far, each with the result of its attempt, lead from `s₀` to the
present semaphores. -/
inductive Completes (entry : Id → SemQueue n U) (now : Nat → Int) (s₀ : Sems n U) :
    List (Id × Int) → Sems n U → Prop where
  | nil : Completes entry now s₀ [] s₀
  | snoc {log : List (Id × Int)} {s : Sems n U} {q : Id} :
      Completes entry now s₀ log s → (attempt s (entry q) (now log.length)).1 ≤ 0 →
      Completes entry now s₀ (log ++ [(q, (attempt s (entry q) (now log.length)).1)])
        (attempt s (entry q) (now log.length)).2

/-- The operation must sleep, at any time. -/
def Sleeps (entry : Id → SemQueue n U) (s : Sems n U) (q : Id) : Prop :=
  ∀ now, (attempt s (entry q) now).1 = 1

omit [DecidableEq Id] in
lemma sleeps_of_attempt {entry : Id → SemQueue n U} {q : Id}
    (h : (attempt sems (entry q) now).1 = 1) : Sleeps entry sems q := by
  intro now'
  rw [← h]
  exact attempt_result_congr rfl rfl

/-- The scan of a queue that held `l₀`: `seen` are the entries before the cursor, `todo` those
from the cursor on. -/
structure Scanning (entry : Id → SemQueue n U) (now : Nat → Int) (s₀ : Sems n U) (l₀ : List Id)
    (seen todo : List Id) (s : Scan n Id U) : Prop where
  holds : Holds s.links (seen ++ todo)
  cursor : s.cursor = todo.head?
  sleeping : ∀ q ∈ seen, Sleeps entry s.sems q
  perm : l₀.Perm (seen ++ todo ++ s.results.map fst)
  sublist : (seen ++ todo).Sublist l₀
  nodup : l₀.Nodup
  completes : Completes entry now s₀ s.results s.sems
  status : ∀ x ∈ s.results, x.2 ≤ 0 ∧ s.status x.1 = x.2

variable {entry : Id → SemQueue n U} {now : Nat → Int} {s₀ : Sems n U} {l₀ seen todo : List Id}
  {s s' : Scan n Id U} {q : Id}

/-- The queue's length counts for more than the entries still to be seen. -/
def scanRank (l₀ seen todo : List Id) : Nat :=
  (seen ++ todo).length * (l₀.length + 1) + todo.length

omit [DecidableEq Id] in
/-- An entry that must sleep is passed over. -/
lemma Scanning.pass (h : Scanning entry now s₀ l₀ seen (q :: todo) s)
    (hq : (attempt s.sems (entry q) (now s.results.length)).1 = 1) :
    Scanning entry now s₀ l₀ (seen ++ [q]) todo
      { s with
        sems := (attempt s.sems (entry q) (now s.results.length)).2
        cursor := s.links.next q } := by
  have hsplit : seen ++ [q] ++ todo = seen ++ q :: todo := by
    rw [append_assoc, singleton_append]
  have hsems : (attempt s.sems (entry q) (now s.results.length)).2 = s.sems :=
    attempt_unchanged (by omega)
  rw [hsems]
  refine ⟨?_, h.holds.chain.next_eq, ?_, ?_, ?_, h.nodup, h.completes, h.status⟩
  · rw [hsplit]
    exact h.holds
  · intro x hx
    rcases mem_append.mp hx with hseen | hlast
    · exact h.sleeping x hseen
    · rw [mem_singleton.mp hlast]
      exact sleeps_of_attempt hq
  · rw [hsplit]
    exact h.perm
  · rw [hsplit]
    exact h.sublist

omit [DecidableEq Id] in
/-- The removed entries are not in the queue any more. -/
lemma Scanning.not_completed (h : Scanning entry now s₀ l₀ seen (q :: todo) s) :
    ∀ x ∈ s.results, x.1 ≠ q := by
  intro x hx heq
  have hnodup := h.perm.nodup_iff.mp h.nodup
  apply (nodup_append.mp hnodup).2.2 q ?_ q ?_ rfl
  · exact mem_append_right seen mem_cons_self
  · exact mem_map.mpr ⟨x, hx, heq⟩

/-- An entry that completes is taken out and given its result. -/
lemma Scanning.complete (h : Scanning entry now s₀ l₀ seen (q :: todo) s)
    (hq : (attempt s.sems (entry q) (now s.results.length)).1 ≤ 0) {links : Links Id}
    (hlinks : Holds links (seen ++ todo)) (hnext : links.next q = todo.head?) :
    ∃ seen' todo', seen' ++ todo' = seen ++ todo ∧
      Scanning entry now s₀ l₀ seen' todo'
        (s.complete entry q (attempt s.sems (entry q) (now s.results.length)).1
          (attempt s.sems (entry q) (now s.results.length)).2 links) := by
  have hperm : l₀.Perm (seen ++ todo ++
      (s.results ++ [(q, (attempt s.sems (entry q) (now s.results.length)).1)]).map fst) := by
    refine h.perm.trans ?_
    rw [map_append, ← append_assoc]
    refine (List.Perm.append_right _ perm_middle).trans ?_
    exact (perm_append_singleton q _).symm
  have hsublist : (seen ++ todo).Sublist l₀ :=
    ((sublist_cons_self q todo).append_left seen).trans h.sublist
  have hstatus : ∀ x ∈ s.results ++
      [(q, (attempt s.sems (entry q) (now s.results.length)).1)], x.2 ≤ 0 ∧
        update (update s.status q inWakeup) q
          (attempt s.sems (entry q) (now s.results.length)).1 x.1 = x.2 := by
    intro x hx
    rcases mem_append.mp hx with hold | hnew
    · have hne := h.not_completed x hold
      rw [update_of_ne hne, update_of_ne hne]
      exact h.status x hold
    · rw [mem_singleton.mp hnew, update_self]
      exact ⟨hq, rfl⟩
  have hcompletes := h.completes.snoc hq
  cases halter : (entry q).alter with
  | true =>
    -- back to the head: nothing is known to sleep
    refine ⟨[], seen ++ todo, rfl, hlinks, ?_, nofun, hperm, hsublist, h.nodup, hcompletes,
      hstatus⟩
    rw [Scan.complete, halter]
    exact hlinks.chain.get_eq_head
  | false =>
    -- what the entries before the cursor have seen is still there
    refine ⟨seen, todo, rfl, hlinks, ?_, ?_, hperm, hsublist, h.nodup, hcompletes, hstatus⟩
    · rw [Scan.complete, halter]
      exact hnext
    · intro x hx now'
      rw [Scan.complete]
      rw [attempt_not_alter halter]
      exact h.sleeping x hx now'

/-- One pass of the loop keeps the scan going and lowers its rank. -/
lemma Scanning.step (h : Scanning entry now s₀ l₀ seen todo s)
    (hstep : updateStep entry now s = .inl s') :
    ∃ seen' todo', scanRank l₀ seen' todo' < scanRank l₀ seen todo ∧
      Scanning entry now s₀ l₀ seen' todo' s' := by
  unfold updateStep at hstep
  rw [h.cursor] at hstep
  cases todo with
  | nil => cases hstep
  | cons q todo =>
    dsimp only [head?_cons] at hstep
    split at hstep
    next herror =>
      obtain ⟨links, hunlink, hlinks, hnext⟩ := h.holds.unlink
      rw [hunlink] at hstep
      cases hstep
      obtain ⟨seen', todo', hsplit, hscan⟩ := h.complete herror hlinks hnext
      refine ⟨seen', todo', ?_, hscan⟩
      have hlen := congrArg List.length hsplit
      have hshort := hscan.sublist.length_le
      simp only [scanRank, length_append, length_cons] at hlen hshort ⊢
      have hmul : (seen'.length + todo'.length) * (l₀.length + 1) + (l₀.length + 1) =
          (seen.length + (todo.length + 1)) * (l₀.length + 1) := by
        rw [hlen]
        ring
      omega
    next herror =>
      cases hstep
      have hone := (attempt_cases s.sems (entry q) (now s.results.length)).resolve_left herror
      refine ⟨seen ++ [q], todo, ?_, h.pass hone⟩
      simp only [scanRank, append_assoc, singleton_append, length_cons]
      omega

lemma Scanning.exit {result : Option (Scan n Id U)} (h : Scanning entry now s₀ l₀ seen todo s)
    (hstep : updateStep entry now s = .inr result) : result = some s ∧ todo = [] := by
  unfold updateStep at hstep
  rw [h.cursor] at hstep
  cases todo with
  | nil =>
    cases hstep
    exact ⟨rfl, rfl⟩
  | cons q todo =>
    dsimp only [head?_cons] at hstep
    split at hstep
    next herror =>
      obtain ⟨links, hunlink, -⟩ := h.holds.unlink
      rw [hunlink] at hstep
      cases hstep
    next => cases hstep

/-- No wakeup is lost. `update_queue` ends, with every entry still queued having to sleep against
the final semaphores, and every other entry taken out and given its result once: the results are
those of attempts made one after the other. -/
theorem update_queue_no_lost_wakeup (entry : Id → SemQueue n U) (now : Nat → Int)
    (sems : Sems n U) (links : Links Id) (status : Id → Int) (l : List Id)
    (hlinks : Holds links l) :
    ∃ fuel s l', updateQueue entry now sems links status fuel = some (some s) ∧
      Holds s.links l' ∧ l'.Sublist l ∧ (∀ q ∈ l', Sleeps entry s.sems q) ∧
      l.Perm (l' ++ s.results.map fst) ∧ (s.results.map fst).Nodup ∧
      (∀ x ∈ s.results, x.2 ≤ 0 ∧ s.status x.1 = x.2) ∧
      Completes entry now sems s.results s.sems := by
  have hstart : Scanning entry now sems l [] l ⟨sems, links, status, [], links.first⟩ := by
    refine ⟨hlinks, hlinks.chain.get_eq_head, nofun, ?_, List.Sublist.refl l, hlinks.nodup, .nil,
      nofun⟩
    rw [map_nil, append_nil, nil_append]
  have hkeep : ∀ r t t', (∃ seen todo, Scanning entry now sems l seen todo t ∧
      scanRank l seen todo = r) → updateStep entry now t = .inl t' →
      ∃ r' < r, ∃ seen todo, Scanning entry now sems l seen todo t' ∧
        scanRank l seen todo = r' := by
    rintro r t t' ⟨seen, todo, hscan, rfl⟩ hstep
    obtain ⟨seen', todo', hlower, hscan'⟩ := hscan.step hstep
    exact ⟨_, hlower, seen', todo', hscan', rfl⟩
  obtain ⟨result, -, s, r, hrun, -, hexit, seen, todo, hscan, -⟩ :=
    exists_run_of_ranked hkeep ⟨[], l, hstart, rfl⟩ (Nat.lt_succ_self _)
  obtain ⟨rfl, rfl⟩ := hscan.exit hexit
  have hperm := hscan.perm
  have hholds := hscan.holds
  have hsublist := hscan.sublist
  rw [append_nil] at hperm hholds hsublist
  refine ⟨_, s, seen, hrun, hholds, hsublist, hscan.sleeping, hperm, ?_, hscan.status,
    hscan.completes⟩
  exact (nodup_append.mp (hperm.nodup_iff.mp hscan.nodup)).2.1

/-- Entry 0 waits for the semaphore to become zero, entry 1 takes one from it. -/
def waitThenTake (q : Fin 2) : SemQueue 1 Empty where
  sops := [⟨0, if q.val = 0 then 0 else -1, 0⟩]
  undo := none
  pid := 5
  alter := q.val ≠ 0
  alter_of_op := by decide +revert
  undo_of_flag := by decide +revert

def twoLinks : Links (Fin 2) where
  first := some ⟨0, Nat.two_pos⟩
  last := .next ⟨1, Nat.one_lt_two⟩
  next q := if q.val = 0 then some ⟨1, Nat.one_lt_two⟩ else none
  prev q := if q.val = 0 then some .head else some (.next ⟨0, Nat.two_pos⟩)

def oneSem : Sems 1 Empty :=
  ⟨⟨fun _ => ⟨1, 0⟩, 0⟩, nofun⟩

theorem update_queue_no_lost_wakeup_two : Holds twoLinks [0, 1] ∧
    (updateQueue waitThenTake (fun _ => 0) oneSem twoLinks (fun _ => -4) 5).map
      (Option.map Scan.results) = some (some [(1, 0), (0, 0)]) ∧
    ∃ fuel s l', updateQueue waitThenTake (fun _ => 0) oneSem twoLinks (fun _ => -4) fuel =
        some (some s) ∧
      Holds s.links l' ∧ l'.Sublist [0, 1] ∧ (∀ q ∈ l', Sleeps waitThenTake s.sems q) ∧
      [0, 1].Perm (l' ++ s.results.map fst) ∧ (s.results.map fst).Nodup ∧
      (∀ x ∈ s.results, x.2 ≤ 0 ∧ s.status x.1 = x.2) ∧
      Completes waitThenTake (fun _ => 0) oneSem s.results s.sems :=
  have hlinks : Holds twoLinks [0, 1] := ⟨⟨rfl, rfl, rfl, rfl, rfl, rfl⟩, by decide⟩
  ⟨hlinks, by decide +kernel, update_queue_no_lost_wakeup waitThenTake (fun _ => 0) oneSem twoLinks
    (fun _ => -4) [0, 1] hlinks⟩

end R0Kernel.Ipc.Semaphore
