import R0Kernel.Kernel.Timer.Tick

/-! # Runs of the timer wheel

A timer is followed from the call that queues it until the next call for it:
it stays in the wheel for the ticks up to its expiry, is then moved to the work
list and run once.
-/

namespace R0Kernel.Timer

open Function List UInt32 TvecBase

variable {Timer : Type*} [DecidableEq Timer] {base : TvecBase Timer} {t : Timer}
  {now due : Nat} {head : Head} {expires : UInt32} {place : Option Head} {runs : Nat}

/-! ## Events -/

inductive Event (Timer : Type*) where
  | add (timer : Timer) (expires : UInt32)
  | mod (timer : Timer) (expires : UInt32)
  | del (timer : Timer)
  | iterate
  | run (timer : Timer)
  deriving DecidableEq

/-- A call under the base's lock, an iteration that finds the work list empty, or
the work list's first timer being detached and run. A timer that is added must
not be pending, as `add_timer` checks. -/
inductive Step (base : TvecBase Timer) : Event Timer → TvecBase Timer → Prop where
  | add {t : Timer} {expires : UInt32} (hidle : base.pending t = false) :
      Step base (.add t expires) ((base.setExpires t expires).internalAddTimer t)
  | mod (t : Timer) (expires : UInt32) : Step base (.mod t expires) (base.modTimer t expires).2
  | del (t : Timer) : Step base (.del t) (base.delTimer t).2
  | iterate (hwork : base.list .workList = []) : Step base .iterate base.iterate
  | run {t : Timer} (hfirst : (base.list .workList).head? = some t) :
      Step base (.run t) (base.detachTimer t true)

inductive Run (base : TvecBase Timer) : List (Event Timer) → TvecBase Timer → Prop where
  | start : Run base [] base
  | step {events : List (Event Timer)} {event : Event Timer} {middle last : TvecBase Timer}
      (hrun : Run base events middle) (hstep : Step middle event last) :
      Run base (events ++ [event]) last

def Event.Calls (t : Timer) : Event Timer → Prop
  | .add u _ => u = t
  | .mod u _ => u = t
  | .del u => u = t
  | .iterate => False
  | .run _ => False

/-- The iterations before the one that expires a timer queued at `timerJiffies`. -/
def delay (timerJiffies expires : UInt32) : Nat :=
  if (expires - timerJiffies).toNat < 2 ^ 31 then (expires - timerJiffies).toNat else 0

lemma queued_internalAddTimer (hnow : base.timerJiffies.toNat = now % 2 ^ 32)
    (hcount : ∀ head, (base.list head).count t = 0) :
    ∃ head, Queued ((base.setExpires t expires).internalAddTimer t) t now
      (now + delay base.timerJiffies expires) head := by
  have hexpires : (base.setExpires t expires).expires t = expires := by
    simp [setExpires]
  have hlt' := expires.toNat_lt
  have htracked : Tracked ((base.setExpires t expires).internalAddTimer t) t
      (some (slotFor base.timerJiffies expires)) := by
    unfold internalAddTimer
    rw [hexpires]
    refine tracked_listAddTail ?_ _
    exact hcount
  have hsub := UInt32.toNat_sub expires base.timerJiffies
  unfold delay
  split
  next hahead =>
    have hdue : expires.toNat = (now + (expires - base.timerJiffies).toNat) % 2 ^ 32 := by
      omega
    refine ⟨_, htracked, (slotFor_ahead hnow hdue (by omega) (by omega)).1, hnow,
      fun _ _ _ _ => ?_⟩
    exact (congrArg toNat hexpires).trans hdue
  next hpast =>
    have hslot := slotFor_past hnow (not_lt.mp hpast)
    refine ⟨_, htracked, ?_, hnow, fun tv i heq hne => ?_⟩
    · rw [hslot]
      simp [Placed, Vec.first, Vec.shift, Vec.bits]
    · rw [hslot] at heq
      cases heq
      exact absurd rfl hne

/-! ## The life of a timer -/

/-- A timer due at `due`, seen at tick `now`, that has been run `runs` times. -/
inductive Stage (base : TvecBase Timer) (t : Timer) (now due : Nat) : Nat → Prop where
  | waiting {head : Head} (hle : now ≤ due) (hq : Queued base t now due head) :
      Stage base t now due 0
  | expired (hnow : now = due + 1) (h : Tracked base t (some .workList)) : Stage base t now due 0
  | done (hlt : due < now) (h : Tracked base t none) : Stage base t now due 1

variable {base' : TvecBase Timer} {event : Event Timer} {events : List (Event Timer)}

lemma Tracked.step_of_ne (h : Tracked base t place) (hstep : Step base event base')
    (hcalls : ¬ event.Calls t) (hiterate : event ≠ .iterate) (hrun : event ≠ .run t) :
    Tracked base' t place := by
  cases hstep with
  | add hidle => exact (h.setExpires _).listAddTail (Ne.symm hcalls) _
  | mod u expires =>
    have hne : t ≠ u := Ne.symm hcalls
    unfold modTimer
    split
    · exact ((h.detachTimer_of_ne hne false).setExpires expires).listAddTail hne _
    · exact (h.setExpires expires).listAddTail hne _
  | del u =>
    unfold delTimer
    split
    · exact h.detachTimer_of_ne (Ne.symm hcalls) true
    · exact h
  | iterate hwork => exact absurd rfl hiterate
  | @run u hfirst =>
    apply h.detachTimer_of_ne
    rintro rfl
    exact hrun rfl

lemma step_timerJiffies (hstep : Step base event base') :
    base'.timerJiffies = base.timerJiffies + ofNat ([event].count .iterate) := by
  cases hstep with
  | add hidle => simp [internalAddTimer, listAddTail, setExpires]
  | mod u expires =>
    have hdetached : (if base.pending u = true then base.detachTimer u false
        else base).timerJiffies = base.timerJiffies := by
      split <;> rfl
    simpa [modTimer, internalAddTimer, listAddTail,
      setExpires] using hdetached
  | del u =>
    unfold delTimer
    split <;> simp [detachTimer]
  | iterate hwork => simpa using iterate_timerJiffies base
  | run hfirst => simp [detachTimer]

lemma step_expires (hstep : Step base event base') (hcalls : ¬ event.Calls t)
    (hiterate : event ≠ .iterate) : base'.expires t = base.expires t := by
  cases hstep with
  | add hidle => exact update_of_ne (Ne.symm hcalls) _ _
  | mod u expires =>
    unfold modTimer
    split
    · exact update_of_ne (Ne.symm hcalls) _ _
    · exact update_of_ne (Ne.symm hcalls) _ _
  | del u =>
    unfold delTimer
    split
    · rfl
    · rfl
  | iterate hwork => exact absurd rfl hiterate
  | run hfirst => rfl

lemma Queued.step_of_ne (h : Queued base t now due head) (hstep : Step base event base')
    (hcalls : ¬ event.Calls t) (hiterate : event ≠ .iterate) (hrun : event ≠ .run t) :
    Queued base' t now due head := by
  refine ⟨h.tracked.step_of_ne hstep hcalls hiterate hrun, h.placed, ?_, ?_⟩
  · have htick := step_timerJiffies hstep
    simp only [count_singleton, beq_eq_false_iff_ne.mpr hiterate, Bool.false_eq_true,
      if_false] at htick
    simpa [htick] using h.ticks
  · rw [step_expires hstep hcalls hiterate]
    exact h.expires

/-- Only the timer's place on the work list lets it be run. -/
lemma Tracked.place_of_run (h : Tracked base t place) (hstep : Step base (.run t) base') :
    place = some .workList := by
  cases hstep with
  | run hfirst =>
    by_contra hne
    exact h.notMem hne (mem_of_mem_head? hfirst)

lemma Stage.step (h : Stage base t now due runs) (hstep : Step base event base')
    (hcalls : ¬ event.Calls t) :
    Stage base' t (now + [event].count .iterate) due (runs + [event].count (.run t)) := by
  by_cases hiterate : event = .iterate
  · subst hiterate
    have hnow : now + [Event.iterate].count (Event.iterate : Event Timer) = now + 1 := by simp
    have hruns : [Event.iterate].count (Event.run t) = 0 := by simp
    rw [hnow, hruns]
    cases hstep with
    | iterate hwork =>
      cases h with
      | waiting hle hq =>
        have hnext := hq.iterate
        split at hnext
        next hdue => exact .expired (by omega) hnext
        next hdue =>
          obtain ⟨head', hq'⟩ := hnext
          exact .waiting (by omega) hq'
      | expired hnow h =>
        have hcount := h.count .workList
        simp [hwork] at hcount
      | done hlt h => exact .done (by omega) h.iterate
  · have hnow : now + [event].count .iterate = now := by simp [hiterate]
    rw [hnow]
    by_cases hrun : event = .run t
    · subst hrun
      have hruns : [Event.run t].count (Event.run t) = 1 := by simp
      rw [hruns]
      cases h with
      | waiting hle hq =>
        have hplace := hq.tracked.place_of_run hstep
        rw [Option.some.inj hplace] at hq
        exact hq.placed.elim
      | expired hnow h =>
        cases hstep with
        | run hfirst => exact .done (by omega) h.detachTimer
      | done hlt h => cases h.place_of_run hstep
    · have hruns : [event].count (.run t) = 0 := by simp [hrun]
      rw [hruns]
      cases h with
      | waiting hle hq => exact .waiting hle (hq.step_of_ne hstep hcalls hiterate hrun)
      | expired hnow h => exact .expired hnow (h.step_of_ne hstep hcalls hiterate hrun)
      | done hlt h => exact .done hlt (h.step_of_ne hstep hcalls hiterate hrun)

lemma Stage.run (h : Stage base t now due runs) (hrun : Run base events base')
    (hquiet : ∀ event ∈ events, ¬ event.Calls t) :
    Stage base' t (now + events.count .iterate) due (runs + events.count (.run t)) := by
  induction hrun with
  | start => simpa using h
  | step _ hstep ih =>
    have hprevious := ih fun event hevent => hquiet event (mem_append_left _ hevent)
    have hnext := hprevious.step hstep (hquiet _ (by simp))
    simpa only [count_append, add_assoc] using hnext

/-! ## Reachable states -/

structure Initial (base : TvecBase Timer) : Prop where
  list : ∀ head, base.list head = []
  pending : ∀ t, base.pending t = false

def Consistent (base : TvecBase Timer) (t : Timer) : Prop :=
  Tracked base t none ∨ Tracked base t (some .workList) ∨
    ∃ now due head, Queued base t now due head

lemma Consistent.tracked (h : Consistent base t) : ∃ place, Tracked base t place := by
  rcases h with h | h | ⟨now, due, head, hq⟩
  · exact ⟨none, h⟩
  · exact ⟨_, h⟩
  · exact ⟨_, hq.tracked⟩

lemma queued_of_arms (hnow : base.timerJiffies.toNat = now % 2 ^ 32)
    (h : ∃ place, Tracked base t place) (hstep : Step base event base')
    (harms : event = .add t expires ∨ event = .mod t expires) :
    ∃ head, Queued base' t now (now + delay base.timerJiffies expires) head := by
  obtain ⟨place, htracked⟩ := h
  have hidle : base.pending t = false → ∀ head, (base.list head).count t = 0 := by
    intro hpending head
    rw [htracked.pending, Option.isSome_eq_false_iff, Option.isNone_iff_eq_none] at hpending
    simp [htracked.count head, hpending]
  rcases harms with rfl | rfl
  · cases hstep with
    | add hpending => exact queued_internalAddTimer hnow (hidle hpending)
  · cases hstep with
    | mod =>
      unfold modTimer
      split
      · exact queued_internalAddTimer hnow (htracked.count_detachTimer false)
      next hpending => exact queued_internalAddTimer hnow (hidle (by simpa using hpending))

omit [DecidableEq Timer] in
lemma ticks_toNat (base : TvecBase Timer) :
    base.timerJiffies.toNat = base.timerJiffies.toNat % 2 ^ 32 :=
  (Nat.mod_eq_of_lt base.timerJiffies.toNat_lt).symm

lemma Consistent.step (h : Consistent base t) (hstep : Step base event base') :
    Consistent base' t := by
  obtain ⟨place, htracked⟩ := h.tracked
  by_cases hcalls : event.Calls t
  · cases event with
    | add u expires =>
      obtain rfl := hcalls
      exact .inr (.inr ⟨_, _, queued_of_arms (ticks_toNat base) h.tracked hstep (.inl rfl)⟩)
    | mod u expires =>
      obtain rfl := hcalls
      exact .inr (.inr ⟨_, _, queued_of_arms (ticks_toNat base) h.tracked hstep (.inr rfl)⟩)
    | del u =>
      obtain rfl := hcalls
      cases hstep with
      | del =>
        unfold delTimer
        split
        · exact .inl htracked.detachTimer
        · exact h
    | iterate => exact hcalls.elim
    | run u => exact hcalls.elim
  · by_cases hrun : event = .run t
    · subst hrun
      cases hstep with
      | run hfirst => exact .inl htracked.detachTimer
    · by_cases hiterate : event = .iterate
      · subst hiterate
        cases hstep with
        | iterate hwork =>
          rcases h with h | h | ⟨now, due, head, hq⟩
          · exact .inl h.iterate
          · have hcount := h.count .workList
            simp [hwork] at hcount
          · have hnext := hq.iterate
            split at hnext
            · exact .inr (.inl hnext)
            · exact .inr (.inr ⟨_, _, hnext⟩)
      · rcases h with h | h | ⟨now, due, head, hq⟩
        · exact .inl (h.step_of_ne hstep hcalls hiterate hrun)
        · exact .inr (.inl (h.step_of_ne hstep hcalls hiterate hrun))
        · exact .inr (.inr ⟨now, due, head, hq.step_of_ne hstep hcalls hiterate hrun⟩)

lemma Initial.consistent (hinit : Initial base) (hrun : Run base events base') (t : Timer) :
    Consistent base' t := by
  induction hrun with
  | start => exact .inl ⟨fun head => by simp [hinit.list], by simp [hinit.pending]⟩
  | step _ hstep ih => exact ih.step hstep

lemma run_timerJiffies (hrun : Run base events base') :
    base'.timerJiffies = base.timerJiffies + ofNat (events.count .iterate) := by
  induction hrun with
  | start => simp
  | step _ hstep ih =>
    rw [step_timerJiffies hstep, ih, count_append, ofNat_add, add_assoc]

/-- What a timer queued in `start` has gone through when `events` have led to
`last`: it waits in the wheel for the iterations before the one that processes
its expiry (or before the next one, if it was in the past), is put on the work
list by that iteration, and is run once. -/
structure Exact (start last : TvecBase Timer) (t : Timer) (expires : UInt32)
    (events : List (Event Timer)) : Prop where
  jiffies : last.timerJiffies = start.timerJiffies + ofNat (events.count .iterate)
  waits : events.count .iterate ≤ delay start.timerJiffies expires →
    (∃ tv i, Tracked last t (some (.slot tv i))) ∧ .run t ∉ events
  moves : events.count .iterate = delay start.timerJiffies expires →
    ((expires - start.timerJiffies).toNat < 2 ^ 31 → last.timerJiffies = expires) ∧
      ∀ next, Step last .iterate next → Tracked next t (some .workList)
  runs : delay start.timerJiffies expires < events.count .iterate →
    Tracked last t (some .workList) ∧ .run t ∉ events ∧
      events.count .iterate = delay start.timerJiffies expires + 1 ∨
    Tracked last t none ∧ events.count (.run t) = 1

/-- From any state that calls and iterations reach, a timer that is queued and
then left alone expires in exactly the iteration for its tick. -/
theorem timer_exact {initial start armed last : TvecBase Timer} {past : List (Event Timer)}
    {expires : UInt32} (hinit : Initial initial) (hpast : Run initial past start)
    (hstep : Step start event armed) (harms : event = .add t expires ∨ event = .mod t expires)
    (hrun : Run armed events last) (hquiet : ∀ event ∈ events, ¬ event.Calls t) :
    Exact start last t expires events := by
  obtain ⟨head, hq⟩ :=
    queued_of_arms (ticks_toNat start) (hinit.consistent hpast t).tracked hstep harms
  have hstage := (Stage.waiting (Nat.le_add_right _ _) hq).run hrun hquiet
  rw [zero_add] at hstage
  have hjiffies : last.timerJiffies =
      start.timerJiffies + ofNat (events.count .iterate) := by
    have harmed := step_timerJiffies hstep
    have hzero : [event].count .iterate = 0 := by
      rcases harms with rfl | rfl <;> simp
    rw [run_timerJiffies hrun, harmed, hzero]
    simp
  have hnotRun : events.count (.run t) = 0 → .run t ∉ events := count_eq_zero.mp
  constructor
  · exact hjiffies
  · intro hle
    generalize hruns : events.count (.run t) = runs at hstage
    cases hstage with
    | @waiting head _ hq =>
      cases head with
      | workList => exact hq.placed.elim
      | slot tv i => exact ⟨⟨tv, i, hq.tracked⟩, hnotRun hruns⟩
    | expired hnow _ => omega
    | done hlt _ => omega
  · intro heq
    refine ⟨fun hahead => ?_, fun next hnext => ?_⟩
    · rw [hjiffies, heq, delay, if_pos hahead, UInt32.ofNat_toNat, UInt32.add_comm,
        sub_add_cancel]
    · generalize hruns : events.count (.run t) = runs at hstage
      cases hstage with
      | waiting _ hq =>
        cases hnext with
        | iterate hwork =>
          have hexpired := hq.iterate
          rwa [if_pos (by omega)] at hexpired
      | expired hnow _ => omega
      | done hlt _ => omega
  · intro hlt
    generalize hruns : events.count (.run t) = runs at hstage
    cases hstage with
    | waiting hle _ => omega
    | expired hnow h => exact .inl ⟨h, hnotRun hruns, by omega⟩
    | done _ h => exact .inr ⟨h, rfl⟩

/-- A wheel two ticks before `timer_jiffies` wraps, and a timer for the tick 1. -/
def beforeWrap : TvecBase Unit := ⟨0xfffffffe, fun _ => [], fun _ => 0, fun _ => false⟩

theorem timer_exact_wrap :
    ∃ armed last, Step beforeWrap (.add () 1) armed ∧
      Run armed [.iterate, .iterate, .iterate] last ∧
      Exact beforeWrap last () 1 [.iterate, .iterate, .iterate] ∧
      last.list (.slot .tv1 1) = [()] ∧ last.iterate.list .workList = [()] := by
  have hadd : Step beforeWrap (.add () 1) _ := .add rfl
  have hrun : Run ((beforeWrap.setExpires () 1).internalAddTimer ())
      [.iterate, .iterate, .iterate] _ :=
    ((Run.start.step (.iterate rfl)).step (.iterate rfl)).step (.iterate rfl)
  refine ⟨_, _, hadd, hrun, timer_exact ⟨fun _ => rfl, fun _ => rfl⟩ .start hadd (.inl rfl) hrun ?_,
    by decide +kernel, by decide +kernel⟩
  simp [Event.Calls]

end R0Kernel.Timer
