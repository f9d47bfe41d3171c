import R0Kernel.Kernel.Timer.Placement

/-! # One iteration of the timer wheel

Each operation is described by what it does to the entry of one timer. A queued
timer keeps its placement through the cascades of an iteration and leaves the
wheel in the one for its tick.
-/

namespace R0Kernel.Timer

open List TvecBase

variable {Timer : Type*} [DecidableEq Timer] {base : TvecBase Timer} {t u : Timer}
  {place : Option Head} {k : Nat}

/-! ## Where a timer is linked -/

/-- The timer has one entry on the list at `place`, or none. -/
structure Tracked (base : TvecBase Timer) (t : Timer) (place : Option Head) : Prop where
  count : ∀ head, (base.list head).count t = if place = some head then 1 else 0
  pending : base.pending t = place.isSome

def TvecBase.headFor (base : TvecBase Timer) (t : Timer) : Head :=
  slotFor base.timerJiffies (base.expires t)

lemma tracked_listAddTail (hcount : ∀ head, (base.list head).count t = 0) (head : Head) :
    Tracked (base.listAddTail t head) t (some head) := by
  constructor
  · intro head'
    by_cases heq : head' = head
    · subst heq
      simp [TvecBase.listAddTail, hcount]
    · simp [TvecBase.listAddTail, heq, Ne.symm heq, hcount]
  · simp [TvecBase.listAddTail]

namespace Tracked

variable {place : Option Head}

variable (h : Tracked base t place)

include h

lemma listAddTail (hne : t ≠ u) (head : Head) :
    Tracked (base.listAddTail u head) t place := by
  constructor
  · intro head'
    rw [← h.count head']
    by_cases heq : head' = head
    · subst heq
      simp [TvecBase.listAddTail, hne.symm]
    · simp [TvecBase.listAddTail, heq]
  · rw [← h.pending]
    simp [TvecBase.listAddTail, hne]

lemma setExpires (expires : UInt32) :
    Tracked (base.setExpires u expires) t place :=
  ⟨h.count, h.pending⟩

lemma count_detachTimer (clear : Bool) (head : Head) :
    ((base.detachTimer t clear).list head).count t = 0 := by
  have hcount := h.count head
  simp only [TvecBase.detachTimer, count_erase_self, hcount]
  split <;> rfl

lemma detachTimer : Tracked (base.detachTimer t true) t none := by
  refine ⟨fun head => ?_, by simp [TvecBase.detachTimer]⟩
  simpa using h.count_detachTimer true head

lemma detachTimer_of_ne (hne : t ≠ u) (clear : Bool) :
    Tracked (base.detachTimer u clear) t place := by
  constructor
  · intro head
    rw [← h.count head]
    exact count_erase_of_ne hne
  · rw [← h.pending]
    cases clear <;> simp [TvecBase.detachTimer, hne]

lemma notMem {head : Head} (hne : place ≠ some head) :
    t ∉ base.list head := by
  rw [← count_eq_zero, h.count head, if_neg hne]

end Tracked

/-! ## Cascading -/

lemma foldl_fields (timers : List Timer) (base : TvecBase Timer) :
    (timers.foldl internalAddTimer base).timerJiffies = base.timerJiffies ∧
      (timers.foldl internalAddTimer base).expires = base.expires := by
  induction timers generalizing base with
  | nil => exact ⟨rfl, rfl⟩
  | cons timer timers ih => exact ih (base.internalAddTimer timer)

lemma count_internalAddTimer (base : TvecBase Timer) (t timer : Timer) (head : Head) :
    ((base.internalAddTimer timer).list head).count t =
      (base.list head).count t + if head = base.headFor t ∧ timer = t then 1 else 0 := by
  by_cases htimer : timer = t
  · subst htimer
    by_cases hhead : head = base.headFor timer
    · subst hhead
      simp [internalAddTimer, TvecBase.listAddTail, headFor]
    · have hne : head ≠ slotFor base.timerJiffies (base.expires timer) := hhead
      simp [internalAddTimer, TvecBase.listAddTail, hhead, hne]
  · by_cases hhead : head = slotFor base.timerJiffies (base.expires timer)
    · subst hhead
      simp [internalAddTimer, TvecBase.listAddTail, htimer]
    · simp [internalAddTimer, TvecBase.listAddTail, hhead, htimer]

section

variable (timers : List Timer) (base : TvecBase Timer) (t : Timer)

lemma count_foldl (head : Head) :
    ((timers.foldl internalAddTimer base).list head).count t =
      (base.list head).count t + if head = base.headFor t then timers.count t else 0 := by
  induction timers generalizing base with
  | nil => simp
  | cons timer timers ih =>
    have hsame : (base.internalAddTimer timer).headFor t = base.headFor t := rfl
    rw [foldl_cons, ih, hsame, count_internalAddTimer]
    by_cases hhead : head = base.headFor t <;> by_cases htimer : timer = t <;>
      simp [hhead, htimer]
    omega

lemma pending_foldl :
    (timers.foldl internalAddTimer base).pending t =
      (base.pending t || decide (t ∈ timers)) := by
  induction timers generalizing base with
  | nil => simp
  | cons timer timers ih =>
    rw [foldl_cons, ih]
    by_cases heq : t = timer
    · subst heq
      simp [internalAddTimer, TvecBase.listAddTail]
    · simp [internalAddTimer, TvecBase.listAddTail, heq]

end

/-- `cascade` moves the timers of the slot to where they belong now and leaves
the others where they are. -/
lemma Tracked.cascade (h : Tracked base t place) (tv : Vec) (index : Nat) :
    Tracked (base.cascade tv index).2 t
      (place.map fun head => if head = .slot tv index then base.headFor t else head) := by
  have hslot := h.count (.slot tv index)
  constructor
  · intro head
    have hemptied : (Function.update base.list (.slot tv index) [] head).count t =
        if place = some head ∧ head ≠ .slot tv index then 1 else 0 := by
      by_cases heq : head = .slot tv index
      · subst heq
        simp
      · simp [heq, h.count head]
    simp only [TvecBase.cascade, count_foldl, hemptied, hslot]
    cases place with
    | none => simp
    | some old =>
      by_cases hold : old = .slot tv index
      · subst hold
        by_cases hhead : head = .slot tv index <;>
          simp [headFor, hhead, eq_comm]
      · by_cases hhead : old = head
        · subst hhead
          simp [hold]
        · simp [hold, hhead]
  · simp only [TvecBase.cascade, pending_foldl, h.pending, Option.isSome_map]
    cases place with
    | none =>
      have hnot : t ∉ base.list (.slot tv index) := h.notMem (by simp)
      simp [hnot]
    | some old => simp

/-! ## A queued timer through one tick -/

/-- The timer waits in a slot of the wheel for tick `due`. Only the timers of
`tv1` are never queued again, so only they may have an old `expires`. -/
structure Queued (base : TvecBase Timer) (t : Timer) (now due : Nat) (head : Head) : Prop where
  tracked : Tracked base t (some head)
  placed : Placed now due head
  ticks : base.timerJiffies.toNat = now % 2 ^ 32
  expires : ∀ tv i, head = .slot tv i → tv ≠ .tv1 → (base.expires t).toNat = due % 2 ^ 32

/-- Slots of at most `2 ^ k` ticks need not be emptied at `now`. -/
def SettledUpTo (now due k : Nat) (head : Head) : Prop :=
  ∀ tv i, head = .slot tv i → tv.shift ≤ k → Settled now due head

variable {now due : Nat} {head : Head}

lemma Vec.shift_le (tv : Vec) : tv.shift ≤ 26 := by
  cases tv <;> decide

lemma Vec.shift_injective {tv tv' : Vec} (h : tv.shift = tv'.shift) : tv = tv' := by
  cases tv <;> cases tv' <;> first | rfl | simp [Vec.shift] at h

lemma Queued.cascade (hq : Queued base t now due head) (tv : Vec) (htv : tv ≠ .tv1)
    (haligned : 2 ^ tv.shift ∣ now) (hk : ∀ tv' : Vec, tv'.shift < tv.shift → tv'.shift ≤ k)
    (hsettled : SettledUpTo now due k head) :
    ∃ head', Queued (base.cascade tv (now / 2 ^ tv.shift % 2 ^ tv.bits)).2 t now due head' ∧
      SettledUpTo now due tv.shift head' := by
  have htracked := hq.tracked.cascade tv (now / 2 ^ tv.shift % 2 ^ tv.bits)
  obtain ⟨htick, hexp⟩ := foldl_fields (base.list (.slot tv (now / 2 ^ tv.shift % 2 ^ tv.bits)))
    { base with list := Function.update base.list (.slot tv (now / 2 ^ tv.shift % 2 ^ tv.bits)) [] }
  have hticks : (base.cascade tv (now / 2 ^ tv.shift % 2 ^ tv.bits)).2.timerJiffies.toNat =
      now % 2 ^ 32 := (congrArg UInt32.toNat htick).trans hq.ticks
  by_cases hmoved : head = .slot tv (now / 2 ^ tv.shift % 2 ^ tv.bits)
  · subst hmoved
    have hexpires := hq.expires tv _ rfl htv
    obtain ⟨hle, hlt⟩ := due_lt_of_first (first_eq_now hq.placed haligned rfl)
    have hnear : 2 ^ tv.shift ≤ 2 ^ 26 := Nat.pow_le_pow_right (by decide) tv.shift_le
    obtain ⟨hplaced, hdone⟩ := slotFor_ahead hq.ticks hexpires hle (by omega)
    refine ⟨base.headFor t, ⟨by simpa using htracked, hplaced, hticks, fun _ _ _ _ => ?_⟩,
      fun _ _ _ _ => hdone⟩
    exact (congrArg (fun f => (f t).toNat) hexp).trans hexpires
  · refine ⟨head, ⟨by simpa [hmoved] using htracked, hq.placed, hticks, fun tv' i heq hne => ?_⟩,
      fun tv' i heq hle => ?_⟩
    · exact (congrArg (fun f => (f t).toNat) hexp).trans (hq.expires tv' i heq hne)
    · by_cases hsame : tv' = tv
      · subst hsame heq
        refine .inr (settled_of_ne hq.placed fun hi => hmoved ?_)
        rw [hi]
      · have hlt : tv'.shift < tv.shift := lt_of_le_of_ne hle fun h =>
          hsame (Vec.shift_injective h)
        exact hsettled tv' i heq (hk tv' hlt)

lemma SettledUpTo.settled (h : SettledUpTo now due k head) (hplaced : Placed now due head)
    (hstop : ∀ tv : Vec, k < tv.shift → ¬ 2 ^ tv.shift ∣ now) :
    Settled now due head := by
  cases head with
  | workList => exact hplaced.elim
  | slot tv i =>
    by_cases hk : tv.shift ≤ k
    · exact h tv i rfl hk
    · exact .inr (settled_of_not_aligned hplaced (hstop tv (not_le.mp hk)))

lemma settledUpTo_zero : SettledUpTo now due 0 head := by
  rintro tv i rfl hle
  exact .inl (Vec.shift_injective (Nat.le_zero.mp hle))

lemma Queued.cascadeVectors (hq : Queued base t now due head) (haligned : 2 ^ 8 ∣ now) :
    ∃ head', Queued base.cascadeVectors t now due head' ∧ Settled now due head' := by
  have hi0 : base.index 0 = now / 2 ^ 8 % 2 ^ 6 := index_eq hq.ticks 0 (by decide)
  have hi1 : base.index 1 = now / 2 ^ 14 % 2 ^ 6 := index_eq hq.ticks 1 (by decide)
  have hi2 : base.index 2 = now / 2 ^ 20 % 2 ^ 6 := index_eq hq.ticks 2 (by decide)
  have hi3 : base.index 3 = now / 2 ^ 26 % 2 ^ 6 := index_eq hq.ticks 3 (by decide)
  have hgap : ∀ k ∈ [8, 14, 20], ∀ tv : Vec, k < tv.shift → k + 6 ≤ tv.shift := by
    intro k hk tv
    fin_cases hk <;> cases tv <;> decide
  -- the chain stops at the first vector whose index is not zero: no later one is due
  have hstop : ∀ k ∈ [8, 14, 20], now / 2 ^ k % 2 ^ 6 ≠ 0 →
      ∀ tv : Vec, k < tv.shift → ¬ 2 ^ tv.shift ∣ now := fun k hk hne tv hlt =>
    not_aligned_of_index hne (hgap k hk tv hlt)
  obtain ⟨head₂, hq₂, hs₂⟩ := hq.cascade .tv2 (by decide) haligned
    (fun tv => by cases tv <;> decide) settledUpTo_zero
  unfold TvecBase.cascadeVectors
  simp only [hi0, hi1, hi2, hi3]
  split
  next hne => exact ⟨head₂, hq₂, hs₂.settled hq₂.placed (hstop 8 (by simp) hne)⟩
  next hzero₂ =>
    have haligned₃ := aligned_of_index haligned (not_not.mp hzero₂)
    obtain ⟨head₃, hq₃, hs₃⟩ := hq₂.cascade .tv3 (by decide) haligned₃
      (fun tv => by cases tv <;> decide) hs₂
    split
    next hne => exact ⟨head₃, hq₃, hs₃.settled hq₃.placed (hstop 14 (by simp) hne)⟩
    next hzero₃ =>
      have haligned₄ := aligned_of_index haligned₃ (not_not.mp hzero₃)
      obtain ⟨head₄, hq₄, hs₄⟩ := hq₃.cascade .tv4 (by decide) haligned₄
        (fun tv => by cases tv <;> decide) hs₃
      split
      next hne => exact ⟨head₄, hq₄, hs₄.settled hq₄.placed (hstop 20 (by simp) hne)⟩
      next hzero₄ =>
        have haligned₅ := aligned_of_index haligned₄ (not_not.mp hzero₄)
        obtain ⟨head₅, hq₅, hs₅⟩ := hq₄.cascade .tv5 (by decide) haligned₅
          (fun tv => by cases tv <;> decide) hs₄
        refine ⟨head₅, hq₅, hs₅.settled hq₅.placed fun tv hlt => ?_⟩
        exact absurd tv.shift_le (not_le.mpr hlt)

lemma Tracked.cascadeVectors (h : Tracked base t none) : Tracked base.cascadeVectors t none := by
  have hcascade : ∀ (base : TvecBase Timer) tv index, Tracked base t none →
      Tracked (base.cascade tv index).2 t none := fun _ tv index h => h.cascade tv index
  unfold TvecBase.cascadeVectors
  dsimp only
  split
  · exact hcascade _ _ _ h
  · split
    · exact hcascade _ _ _ (hcascade _ _ _ h)
    · split
      · exact hcascade _ _ _ (hcascade _ _ _ (hcascade _ _ _ h))
      · exact hcascade _ _ _ (hcascade _ _ _ (hcascade _ _ _ (hcascade _ _ _ h)))

lemma cascade_timerJiffies (base : TvecBase Timer) (tv : Vec) (index : Nat) :
    (base.cascade tv index).2.timerJiffies = base.timerJiffies :=
  (foldl_fields (base.list (.slot tv index)) _).1

lemma iterate_timerJiffies (base : TvecBase Timer) :
    base.iterate.timerJiffies = base.timerJiffies + 1 := by
  unfold TvecBase.iterate TvecBase.cascadeVectors TvecBase.expire
  dsimp only
  split_ifs <;> simp only [cascade_timerJiffies]

lemma Tracked.expire (h : Tracked base t place) (hwork : place ≠ some .workList) (i : Nat) :
    Tracked (base.expire i) t
      (place.map fun head => if head = .slot .tv1 i then .workList else head) := by
  constructor
  · intro head
    have hslot := h.count (.slot .tv1 i)
    have hhead := h.count head
    unfold TvecBase.expire
    cases place with
    | none =>
      by_cases h1 : head = .slot .tv1 i <;> by_cases h2 : head = .workList <;>
        simp_all
    | some old =>
      by_cases hold : old = .slot .tv1 i <;> by_cases h1 : head = .slot .tv1 i <;>
        by_cases h2 : head = .workList <;> simp_all [eq_comm]
  · rw [Option.isSome_map]
    exact h.pending

lemma Tracked.iterate (h : Tracked base t none) : Tracked base.iterate t none := by
  have hcascaded : Tracked (if (base.timerJiffies &&& tvrMask).toNat = 0 then base.cascadeVectors
      else base) t none := by
    split
    · exact h.cascadeVectors
    · exact h
  exact hcascaded.expire (by simp) _

lemma Queued.iterate (hq : Queued base t now due head) :
    if due = now then Tracked base.iterate t (some .workList)
    else ∃ head', Queued base.iterate t (now + 1) due head' := by
  have hindex : (base.timerJiffies &&& tvrMask).toNat = now % 2 ^ 8 := by
    rw [toNat_and_tvrMask, hq.ticks]
    omega
  have hcascaded : ∃ head', Queued (if now % 2 ^ 8 = 0 then base.cascadeVectors else base)
      t now due head' ∧ Settled now due head' := by
    split
    next hzero => exact hq.cascadeVectors (Nat.dvd_of_mod_eq_zero hzero)
    next hne =>
      refine ⟨head, hq, settledUpTo_zero.settled hq.placed fun tv hlt hdvd => hne ?_⟩
      have hle : 8 ≤ tv.shift := by
        cases tv <;> simp_all [Vec.shift]
      exact Nat.mod_eq_zero_of_dvd ((Nat.pow_dvd_pow 2 hle).trans hdvd)
  obtain ⟨head', hq', hsettled⟩ := hcascaded
  have hslot : head' ≠ .workList := by
    rintro rfl
    exact hq'.placed
  have htracked := hq'.tracked.expire (by simpa using hslot) (now % 2 ^ 8)
  have hplaced := placed_succ hq'.placed hsettled
  unfold TvecBase.iterate
  simp only [hindex]
  split
  next hdue =>
    rw [if_pos hdue] at hplaced
    simpa [hplaced] using htracked
  next hdue =>
    rw [if_neg hdue] at hplaced
    rw [Option.map_some, if_neg hplaced.1] at htracked
    refine ⟨head', htracked, hplaced.2, ?_, hq'.expires⟩
    simp only [TvecBase.expire, UInt32.toNat_add, hq'.ticks, UInt32.toNat_one]
    omega

end R0Kernel.Timer
