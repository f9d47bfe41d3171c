import Mathlib

/-!
# Atomic semaphore operations

The model of `try_atomic_semop`: operations are applied in place until one of them fails, and are
then taken back in reverse order. `Runs` says what an array of operations means, without any
rollback: each operation in turn, every semaphore value inside its range after each.
-/

namespace R0Kernel.Ipc.Semaphore

open Function

variable {n : Nat}

/-! ### The code -/

def semvmx : Int := 32767

def semaem : Int := semvmx

/-- `-EAGAIN` -/
def eagain : Int := -11

/-- `-ERANGE` -/
def erange : Int := -34

/-- `struct sembuf`. `sys_semtimedop` has checked `sem_num` against `sem_nsems`. -/
structure Sembuf (n : Nat) where
  semNum : Fin n
  semOp : Int16
  semFlg : UInt16
deriving DecidableEq

def Sembuf.undo (sop : Sembuf n) : Bool :=
  sop.semFlg &&& 0x1000 != 0

def Sembuf.nowait (sop : Sembuf n) : Bool :=
  sop.semFlg &&& 0x800 != 0

@[ext]
structure Sem where
  semval : Int
  sempid : Int

/-- The part of `struct sem_array` that semaphore operations change. -/
structure SemArray (n : Nat) where
  semBase : Fin n → Sem
  semOtime : Int

abbrev Semadj (n : Nat) := Fin n → Int16

/-- Why the first loop was left: the labels `would_block` and `out_of_range`. -/
inductive Stop where
  | wouldBlock
  | outOfRange
deriving DecidableEq

def addVal (base : Fin n → Sem) (i : Fin n) (d : Int) : Fin n → Sem :=
  update base i { base i with semval := (base i).semval + d }

def undoValue (semadj : Semadj n) (sop : Sembuf n) : Int :=
  (semadj sop.semNum).toInt - sop.semOp.toInt

/-- One pass of the first loop. -/
def applyOp (semadj : Semadj n) (base : Fin n → Sem) (sop : Sembuf n) :
    Except Stop (Fin n → Sem) :=
  if sop.semOp.toInt = 0 ∧ (base sop.semNum).semval ≠ 0 then .error .wouldBlock
  else if (base sop.semNum).semval + sop.semOp.toInt < 0 then .error .wouldBlock
  else if semvmx < (base sop.semNum).semval + sop.semOp.toInt then .error .outOfRange
  else if sop.undo = true ∧
      (undoValue semadj sop < -semaem - 1 ∨ semaem < undoValue semadj sop) then
    .error .outOfRange
  else .ok (addVal base sop.semNum sop.semOp.toInt)

/-- The first loop. `past` are the operations behind `sop`, the last one first; the loop stops at
the end of the array or at an operation that fails. -/
def applyLoop (semadj : Semadj n) :
    (Fin n → Sem) → List (Sembuf n) → List (Sembuf n) →
      (Fin n → Sem) × List (Sembuf n) × Option (Stop × Sembuf n)
  | base, past, [] => (base, past, none)
  | base, past, sop :: rest =>
    match applyOp semadj base sop with
    | .ok base' => applyLoop semadj base' (sop :: past) rest
    | .error stop => (base, past, some (stop, sop))

def undoLoop (base : Fin n → Sem) : List (Sembuf n) → Fin n → Sem
  | [] => base
  | sop :: past => undoLoop (addVal base sop.semNum (-sop.semOp.toInt)) past

def commitLoop (pid : Int) (base : Fin n → Sem) (semadj : Semadj n) :
    List (Sembuf n) → (Fin n → Sem) × Semadj n
  | [] => (base, semadj)
  | sop :: past =>
    commitLoop pid
      (update base sop.semNum { base sop.semNum with sempid := pid })
      (if sop.undo then update semadj sop.semNum (semadj sop.semNum - sop.semOp)
        else semadj)
      past

/-- The value returned for a failed operation. -/
def Stop.result (sop : Sembuf n) : Stop → Int
  | wouldBlock => if sop.nowait then eagain else 1
  | outOfRange => erange

/-- `try_atomic_semop`. `now` is what `get_seconds` gives. -/
def tryAtomicSemop (sma : SemArray n) (sops : List (Sembuf n)) (semadj : Semadj n)
    (pid now : Int) : Int × SemArray n × Semadj n :=
  match applyLoop semadj sma.semBase [] sops with
  | (base, past, none) =>
    let done := commitLoop pid base semadj past
    (0, ⟨done.1, now⟩, done.2)
  | (base, past, some (stop, sop)) =>
    (stop.result sop, { sma with semBase := undoLoop base past }, semadj)

/-! ### What an array of operations means -/

def vals (base : Fin n → Sem) : Fin n → Int := fun i => (base i).semval

/-- All values are semaphore values. -/
def InRange (v : Fin n → Int) : Prop := ∀ i, 0 ≤ v i ∧ v i ≤ semvmx

def applied (v : Fin n → Int) (sop : Sembuf n) : Fin n → Int :=
  update v sop.semNum (v sop.semNum + sop.semOp.toInt)

/-- The operation can be applied: a wait for zero sees zero, the values stay in range, and so does
the adjustment on exit. -/
def CanApply (semadj : Semadj n) (v : Fin n → Int) (sop : Sembuf n) : Prop :=
  (sop.semOp.toInt = 0 → v sop.semNum = 0) ∧ InRange (applied v sop) ∧
    (sop.undo = true → -semaem - 1 ≤ undoValue semadj sop ∧ undoValue semadj sop ≤ semaem)

/-- The operation would have to wait for another one to raise or to lower the value. -/
def MustSleep (v : Fin n → Int) (sop : Sembuf n) : Prop :=
  (sop.semOp.toInt = 0 ∧ v sop.semNum ≠ 0) ∨ v sop.semNum + sop.semOp.toInt < 0

/-- The operations can be applied one after the other, and lead from `v` to `v'`. -/
inductive Runs (semadj : Semadj n) : (Fin n → Int) → List (Sembuf n) → (Fin n → Int) → Prop where
  | nil {v : Fin n → Int} : Runs semadj v [] v
  | cons {v v' : Fin n → Int} {sop : Sembuf n} {rest : List (Sembuf n)} :
      CanApply semadj v sop → Runs semadj (applied v sop) rest v' →
      Runs semadj v (sop :: rest) v'

/-- `sop` is the first operation that cannot be applied, and `v'` are the values it meets. -/
def FirstFailing (semadj : Semadj n) (v : Fin n → Int) (sops : List (Sembuf n))
    (v' : Fin n → Int) (sop : Sembuf n) : Prop :=
  ∃ before behind, sops = before ++ sop :: behind ∧ Runs semadj v before v' ∧
    ¬ CanApply semadj v' sop

variable {semadj : Semadj n} {base base' : Fin n → Sem} {sop : Sembuf n}
  {past past' sops : List (Sembuf n)} {v v' v'' : Fin n → Int} {stop : Option (Stop × Sembuf n)}

lemma InRange.applied_iff (h : InRange v) : InRange (applied v sop) ↔
    0 ≤ v sop.semNum + sop.semOp.toInt ∧ v sop.semNum + sop.semOp.toInt ≤ semvmx := by
  constructor
  · intro happ
    have hnum := happ sop.semNum
    rwa [applied, update_self] at hnum
  · intro hnum i
    by_cases hi : i = sop.semNum
    · subst hi
      rwa [applied, update_self]
    · rw [applied, update_of_ne hi]
      exact h i

lemma vals_addVal (base : Fin n → Sem) (i : Fin n) (d : Int) :
    vals (addVal base i d) = update (vals base) i (vals base i + d) := by
  ext j
  by_cases hj : j = i
  · subst hj
    simp only [vals, addVal, update_self]
  · simp only [vals, addVal, update_of_ne hj]

lemma addVal_cancel (base : Fin n → Sem) (i : Fin n) (d : Int) :
    addVal (addVal base i d) i (-d) = base := by
  ext j
  · by_cases hj : j = i
    · subst hj
      simp only [addVal, update_self]
      omega
    · simp only [addVal, update_of_ne hj]
  · by_cases hj : j = i
    · subst hj
      simp only [addVal, update_self]
    · simp only [addVal, update_of_ne hj]

/-! ### One pass of the first loop -/

lemma applyOp_ok (h : applyOp semadj base sop = .ok base') :
    base' = addVal base sop.semNum sop.semOp.toInt := by
  unfold applyOp at h
  split_ifs at h
  cases h
  rfl

lemma canApply_of_ok (hrange : InRange (vals base)) (h : applyOp semadj base sop = .ok base') :
    CanApply semadj (vals base) sop := by
  unfold applyOp at h
  split_ifs at h with hzero hneg hbig hundo
  push Not at hzero hundo
  refine ⟨hzero, ?_, ?_⟩
  · rw [hrange.applied_iff]
    exact ⟨Int.not_lt.mp hneg, Int.not_lt.mp hbig⟩
  · exact hundo

lemma not_canApply_of_error {stop : Stop} (hrange : InRange (vals base))
    (h : applyOp semadj base sop = .error stop) : ¬ CanApply semadj (vals base) sop := by
  rintro ⟨hzero, happ, hundo⟩
  rw [hrange.applied_iff] at happ
  unfold applyOp at h
  split_ifs at h with hblock hneg hbig hout
  · exact hblock.2 (hzero hblock.1)
  · exact Int.not_lt.mpr happ.1 hneg
  · exact Int.not_lt.mpr happ.2 hbig
  · have hin := hundo hout.1
    omega

/-- The loop is left at `would_block` if and only if the operation must sleep. -/
lemma wouldBlock_iff {stop : Stop} (h : applyOp semadj base sop = .error stop) :
    stop = .wouldBlock ↔ MustSleep (vals base) sop := by
  unfold applyOp at h
  split_ifs at h with hzero hneg hbig hundo
  · cases h
    exact ⟨fun _ => .inl hzero, fun _ => rfl⟩
  · cases h
    exact ⟨fun _ => .inr hneg, fun _ => rfl⟩
  all_goals
    cases h
    refine ⟨nofun, ?_⟩
    rintro (hsleep | hsleep)
    · exact absurd hsleep hzero
    · exact absurd hsleep hneg

/-! ### The loops -/

/-- Taking back what the first loop has done, one operation at a time. -/
lemma undoLoop_applyLoop (h : applyLoop semadj base past sops = (base', past', stop)) :
    undoLoop base' past' = undoLoop base past := by
  induction sops generalizing base past with
  | nil =>
    cases h
    rfl
  | cons sop rest ih =>
    rw [applyLoop] at h
    split at h
    next next hok =>
      rw [ih h, undoLoop, applyOp_ok hok, addVal_cancel]
    next hstop =>
      cases h
      rfl

/-- The first loop: it either applies all operations, or stops at the first that fails. -/
lemma applyLoop_spec (hrange : InRange (vals base))
    (h : applyLoop semadj base past sops = (base', past', stop)) :
    match stop with
    | none => Runs semadj (vals base) sops (vals base')
    | some (stop, sop) => FirstFailing semadj (vals base) sops (vals base') sop ∧
        applyOp semadj base' sop = .error stop := by
  induction sops generalizing base past with
  | nil =>
    cases h
    exact .nil
  | cons sop rest ih =>
    rw [applyLoop] at h
    split at h
    next next hok =>
      have hcan := canApply_of_ok hrange hok
      have hvals : vals next = applied (vals base) sop := by
        rw [applyOp_ok hok, vals_addVal, applied]
      have hrest := ih (hvals ▸ hcan.2.1) h
      rw [hvals] at hrest
      cases stop with
      | none => exact .cons hcan hrest
      | some failed =>
        obtain ⟨⟨before, behind, hsplit, hruns, hnot⟩, herror⟩ := hrest
        refine ⟨⟨sop :: before, behind, ?_, .cons hcan hruns, hnot⟩, herror⟩
        rw [hsplit, List.cons_append]
    next stop herror =>
      cases h
      exact ⟨⟨[], rest, rfl, .nil, not_canApply_of_error hrange herror⟩, herror⟩

lemma vals_commitLoop (pid : Int) (base : Fin n → Sem) (semadj : Semadj n)
    (past : List (Sembuf n)) : vals (commitLoop pid base semadj past).1 = vals base := by
  induction past generalizing base semadj with
  | nil => rfl
  | cons sop past ih =>
    rw [commitLoop, ih]
    ext i
    by_cases hi : i = sop.semNum
    · subst hi
      simp only [vals, update_self]
    · simp only [vals, update_of_ne hi]

/-! ### Which operation fails is determined -/

lemma FirstFailing.not_runs (h : FirstFailing semadj v sops v' sop) :
    ¬ Runs semadj v sops v'' := by
  obtain ⟨before, behind, rfl, hruns, hnot⟩ := h
  intro hall
  induction hruns with
  | nil =>
    cases hall with
    | cons hcan _ => exact hnot hcan
  | cons _ _ ih =>
    cases hall with
    | cons _ hrest => exact ih hnot hrest

lemma FirstFailing.unique {sop' : Sembuf n} (h : FirstFailing semadj v sops v' sop)
    (h' : FirstFailing semadj v sops v'' sop') : v' = v'' ∧ sop = sop' := by
  obtain ⟨before, behind, rfl, hruns, hnot⟩ := h
  obtain ⟨before', behind', hsplit, hruns', hnot'⟩ := h'
  induction hruns generalizing before' with
  | nil =>
    cases hruns' with
    | nil =>
      cases hsplit
      exact ⟨rfl, rfl⟩
    | cons hcan _ =>
      cases hsplit
      exact absurd hcan hnot
  | cons hcan _ ih =>
    cases hruns' with
    | nil =>
      cases hsplit
      exact absurd hcan hnot'
    | cons _ hrest =>
      obtain ⟨rfl, htail⟩ := List.cons_eq_cons.mp hsplit
      exact ih hnot _ htail hrest

/-! ### `try_atomic_semop` -/

/-- What a call returns and leaves behind, by how the first loop was left. -/
lemma tryAtomicSemop_cases {sma sma' : SemArray n} {semadj' : Semadj n} {pid now r : Int}
    (hrange : InRange (vals sma.semBase))
    (h : tryAtomicSemop sma sops semadj pid now = (r, sma', semadj')) :
    (r = 0 ∧ Runs semadj (vals sma.semBase) sops (vals sma'.semBase)) ∨
    (sma' = sma ∧ semadj' = semadj ∧ ∃ base stop sop,
      FirstFailing semadj (vals sma.semBase) sops (vals base) sop ∧
      applyOp semadj base sop = .error stop ∧ r = stop.result sop) := by
  unfold tryAtomicSemop at h
  split at h
  next base past hloop =>
    left
    cases h
    refine ⟨rfl, ?_⟩
    rw [vals_commitLoop]
    exact applyLoop_spec hrange hloop
  next base past stop sop hloop =>
    right
    have hback := undoLoop_applyLoop hloop
    obtain ⟨hfirst, herror⟩ := applyLoop_spec hrange hloop
    rw [hback] at h
    cases h
    exact ⟨rfl, rfl, base, stop, sop, hfirst, herror, rfl⟩

lemma Stop.result_eq_one {stop : Stop} :
    stop.result sop = 1 ↔ stop = .wouldBlock ∧ sop.nowait = false := by
  cases stop with
  | wouldBlock =>
    rw [Stop.result]
    cases sop.nowait with
    | true => exact ⟨nofun, nofun⟩
    | false => exact ⟨fun _ => ⟨rfl, rfl⟩, fun _ => rfl⟩
  | outOfRange => exact ⟨nofun, nofun⟩

lemma Stop.result_cases (stop : Stop) (sop : Sembuf n) :
    stop.result sop = 1 ∨ stop.result sop < 0 := by
  cases stop with
  | wouldBlock =>
    rw [Stop.result]
    cases sop.nowait with
    | true => exact .inr (by decide)
    | false => exact .inl rfl
  | outOfRange =>
    rw [Stop.result]
    decide

/-- `semop` is atomic. A success leaves the values that the operations lead to one after the
other, and any other result leaves everything as it was; the result is 1 exactly if the first
operation that cannot be applied must sleep and may. -/
theorem try_atomic_semop_atomic (sma sma' : SemArray n) (sops : List (Sembuf n))
    (semadj semadj' : Semadj n) (pid now r : Int) (hrange : InRange (vals sma.semBase))
    (h : tryAtomicSemop sma sops semadj pid now = (r, sma', semadj')) :
    (r = 0 ∨ r = 1 ∨ r < 0) ∧
    (r = 0 → Runs semadj (vals sma.semBase) sops (vals sma'.semBase)) ∧
    (r ≠ 0 → sma' = sma ∧ semadj' = semadj) ∧
    (r = 1 ↔ ∃ v sop, FirstFailing semadj (vals sma.semBase) sops v sop ∧ MustSleep v sop ∧
      sop.nowait = false) := by
  rcases tryAtomicSemop_cases hrange h with
    ⟨rfl, hruns⟩ | ⟨hsma, hadj, base, stop, sop, hfirst, herror, rfl⟩
  · refine ⟨.inl rfl, fun _ => hruns, fun hne => absurd rfl hne, ?_⟩
    constructor
    · nofun
    · rintro ⟨v, sop, hfirst, -⟩
      exact absurd hruns hfirst.not_runs
  · have hsign := stop.result_cases sop
    refine ⟨.inr hsign, ?_, fun _ => ⟨hsma, hadj⟩, ?_⟩
    · omega
    · rw [Stop.result_eq_one, wouldBlock_iff herror]
      constructor
      · rintro ⟨hsleep, hwait⟩
        exact ⟨vals base, sop, hfirst, hsleep, hwait⟩
      · rintro ⟨v, sop', hfirst', hsleep, hwait⟩
        obtain ⟨rfl, rfl⟩ := hfirst.unique hfirst'
        exact ⟨hsleep, hwait⟩

def twoSems : SemArray 2 :=
  ⟨fun _ => ⟨0, 0⟩, 0⟩

/-- `+2` on the first semaphore with undo, then `-1` on it, then a wait for it to be zero. -/
def upDownWait : List (Sembuf 2) :=
  [(2, 0x1000), (-1, 0), (0, 0)].map fun (op, flg) => ⟨⟨0, Nat.two_pos⟩, op, flg⟩

theorem try_atomic_semop_atomic_rollback :
    InRange (vals twoSems.semBase) ∧
    (tryAtomicSemop twoSems upDownWait (fun _ => 0) 7 100).1 = 1 ∧
    ∃ v sop, FirstFailing (fun _ => 0) (vals twoSems.semBase) upDownWait v sop ∧
      MustSleep v sop ∧ sop.nowait = false :=
  have hrange : InRange (vals twoSems.semBase) :=
    fun _ => ⟨Int.le_refl 0, by decide +kernel +revert⟩
  ⟨hrange, by decide +kernel, (try_atomic_semop_atomic twoSems _ upDownWait (fun _ => 0) _ 7 100 _
    hrange rfl).2.2.2.mp (by decide +kernel)⟩

end R0Kernel.Ipc.Semaphore
