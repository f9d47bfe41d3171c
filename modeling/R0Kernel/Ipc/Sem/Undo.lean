import R0Kernel.Ipc.Sem.Queue

/-!
# Adjustments on exit

`try_atomic_semop` tests each operation with `SEM_UNDO` against the adjustment as it was before the
call, and subtracts the operations afterwards in sixteen bits. The adjustment is exact only if the
sum of the operations on each semaphore fits; nothing in the call finds out that it does not.
-/

namespace R0Kernel.Ipc.Semaphore

variable {n : Nat} {semadj semadj' : Semadj n} {base base' : Fin n → Sem} {i : Fin n}
  {past past' sops : List (Sembuf n)}

/-- The sum of the operations on semaphore `i` that are to be undone. -/
def undoSum (sops : List (Sembuf n)) (i : Fin n) : Int :=
  (sops.map fun sop => if sop.undo ∧ sop.semNum = i then sop.semOp.toInt else 0).sum

/-- A number that an adjustment may have. -/
def InAdjRange (x : Int) : Prop := -semaem - 1 ≤ x ∧ x ≤ semaem

instance (x : Int) : Decidable (InAdjRange x) := inferInstanceAs (Decidable (_ ∧ _))

/-- The sums leave every adjustment in its range. -/
def Fits (semadj : Semadj n) (sops : List (Sembuf n)) : Prop :=
  ∀ i, InAdjRange ((semadj i).toInt - undoSum sops i)

/-- The operation takes the semaphore, or by itself the adjustment, out of its range. -/
def TooFar (semadj : Semadj n) (v : Fin n → Int) (sop : Sembuf n) : Prop :=
  semvmx < v sop.semNum + sop.semOp.toInt ∨
    (sop.undo = true ∧ ¬InAdjRange (undoValue semadj sop))

/-- Without one that would have to wait, the operations come to one that goes too far. -/
def Overruns (semadj : Semadj n) : (Fin n → Int) → List (Sembuf n) → Prop
  | _, [] => False
  | v, sop :: rest =>
    ¬MustSleep v sop ∧ (TooFar semadj v sop ∨ Overruns semadj (applied v sop) rest)

/-- What a call has to do about the adjustments: one that succeeds has subtracted the sums, and one
whose sums do not fit fails with `-ERANGE`. -/
def AdjExact (sma : SemArray n) (sops : List (Sembuf n)) (semadj : Semadj n) (pid now : Int) :
    Prop :=
  ((tryAtomicSemop sma sops semadj pid now).1 = 0 →
    ∀ i, ((tryAtomicSemop sma sops semadj pid now).2.2 i).toInt =
        (semadj i).toInt - undoSum sops i ∧
      InAdjRange ((tryAtomicSemop sma sops semadj pid now).2.2 i).toInt) ∧
  (¬Fits semadj sops → (tryAtomicSemop sma sops semadj pid now).1 = erange)

/-! ### The sums -/

lemma undoSum_cons (sop : Sembuf n) (sops : List (Sembuf n)) (i : Fin n) :
    undoSum (sop :: sops) i =
      (if sop.undo ∧ sop.semNum = i then sop.semOp.toInt else 0) + undoSum sops i := by
  simp [undoSum]

lemma undoSum_reverse (sops : List (Sembuf n)) (i : Fin n) :
    undoSum sops.reverse i = undoSum sops i := by
  simp only [undoSum, List.map_reverse, List.sum_reverse]

/-- The backward loop subtracts the sum in sixteen bits. -/
lemma commitLoop_semadj (pid : Int) (base : Fin n → Sem) (semadj : Semadj n)
    (past : List (Sembuf n)) (i : Fin n) :
    ((commitLoop pid base semadj past).2 i).toInt =
      ((semadj i).toInt - undoSum past i).bmod 65536 := by
  induction past generalizing base semadj with
  | nil => simp [commitLoop, undoSum]
  | cons sop past ih =>
    rw [commitLoop, ih, undoSum_cons]
    by_cases hundo : sop.undo = true
    · by_cases hi : sop.semNum = i
      · subst hi
        simp only [hundo, if_true, Function.update_self, true_and]
        rw [Int16.toInt_sub, Int.bmod_sub_bmod, Int.sub_sub]
      · simp [hundo, hi, Function.update_of_ne (Ne.symm hi)]
    · simp [hundo]

lemma bmod_eq_of_inAdjRange {x : Int} (h : InAdjRange x) : x.bmod 65536 = x := by
  simp only [InAdjRange, semaem, semvmx] at h
  exact Int.bmod_eq_of_le (by omega) (by omega)

/-! ### How the first loop is left -/

lemma applyLoop_past_eq (h : applyLoop semadj base past sops = (base', past', none)) :
    past' = sops.reverse ++ past := by
  induction sops generalizing base past with
  | nil =>
    cases h
    rfl
  | cons sop rest ih =>
    rw [applyLoop] at h
    split at h
    · rw [ih h, List.reverse_cons, List.append_assoc]
      rfl
    · cases h

/-- One pass is left at `out_of_range` exactly if the operation need not wait and goes too far. -/
lemma applyOp_outOfRange_iff {sop : Sembuf n} :
    applyOp semadj base sop = .error .outOfRange ↔
      ¬MustSleep (vals base) sop ∧ TooFar semadj (vals base) sop := by
  simp only [applyOp, MustSleep, TooFar, InAdjRange, vals]
  split_ifs with hzero hneg hbig hundo
  · simp [hzero]
  · simp [hneg]
  · simp only [true_iff]
    exact ⟨not_or.mpr ⟨hzero, hneg⟩, .inl hbig⟩
  · simp only [true_iff]
    refine ⟨not_or.mpr ⟨hzero, hneg⟩, .inr ⟨hundo.1, ?_⟩⟩
    omega
  · simp only [false_iff, not_and, not_or]
    intro _
    exact ⟨hbig, fun hu hnot => hundo ⟨hu, by omega⟩⟩

lemma applyOp_of_mustSleep {sop : Sembuf n} (h : MustSleep (vals base) sop) :
    applyOp semadj base sop = .error .wouldBlock := by
  simp only [applyOp]
  rcases h with hzero | hneg
  · exact if_pos hzero
  · rw [vals] at hneg
    rw [if_pos hneg, ite_self]

lemma applyLoop_outOfRange_iff :
    (∃ sop, (applyLoop semadj base past sops).2.2 = some (.outOfRange, sop)) ↔
      Overruns semadj (vals base) sops := by
  induction sops generalizing base past with
  | nil => simp [applyLoop, Overruns]
  | cons sop rest ih =>
    rw [applyLoop, Overruns]
    cases hop : applyOp semadj base sop with
    | error stop =>
      cases stop with
      | wouldBlock =>
        have hsleep := (wouldBlock_iff hop).mp rfl
        simp [hsleep]
      | outOfRange =>
        obtain ⟨hwake, hfar⟩ := applyOp_outOfRange_iff.mp hop
        simp [hwake, hfar]
    | ok next =>
      have hvals : vals next = applied (vals base) sop := by
        rw [applyOp_ok hop, vals_addVal, applied]
      have hwake : ¬MustSleep (vals base) sop := by
        intro hsleep
        rw [applyOp_of_mustSleep hsleep] at hop
        cases hop
      have hnear : ¬TooFar semadj (vals base) sop := by
        intro hfar
        have herror := applyOp_outOfRange_iff.mpr ⟨hwake, hfar⟩
        rw [hop] at herror
        cases herror
      rw [ih, hvals]
      simp [hwake, hnear]

lemma resultOf_eq_erange_iff {stop : Option (Stop × Sembuf n)} :
    resultOf stop = erange ↔ ∃ sop, stop = some (.outOfRange, sop) := by
  rcases stop with _ | ⟨_ | _, sop⟩
  · simp [resultOf, erange]
  · simp only [resultOf, Stop.result]
    split_ifs
    · simp [eagain, erange]
    · simp [erange]
  · simp [resultOf, Stop.result]

lemma tryAtomicSemop_semadj {sma : SemArray n} {pid now : Int}
    (h : (tryAtomicSemop sma sops semadj pid now).1 = 0) (i : Fin n) :
    ((tryAtomicSemop sma sops semadj pid now).2.2 i).toInt =
      ((semadj i).toInt - undoSum sops i).bmod 65536 := by
  unfold tryAtomicSemop at h ⊢
  split at h
  next base past hloop =>
    rw [commitLoop_semadj, applyLoop_past_eq hloop, List.append_nil, undoSum_reverse]
  next base past stop sop hloop =>
    have hsign := stop.result_cases sop
    omega

/-- The call fails with `-ERANGE` exactly if an operation that it comes to goes too far. -/
lemma tryAtomicSemop_erange_iff (sma : SemArray n) (sops : List (Sembuf n)) (semadj : Semadj n)
    (pid now : Int) :
    (tryAtomicSemop sma sops semadj pid now).1 = erange ↔
      Overruns semadj (vals sma.semBase) sops := by
  rw [tryAtomicSemop_fst, resultOf_eq_erange_iff, applyLoop_outOfRange_iff]

/-- The adjustments are exact if and only if the sums fit, or an operation that goes too far by
itself stops the call. -/
theorem semadj_exact_iff (sma : SemArray n) (sops : List (Sembuf n)) (semadj : Semadj n)
    (pid now : Int) :
    AdjExact sma sops semadj pid now ↔
      Fits semadj sops ∨ Overruns semadj (vals sma.semBase) sops := by
  rw [← tryAtomicSemop_erange_iff sma sops semadj pid now]
  constructor
  · rintro ⟨-, hfail⟩
    by_cases hfits : Fits semadj sops
    · exact .inl hfits
    · exact .inr (hfail hfits)
  · rintro (hfits | hfail)
    · refine ⟨fun hzero i => ?_, fun hnot => absurd hfits hnot⟩
      rw [tryAtomicSemop_semadj hzero, bmod_eq_of_inAdjRange (hfits i)]
      exact ⟨rfl, hfits i⟩
    · refine ⟨fun hzero => ?_, fun _ => hfail⟩
      rw [hfail] at hzero
      cases hzero

/-- Up by 20000 with undo, down again, and up again with undo. -/
def twiceUp : List (Sembuf 2) :=
  [(20000, 0x1000), (-20000, 0), (20000, 0x1000)].map
    fun (op, flg) => ⟨⟨0, Nat.two_pos⟩, op, flg⟩

/-- The adjustment is to be -40000, and 25536 is stored. -/
theorem semadj_wraps :
    (tryAtomicSemop twoSems twiceUp (fun _ => 0) 7 100).1 = 0 ∧
    undoSum twiceUp 0 = 40000 ∧
    ((tryAtomicSemop twoSems twiceUp (fun _ => 0) 7 100).2.2 0).toInt = 25536 ∧
    ¬AdjExact twoSems twiceUp (fun _ => 0) 7 100 := by
  have hzero : (tryAtomicSemop twoSems twiceUp (fun _ => 0) 7 100).1 = 0 := by decide +kernel
  have hsum : undoSum twiceUp 0 = 40000 := by decide +kernel
  have hstored : ((tryAtomicSemop twoSems twiceUp (fun _ => 0) 7 100).2.2 0).toInt = 25536 := by
    decide +kernel
  refine ⟨hzero, hsum, hstored, fun hexact => ?_⟩
  have hval := (hexact.1 hzero 0).1
  rw [hstored, hsum] at hval
  cases hval

end R0Kernel.Ipc.Semaphore
