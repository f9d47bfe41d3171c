import Mathlib

/-!
# Deterministic step machines

A machine is a function `step : σ → σ ⊕ ε` that moves to the next state or exits with a result.
`after` follows the states of a run, `run` is the result of a run that is given a number of
steps. A rank that every step lowers bounds the steps of a run, and a relation that two machines
keep in lockstep makes their results equal.
-/

namespace R0Kernel.Machine

open Option

variable {σ τ ε : Type*}

/-- The state after `n` steps, `none` once the machine has exited. -/
def after (step : σ → σ ⊕ ε) : Nat → σ → Option σ
  | 0, s => some s
  | n + 1, s => (after step n s).bind fun t => (step t).getLeft?

/-- The result of a run of at most `fuel` steps, `none` if it has not exited by then. -/
def run (step : σ → σ ⊕ ε) : Nat → σ → Option ε
  | 0, _ => none
  | fuel + 1, s =>
    match step s with
    | .inl t => run step fuel t
    | .inr e => some e

section OneMachine

variable {step : σ → σ ⊕ ε} {s t t' : σ} {n : Nat}

lemma after_succ_of_inl (h : after step n s = some t) (hstep : step t = .inl t') :
    after step (n + 1) s = some t' := by
  rw [after, h, bind_some, hstep]
  rfl

lemma after_add_of_none (h : after step n s = none) (m : Nat) : after step (n + m) s = none := by
  induction m with
  | zero => exact h
  | succ m ih =>
    rw [← add_assoc, after, ih]
    rfl

/-- A run that is still going after one more step was going before it. -/
lemma exists_of_after_succ (h : after step (n + 1) s = some t') :
    ∃ t, after step n s = some t ∧ step t = .inl t' := by
  obtain ⟨t, ht, hleft⟩ := bind_eq_some_iff.mp h
  exact ⟨t, ht, Sum.getLeft?_eq_some_iff.mp hleft⟩

/-- What holds at the start and is kept by every step holds of every state of the run. -/
lemma after_invariant {I : σ → Prop} (hkeep : ∀ t t', I t → step t = .inl t' → I t')
    (hs : I s) (h : after step n s = some t) : I t := by
  induction n generalizing t with
  | zero =>
    cases h
    exact hs
  | succ n ih =>
    obtain ⟨u, hu, hstep⟩ := exists_of_after_succ h
    exact hkeep u t (ih hu) hstep

/-- A run whose steps lower the rank of an invariant exits, within as many steps as the rank
allows, from a state where the invariant holds. -/
lemma exists_run_of_ranked {I : Nat → σ → Prop}
    (hkeep : ∀ r t t', I r t → step t = .inl t' → ∃ r' < r, I r' t') {r : Nat} (hs : I r s)
    (hr : r < n) :
    ∃ e m u r', run step n s = some e ∧ after step m s = some u ∧ step u = .inr e ∧ I r' u := by
  suffices hfrom : ∀ n m u r, after step m s = some u → I r u → r < n →
      ∃ e m' u' r', run step n u = some e ∧ after step m' s = some u' ∧ step u' = .inr e ∧
        I r' u' from
    hfrom n 0 s r rfl hs hr
  intro n
  induction n with
  | zero =>
    intro m u r _ _ hlt
    exact absurd hlt (Nat.not_lt_zero _)
  | succ n ih =>
    intro m u r hu hI hlt
    cases hstep : step u with
    | inl u' =>
      obtain ⟨r', hlower, hI'⟩ := hkeep r u u' hI hstep
      obtain ⟨e, m', v, q, hrun, hv⟩ :=
        ih (m + 1) u' r' (after_succ_of_inl hu hstep) hI' (by omega)
      refine ⟨e, m', v, q, ?_, hv⟩
      rw [run, hstep]
      exact hrun
    | inr e =>
      refine ⟨e, m, u, r, ?_, hu, hstep, hI⟩
      rw [run, hstep]

/-- The same with the rank as a function of the state. -/
lemma exists_run_of_rank {I : σ → Prop} (rank : σ → Nat)
    (hkeep : ∀ t t', I t → step t = .inl t' → I t' ∧ rank t' < rank t)
    (hs : I s) (hrank : rank s < n) :
    ∃ e m u, run step n s = some e ∧ after step m s = some u ∧ step u = .inr e := by
  obtain ⟨e, m, u, -, hrun, hu, hexit, -⟩ :=
    exists_run_of_ranked (I := fun r t => I t ∧ rank t = r) (r := rank s) (n := n)
      (fun r t t' ht hstep => by
        obtain ⟨ht', hlower⟩ := hkeep t t' ht.1 hstep
        exact ⟨rank t', ht.2 ▸ hlower, ht', rfl⟩)
      ⟨hs, rfl⟩ hrank
  exact ⟨e, m, u, hrun, hu, hexit⟩

end OneMachine

section TwoMachines

variable {step : σ → σ ⊕ ε} {step' : τ → τ ⊕ ε} {R : Nat → σ → τ → Prop} {s : σ} {t : τ}

variable (hstep : ∀ n a b, R n a b → Sum.LiftRel (R (n + 1)) Eq (step a) (step' b))

include hstep

/-- Two machines that keep a relation in lockstep stay related, and exit together. -/
lemma after_lockstep (hst : R 0 s t) (n : Nat) :
    Rel (R n) (after step n s) (after step' n t) := by
  induction n with
  | zero => exact .some hst
  | succ n ih =>
    rw [after, after]
    generalize after step n s = x at ih
    generalize after step' n t = y at ih
    cases ih with
    | none => exact .none
    | @some a b hab =>
      have hnext := hstep n a b hab
      rw [bind_some, bind_some]
      generalize step a = x at hnext
      generalize step' b = y at hnext
      cases hnext with
      | inl hab' => exact .some hab'
      | inr _ => exact .none

/-- Two machines that keep a relation in lockstep have the same result. -/
lemma run_lockstep {m : Nat} (hst : R m s t) (fuel : Nat) :
    run step fuel s = run step' fuel t := by
  induction fuel generalizing m s t with
  | zero => rfl
  | succ fuel ih =>
    have hnext := hstep m s t hst
    rw [run, run]
    generalize step s = x at hnext
    generalize step' t = y at hnext
    cases hnext with
    | inl hab => exact ih hab
    | inr heq => exact congrArg some heq

end TwoMachines

end R0Kernel.Machine
