import Mathlib.Logic.Basic

/-!
# Computations that may stop

What holds of the result of a computation in `Except`, if it has one, with a rule for each way to
build such a computation.
-/

namespace R0Kernel.Outcome

variable {ε α β : Type} {x : Except ε α} {f : α → Except ε β} {a : α} {b : β}

lemma bind_eq_ok (h : x >>= f = .ok b) : ∃ a, x = .ok a ∧ f a = .ok b := by
  cases x with
  | error e => cases h
  | ok a => exact ⟨a, rfl, h⟩

lemma map_eq_ok {f : α → β} (h : x.map f = .ok b) : ∃ a, x = .ok a ∧ f a = b := by
  cases x with
  | error e => cases h
  | ok a => exact ⟨a, rfl, Except.ok.inj h⟩

lemma ite_error_eq_ok {p : Prop} [Decidable p] {e : ε} :
    (if p then .error e else x) = .ok a ↔ ¬p ∧ x = .ok a := by
  by_cases hp : p <;> simp [hp]

/-- Every result satisfies `Q`. -/
def Ensures (x : Except ε α) (Q : α → Prop) : Prop := ∀ a, x = .ok a → Q a

namespace Ensures

variable {P Q : α → Prop} {R : β → Prop}

lemma ok (h : Q a) : Ensures (.ok a : Except ε α) Q := by
  intro a' ha
  exact Except.ok.inj ha ▸ h

lemma pure (h : Q a) : Ensures (Pure.pure a : Except ε α) Q := ok h

lemma error {e : ε} : Ensures (.error e) Q := by
  intro a ha
  cases ha

lemma bind (hx : Ensures x P) (hf : ∀ a, P a → Ensures (f a) R) : Ensures (x >>= f) R := by
  intro b hb
  obtain ⟨a, ha, hb⟩ := bind_eq_ok hb
  exact hf a (hx a ha) b hb

lemma bind_any (hf : ∀ a, Ensures (f a) R) : Ensures (x >>= f) R :=
  bind (fun _ _ => trivial) fun a (_ : True) => hf a

end Ensures

end R0Kernel.Outcome
