import Mathlib.Data.List.Basic
import Mathlib.Order.Lattice.Nat

/-!
# Scanning a range of numbers

`scan P a b` is what a partial function gives on the numbers from `a` up to but not including `b`,
in ascending order. A search that moves ahead piece by piece collects the scans of the pieces.
-/

namespace R0Kernel.Scan

open List

variable {α : Type*} {P : Nat → Option α} {a b c : Nat}

def scan (P : Nat → Option α) (a b : Nat) : List α := (List.range' a (b - a)).filterMap P

@[simp]
lemma scan_self (P : Nat → Option α) (a : Nat) : scan P a a = [] := by simp [scan]

lemma scan_append (hab : a ≤ b) (hbc : b ≤ c) : scan P a c = scan P a b ++ scan P b c := by
  have hsplit : c - a = (b - a) + (c - b) := by omega
  have hstart : b = a + (b - a) := by omega
  rw [scan, hsplit, ← range'_append_1, filterMap_append, ← hstart]
  rfl

lemma scan_eq_nil (h : ∀ n, a ≤ n → n < b → P n = none) : scan P a b = [] := by
  apply filterMap_eq_nil_iff.mpr
  intro n hn
  rw [mem_range'_1] at hn
  exact h n hn.1 (by omega)

lemma scan_cons (hab : a < b) : scan P a b = (P a).toList ++ scan P (a + 1) b := by
  rw [scan_append (Nat.le_succ a) hab]
  have hone : a + 1 - a = 1 := by omega
  rw [scan, hone, range'_one, filterMap_cons]
  cases P a <;> rfl

/-- A scan that stopped with as many results as are wanted. -/
lemma take_scan (hab : a ≤ b) (hbc : b ≤ c) {n : Nat} (hn : (scan P a b).length = n) :
    (scan P a c).take n = scan P a b := by
  rw [scan_append hab hbc, ← hn, take_left]

end R0Kernel.Scan
