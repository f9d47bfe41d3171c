import Mathlib

/-! # Division of 64-bit numbers

The shift and subtract loops of `lib/div64.c`. `__div64_32` divides exactly;
`div64_64` first shifts a wide divisor down to 32 bits, and its quotient is then
too large by at most one.
-/

namespace R0Kernel.Div64

/-- The quotient and the remainder after the high word of the dividend. -/
def reduceHigh (n base : Nat) : Nat × Nat :=
  let high := n / 2 ^ 32
  if base ≤ high then (high / base * 2 ^ 32, n - high / base * base % 2 ^ 32 * 2 ^ 32) else (0, n)

/-- The first loop of `__div64_32`: the divisor is doubled up to the remainder, or until
it is negative as an `int64_t`. -/
def scaleUp (rem b d : Nat) : Nat × Nat :=
  if 0 < b ∧ b < 2 ^ 63 ∧ b < rem then scaleUp rem ((b + b) % 2 ^ 64) ((d + d) % 2 ^ 64)
  else (b, d)
termination_by 2 ^ 63 - b
decreasing_by omega

def subtractOnce (res rem b d : Nat) : Nat × Nat :=
  if b ≤ rem then ((res + d) % 2 ^ 64, rem - b) else (res, rem)

/-- The second loop of `__div64_32`. -/
def subtractDown (res rem b d : Nat) : Nat × Nat :=
  let next := subtractOnce res rem b d
  if d / 2 = 0 then next else subtractDown next.1 next.2 (b / 2) (d / 2)
termination_by d

/-- `__div64_32`: what it leaves in `*n` and what it returns. -/
def div64By32 (n base : Nat) : Nat × Nat :=
  let reduced := reduceHigh n base
  let scaled := scaleUp reduced.2 base 1
  let done := subtractDown reduced.1 reduced.2 scaled.1 scaled.2
  (done.1, done.2 % 2 ^ 32)

def doDiv (n base : Nat) : Nat × Nat :=
  if n / 2 ^ 32 = 0 then (n / base, n % base) else div64By32 n base

/-- `div64_64`; `fls` is `Nat.size`. -/
def div64By64 (dividend divisor : Nat) : Nat :=
  let high := divisor / 2 ^ 32
  if high ≠ 0 then
    (doDiv (dividend / 2 ^ high.size) (divisor / 2 ^ high.size % 2 ^ 32)).1
  else (doDiv dividend (divisor % 2 ^ 32)).1

variable {n m base : Nat}

lemma reduceHigh_sum (hn : n < 2 ^ 64) (base : Nat) :
    base * (reduceHigh n base).1 + (reduceHigh n base).2 = n := by
  simp only [reduceHigh]
  split_ifs
  · have hle : n / 2 ^ 32 / base * base ≤ n / 2 ^ 32 := Nat.div_mul_le_self ..
    rw [Nat.mod_eq_of_lt (by omega), ← mul_assoc, mul_comm base]
    omega
  · rw [mul_zero, zero_add]

lemma mul_two_pow_succ (base k : Nat) :
    base * 2 ^ (k + 1) = base * 2 ^ k + base * 2 ^ k := by
  rw [Nat.pow_succ, Nat.mul_two, mul_add]

/-- The divisor is scaled beyond half of the remainder, without an overflow. -/
lemma scaleUp_spec {rem : Nat} (hrem : rem < 2 ^ 64) (hbase : 0 < base) (k : Nat)
    (hk : base * 2 ^ k < 2 ^ 64) :
    ∃ k', scaleUp rem (base * 2 ^ k) (2 ^ k) = (base * 2 ^ k', 2 ^ k') ∧
      rem < base * 2 ^ (k' + 1) := by
  have hb := mul_two_pow_succ base k
  rw [scaleUp]
  split_ifs with hmore
  · have hd : 2 ^ k ≤ base * 2 ^ k := Nat.le_mul_of_pos_left _ hbase
    rw [Nat.mod_eq_of_lt (by omega), Nat.mod_eq_of_lt (by omega), ← hb, ← Nat.two_pow_succ]
    exact scaleUp_spec hrem hbase (k + 1) (by omega)
  · have hpos : 0 < base * 2 ^ k := by positivity
    exact ⟨k, rfl, by omega⟩
termination_by 2 ^ 64 - base * 2 ^ k
decreasing_by omega

/-- What is taken off the remainder goes to the quotient. -/
lemma subtractOnce_spec (hbase : 0 < base) {res rem k : Nat}
    (hrem : rem < base * 2 ^ (k + 1)) (hres : res + rem / base < 2 ^ 64) :
    ∃ res' rem', subtractOnce res rem (base * 2 ^ k) (2 ^ k) = (res', rem') ∧
      rem' < base * 2 ^ k ∧ res' + rem' / base = res + rem / base ∧
      rem' % base = rem % base := by
  rw [mul_two_pow_succ] at hrem
  rw [subtractOnce]
  split_ifs with hle
  · obtain ⟨r, rfl⟩ := Nat.exists_eq_add_of_le hle
    rw [Nat.mul_add_div hbase, ← add_assoc] at hres ⊢
    rw [Nat.mod_eq_of_lt (lt_of_le_of_lt (Nat.le_add_right ..) hres), Nat.mul_add_mod]
    exact ⟨_, r, by rw [Nat.add_sub_cancel_left], by omega, rfl, rfl⟩
  · exact ⟨res, rem, rfl, by omega, rfl, rfl⟩

lemma subtractDown_eq (hbase : 0 < base) {res rem : Nat} (k : Nat)
    (hrem : rem < base * 2 ^ (k + 1)) (hres : res + rem / base < 2 ^ 64) :
    subtractDown res rem (base * 2 ^ k) (2 ^ k) = (res + rem / base, rem % base) := by
  obtain ⟨res', rem', hnext, hlt, hquot, hmod⟩ := subtractOnce_spec hbase hrem hres
  rw [subtractDown, hnext, ← hquot, ← hmod]
  cases k with
  | zero =>
    rw [pow_zero, mul_one] at hlt
    rw [Nat.div_eq_of_lt hlt, Nat.mod_eq_of_lt hlt]
    rfl
  | succ k =>
    have hd : 2 ^ (k + 1) / 2 = 2 ^ k := by omega
    have hb : base * 2 ^ (k + 1) / 2 = base * 2 ^ k := by
      rw [mul_two_pow_succ]
      omega
    rw [hd, hb]
    exact (if_neg (Nat.two_pow_pos k).ne').trans (subtractDown_eq hbase k hlt (hquot ▸ hres))

lemma div64By32_eq (hn : n < 2 ^ 64) (hbase : 0 < base) (hlt : base < 2 ^ 32) :
    div64By32 n base = (n / base, n % base) := by
  have hsum := reduceHigh_sum hn base
  rw [div64By32]
  generalize reduceHigh n base = reduced at hsum ⊢
  have hrem : reduced.2 < 2 ^ 64 := by omega
  obtain ⟨k, hk, hscaled⟩ := scaleUp_spec hrem hbase 0 (by omega)
  rw [pow_zero, mul_one] at hk
  have hquot : reduced.1 + reduced.2 / base = n / base := by
    rw [← hsum, Nat.mul_add_div hbase]
  have hfits := (Nat.div_le_self n base).trans_lt hn
  rw [hk]
  dsimp only
  rw [subtractDown_eq hbase k hscaled (hquot ▸ hfits), hquot,
    Nat.mod_eq_of_lt ((Nat.mod_lt _ hbase).trans hlt), ← hsum, Nat.mul_add_mod]

lemma doDiv_eq (hn : n < 2 ^ 64) (hbase : 0 < base) (hlt : base < 2 ^ 32) :
    doDiv n base = (n / base, n % base) := by
  rw [doDiv, div64By32_eq hn hbase hlt, ite_self]

/-- While the shifted divisor keeps 32 bits, shifting both operands lets the quotient
grow by at most one. -/
lemma div_shifted {s : Nat} (hn : n < 2 ^ 64) (hs : 0 < s) (hlow : 2 ^ 31 ≤ m / 2 ^ s) :
    n / 2 ^ s / (m / 2 ^ s) = n / m ∨ n / 2 ^ s / (m / 2 ^ s) = n / m + 1 := by
  have hsplit := Nat.div_add_mod m (2 ^ s)
  have hmod := Nat.mod_lt m (Nat.two_pow_pos s)
  have hpos : 0 < 2 ^ s * (m / 2 ^ s) := by positivity
  have hnext := Nat.lt_mul_div_succ n (hpos.trans_le (Nat.mul_div_le ..))
  rw [Nat.div_div_eq_div_mul]
  have hge := Nat.div_le_div_left (a := n) (Nat.mul_div_le m (2 ^ s)) hpos
  have hle : n / (2 ^ s * (m / 2 ^ s)) < n / m + 2 := by
    rw [Nat.div_lt_iff_lt_mul hpos]
    generalize n / m = q at hnext ⊢
    generalize m / 2 ^ s = b at hlow hsplit ⊢
    generalize m % 2 ^ s = r at hsplit hmod
    subst hsplit
    by_contra hmore
    have hover : 2 ^ s * b < r * (q + 1) := by linarith
    have hwide : 2 ^ s * 2 ^ 31 ≤ 2 ^ s * b := Nat.mul_le_mul_left _ hlow
    have hsmall : (q + 2) * (2 ^ s * 2 ^ 31) ≤ (q + 2) * (2 ^ s * b) :=
      Nat.mul_le_mul_left _ hwide
    obtain rfl | htwo := Nat.eq_or_lt_of_le hs
    · have hr : r * (q + 1) ≤ 1 * (q + 1) := Nat.mul_le_mul_right _ (by omega)
      omega
    · have hr : r * (q + 1) ≤ 2 ^ s * (q + 2) := Nat.mul_le_mul hmod.le (by omega)
      have hfour : 2 ^ 2 ≤ 2 ^ s := Nat.pow_le_pow_right (by decide) htwo
      linarith
  omega

/-- `__div64_32` divides exactly, and so does `div64_64` by a divisor of 32 bits; by a
wider one its quotient is at most one too large. -/
theorem div64_quotient :
    (∀ n base, n < 2 ^ 64 → 0 < base → base < 2 ^ 32 →
      div64By32 n base = (n / base, n % base)) ∧
    ∀ n m, n < 2 ^ 64 → 0 < m → m < 2 ^ 64 →
      (m < 2 ^ 32 → div64By64 n m = n / m) ∧
      (2 ^ 32 ≤ m → div64By64 n m = n / m ∨ div64By64 n m = n / m + 1) := by
  refine ⟨fun n base => div64By32_eq, fun n m hn hm hm' => ⟨fun hlt => ?_, fun hle => ?_⟩⟩
  · rw [div64By64, if_neg (by omega), Nat.mod_eq_of_lt hlt, doDiv_eq hn hm hlt]
  · have hhigh : m / 2 ^ 32 ≠ 0 := by omega
    have hupper : m / 2 ^ 32 < 2 ^ (m / 2 ^ 32).size := Nat.lt_size_self _
    obtain ⟨t, ht⟩ := Nat.exists_eq_succ_of_ne_zero (mt Nat.size_eq_zero.mp hhigh)
    have hlower : 2 ^ t ≤ m / 2 ^ 32 := Nat.lt_size.mp (ht ▸ Nat.lt_succ_self t)
    rw [div64By64, if_pos hhigh, ht]
    rw [ht, Nat.succ_eq_add_one] at hupper
    have hlow : 2 ^ 31 ≤ m / 2 ^ (t + 1) := (Nat.le_div_iff_mul_le (by positivity)).mpr (by omega)
    have hbase : m / 2 ^ (t + 1) < 2 ^ 32 := Nat.div_lt_of_lt_mul (by omega)
    rw [Nat.mod_eq_of_lt hbase, doDiv_eq ((Nat.div_le_self ..).trans_lt hn) (by omega) hbase]
    exact div_shifted hn t.succ_pos hlow

theorem div64_quotient_wide :
    div64By32 (10 ^ 12 + 3) 1000 = (10 ^ 9, 3) ∧
      (div64By64 (2 ^ 63) (2 ^ 32) = 2 ^ 31 ∨ div64By64 (2 ^ 63) (2 ^ 32) = 2 ^ 31 + 1) :=
  ⟨div64_quotient.1 _ _ (by decide) (by decide) (by decide),
    (div64_quotient.2 _ _ (by decide) (by decide) (by decide)).2 (by decide)⟩

end R0Kernel.Div64
