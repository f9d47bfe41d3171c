import Mathlib.Data.Nat.Basic

/-!
# Timeouts in jiffies

`usecs_to_jiffies` of `kernel/time.c`, which turns a time in microseconds into a timeout, and
`__round_jiffies` of `kernel/timer.c`, which moves a timeout to a whole second. Both compute in
`unsigned long`s of 32 bits.
-/

namespace R0Kernel.Jiffies

def hz : UInt32 := 100

def usecPerSec : UInt32 := 1000000

/-- `MAX_JIFFY_OFFSET`, with `LONG_MAX` of 32 bits. -/
def maxJiffyOffset : UInt32 := (0x7fffffff : UInt32) >>> 1 - 1

def jiffiesToUsecs (j : UInt32) : UInt32 := usecPerSec / hz * j

def usecsToJiffies (u : UInt32) : UInt32 :=
  if u > jiffiesToUsecs maxJiffyOffset then maxJiffyOffset
  else (u + usecPerSec / hz - 1) / (usecPerSec / hz)

/-- `u * HZ / 1000000` rounded up, over the integers. -/
def inJiffies (u : UInt32) : Nat := (u.toNat * hz.toNat + (usecPerSec.toNat - 1)) / usecPerSec.toNat

/-- The conversion is exact, and the infinite timeout stands only for what exceeds it. -/
def ConvertsExactly (u : UInt32) : Prop :=
  (usecsToJiffies u).toNat = inJiffies u ∧
    (usecsToJiffies u = maxJiffyOffset → maxJiffyOffset.toNat < inJiffies u)

theorem usecs_to_jiffies_exact_iff (u : UInt32) : ConvertsExactly u ↔ u ≤ 4294947296 := by
  -- the bound of the guard is `10000 * MAX_JIFFY_OFFSET` without its carries
  have hbound : jiffiesToUsecs maxJiffyOffset = 4294947296 := by decide
  have hmax : maxJiffyOffset.toNat = 1073741822 := by decide
  have hu := u.toNat_lt
  simp only [ConvertsExactly, usecsToJiffies, hbound, UInt32.le_iff_toNat_le, gt_iff_lt,
    UInt32.lt_iff_toNat_lt, ← UInt32.toNat_inj, inJiffies, hmax]
  split
  · simp_all [hz, usecPerSec]
    omega
  · simp_all [hz, usecPerSec, UInt32.toNat_sub]
    omega

theorem usecs_to_jiffies_infinite :
    usecsToJiffies 4294967295 = maxJiffyOffset ∧ inJiffies 4294967295 = 429497 ∧
      ¬ ConvertsExactly 4294967295 := by
  unfold ConvertsExactly
  decide

/-- `time_after(a, b)`: the `long` difference `b - a` is negative. -/
def TimeAfter (a b : UInt32) : Prop := 0x80000000 ≤ b - a

instance (a b : UInt32) : Decidable (TimeAfter a b) := inferInstanceAs (Decidable (_ ≤ _))

def roundJiffies (jiffies j : UInt32) (cpu : Fin 64) : UInt32 :=
  let skew := cpu.val.toUInt32 * 3
  let rem := (j + skew) % hz
  let rounded := (if rem < hz / 4 then j + skew - rem else j + skew - rem + hz) - skew
  if rounded ≤ jiffies then j else rounded

/-- A timeout is still to come after the rounding, and less than a second from where it was. -/
def RoundsWell (jiffies j : UInt32) (cpu : Fin 64) : Prop :=
  let r := roundJiffies jiffies j cpu
  TimeAfter r jiffies ∧ (r - j < hz ∨ j - r < hz)

/-- The rounding passes below 0, and the plain comparison takes the result for a later time. -/
def RoundsBelowZero (jiffies j : UInt32) (cpu : Fin 64) : Prop :=
  let rem := (j + cpu.val.toUInt32 * 3) % hz
  jiffies < j ∧ j < rem ∧ rem < hz / 4

theorem round_jiffies_future_iff (jiffies j : UInt32) (cpu : Fin 64) (hj : TimeAfter j jiffies)
    (hnear : j - jiffies < 0x40000000) :
    RoundsWell jiffies j cpu ↔ ¬ RoundsBelowZero jiffies j cpu := by
  have hcpu := cpu.isLt
  have hlj := j.toNat_lt
  have hlf := jiffies.toNat_lt
  unfold RoundsWell RoundsBelowZero roundJiffies
  generalize hskew : cpu.val.toUInt32 * 3 = skew
  have hskew : skew.toNat < 192 := by
    have hsmall : cpu.val * 3 % 2 ^ 32 = cpu.val * 3 := Nat.mod_eq_of_lt (by omega)
    simp [← hskew]
    omega
  simp only [TimeAfter, hz, UInt32.le_iff_toNat_le, UInt32.lt_iff_toNat_lt] at *
  -- rounded down or up, and whether the comparison falls back to `j`
  split <;> split <;> simp_all [UInt32.toNat_sub] <;> omega

/-- Eight jiffies back across 2^32, and still ahead. -/
theorem round_jiffies_future_iff_across :
    RoundsWell 0xfffffff0 5 1 ∧ roundJiffies 0xfffffff0 5 1 = 0xfffffffd :=
  ⟨(round_jiffies_future_iff _ _ _ (by decide) (by decide)).mpr
    (by unfold RoundsBelowZero; decide), by decide⟩

theorem round_jiffies_past :
    TimeAfter 5 4 ∧ roundJiffies 4 5 1 = 0xfffffffd ∧ ¬ RoundsWell 4 5 1 := by
  unfold RoundsWell
  decide

end R0Kernel.Jiffies
