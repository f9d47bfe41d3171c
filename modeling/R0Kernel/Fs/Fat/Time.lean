import Mathlib

/-!
# DOS time stamps

`date_dos2unix` and `fat_date_unix2dos` of `fs/fat/misc.c`. An `int` is an integer that wraps at 32
bits; shifts and masks are written as products, quotients and remainders. `tz` is
`sys_tz.tz_minuteswest`, and `__le16` values are the numbers they stand for.
-/

namespace R0Kernel.Fat.Time

def int (x : Int) : Int := x.bmod (2 ^ 32)

def unsignedShort (x : Int) : Int := x % 2 ^ 16

/-- Linear day numbers of the respective 1sts in non-leap years. -/
def dayN (month : Int) : Int :=
  [0, 31, 59, 90, 120, 151, 181, 212, 243, 273, 304, 334].getD month.toNat 0

def dateDos2unix (tz time date : Int) : Int :=
  -- first subtract and mask after that
  let month := (date / 32 - 1) % 16
  let year := date / 512
  let secs := int (time % 32 * 2 + 60 * (time / 32 % 64) + time / 2048 * 3600 + 86400 *
    (date % 32 - 1 + dayN month + year / 4 + year * 365
      - (if year % 4 = 0 ∧ month < 2 then 1 else 0) + 3653))
  int (secs + int (tz * 60))

def findMonth (nlDay : Int) : (rounds : Nat) → (month : Int) → Int
  | 0, month => month
  | rounds + 1, month => if nlDay < dayN month then month else findMonth nlDay rounds (month + 1)

def epoch : Int := 315532800

def yearOf (day : Int) : Int :=
  let year := day / 365
  if day < (year + 3) / 4 + 365 * year then year - 1 else year

/-- The month and the day of a day of the year, with the days counted as in a year that is not a
leap year. -/
def monthOf (year day : Int) : Int × Int :=
  if day = 59 ∧ year % 4 = 0 then (day, 2)
  else
    let nlDay := if year % 4 ≠ 0 ∨ day ≤ 59 then day else day - 1
    (nlDay, findMonth nlDay 12 0)

/-- `fat_date_unix2dos`: the time and the date. -/
def fatDateUnix2dos (tz unixDate : Int) : Int × Int :=
  let unixDate := int (unixDate - int (tz * 60))
  let unixDate := if unixDate < epoch then epoch else unixDate
  let time := unixDate % 60 / 2 + unixDate / 60 % 60 * 32 + unixDate / 3600 % 24 * 2048
  let day := unixDate / 86400 - 3652
  let year := yearOf day
  let (nlDay, month) := monthOf year (day - ((year + 3) / 4 + 365 * year))
  (unsignedShort time, unsignedShort (nlDay - dayN (month - 1) + 1 + month * 32 + year * 512))

/-! ### The calendar -/

def IsLeap (year : Int) : Prop := year % 4 = 0 ∧ year % 100 ≠ 0 ∨ year % 400 = 0

instance (year : Int) : Decidable (IsLeap year) := inferInstanceAs (Decidable (_ ∨ _))

def daysIn (year month : Int) : Int :=
  if month = 2 then if IsLeap year then 29 else 28
  else if month = 4 ∨ month = 6 ∨ month = 9 ∨ month = 11 then 30
  else 31

/-- The fields of a time and a date are those of a moment since 1980. -/
structure IsMoment (time date : Int) : Prop where
  second : 0 ≤ time % 32 * 2 ∧ time % 32 * 2 < 60
  minute : 0 ≤ time / 32 % 64 ∧ time / 32 % 64 < 60
  hour : 0 ≤ time / 2048 ∧ time / 2048 < 24
  month : 1 ≤ date / 32 % 16 ∧ date / 32 % 16 ≤ 12
  day : 1 ≤ date % 32 ∧ date % 32 ≤ daysIn (1980 + date / 512) (date / 32 % 16)

def lastDay : Int := 21203

lemma int_eq {x : Int} (hlow : -2 ^ 31 ≤ x) (hhigh : x < 2 ^ 31) : int x = x := by
  apply Int.bmod_eq_of_le <;> omega

/-- The remainders that `int` takes on the way do not change the sum. -/
lemma int_sub_int (x y : Int) : int (x - int y) = int (x - y) := by
  exact Int.sub_bmod_bmod

lemma int_add_int (x y : Int) : int (x + int y) = int (x + y) := by
  exact Int.add_bmod_bmod

variable {day nlDay : Int}

lemma yearOf_spec (hlow : 0 ≤ day) (hhigh : day ≤ lastDay) :
    0 ≤ yearOf day ∧ yearOf day ≤ 58 ∧ (yearOf day + 3) / 4 + 365 * yearOf day ≤ day ∧
      day < (yearOf day + 4) / 4 + 365 * (yearOf day + 1) := by
  unfold lastDay at hhigh
  simp only [yearOf]
  split <;> omega

/-- The month that the loop finds for a day of a year that is not a leap year. -/
lemma findMonth_spec (hlow : 0 ≤ nlDay) (hhigh : nlDay < 365) :
    let month := findMonth nlDay 12 0
    1 ≤ month ∧ month ≤ 12 ∧ dayN (month - 1) ≤ nlDay ∧
      nlDay < dayN (month - 1) + daysIn 1981 month ∧ (month ≤ 2 ↔ nlDay < 59) := by
  have hall : ∀ n < 365, let month := findMonth (n : Nat) 12 0
      1 ≤ month ∧ month ≤ 12 ∧ dayN (month - 1) ≤ (n : Nat) ∧
        (n : Nat) < dayN (month - 1) + daysIn 1981 month ∧
        (month ≤ 2 ↔ ((n : Nat) : Int) < 59) := by
    decide +kernel
  obtain ⟨n, rfl⟩ := Int.eq_ofNat_of_zero_le hlow
  exact hall n (by omega)

lemma daysIn_common_le (year month : Int) : daysIn 1981 month ≤ daysIn year month := by
  unfold daysIn
  split_ifs <;> first | omega | exact absurd ‹IsLeap 1981› (by decide)

/-- In a leap year the days from March on count one less, and the day before is 29 February. -/
lemma monthOf_spec {year month : Int} (hyear : 0 ≤ year) (hlast : year ≤ 58) (hlow : 0 ≤ day)
    (hhigh : day < if year % 4 = 0 then 366 else 365) (h : monthOf year day = (nlDay, month)) :
    1 ≤ month ∧ month ≤ 12 ∧ dayN (month - 1) ≤ nlDay ∧
      nlDay < dayN (month - 1) + daysIn (1980 + year) month ∧
      day = nlDay + if year % 4 = 0 ∧ 2 < month then 1 else 0 := by
  unfold monthOf at h
  split at h
  next hleap =>
    obtain ⟨rfl, rfl⟩ := Prod.mk.inj h
    have hdays : daysIn (1980 + year) 2 = 29 := by
      rw [daysIn]
      unfold IsLeap
      omega
    simp [dayN, hdays, hleap.1]
  next hleap =>
    obtain ⟨hnl, rfl⟩ := Prod.mk.inj h
    rw [hnl]
    have hrange : 0 ≤ nlDay ∧ nlDay < 365 := by
      split_ifs at hnl hhigh <;> omega
    obtain ⟨hfirst, hlastMonth, hfrom, hto, hmarch⟩ := findMonth_spec hrange.1 hrange.2
    refine ⟨hfirst, hlastMonth, hfrom, Int.lt_of_lt_of_le hto ?_, ?_⟩
    · exact Int.add_le_add_left (daysIn_common_le _ _) _
    · split_ifs at hnl ⊢ <;> omega

/-- What the fields of a date hold, and the days since 1970 that they stand for. -/
lemma date_spec {year month date : Int} (hlow : 0 ≤ day) (hhigh : day ≤ lastDay)
    (hyear : yearOf day = year)
    (hmonth : monthOf year (day - ((year + 3) / 4 + 365 * year)) = (nlDay, month))
    (hdate : nlDay - dayN (month - 1) + 1 + month * 32 + year * 512 = date) :
    0 ≤ date ∧ date < 2 ^ 16 ∧ date / 512 = year ∧ date / 32 % 16 = month ∧
      (date / 32 - 1) % 16 = month - 1 ∧ 1 ≤ month ∧ month ≤ 12 ∧ 1 ≤ date % 32 ∧
      date % 32 ≤ daysIn (1980 + year) month ∧
      date % 32 - 1 + dayN (month - 1) + year / 4 + year * 365
        - (if year % 4 = 0 ∧ month - 1 < 2 then 1 else 0) + 3653 = day + 3652 := by
  obtain ⟨hfirstYear, hlast, hfrom, hto⟩ := yearOf_spec hlow hhigh
  rw [hyear] at hfirstYear hlast hfrom hto
  obtain ⟨hfirst, hlastMonth, hge, hlt, hday⟩ := monthOf_spec hfirstYear hlast (by omega)
    (by split_ifs <;> omega) hmonth
  have hlong : daysIn (1980 + year) month ≤ 31 := by
    unfold daysIn
    split_ifs <;> omega
  refine ⟨by omega, by omega, by omega, by omega, by omega, hfirst, hlastMonth, ?_, ?_, ?_⟩
  · omega
  · omega
  · split_ifs at hday ⊢ <;> omega

/-- A time stamp in the range of dates read back is the time, rounded down to an even second, and
its fields are those of a moment. -/
theorem fat_date_roundtrip {t tz : Int} (ht : -2 ^ 31 ≤ t ∧ t < 2 ^ 31)
    (hlow : epoch ≤ t - 60 * tz) (hhigh : t - 60 * tz ≤ 2 ^ 31 - 1) :
    let (time, date) := fatDateUnix2dos tz t
    dateDos2unix tz time date = t - t % 2 ∧ IsMoment time date := by
  unfold epoch at hlow
  have hadjust : int (t - int (tz * 60)) = t - 60 * tz := by
    rw [int_sub_int, Int.mul_comm tz, int_eq (by omega) (by omega)]
  have hkeep : ¬t - 60 * tz < epoch := by
    unfold epoch
    omega
  obtain ⟨year, hyear⟩ : ∃ year, yearOf ((t - 60 * tz) / 86400 - 3652) = year := ⟨_, rfl⟩
  obtain ⟨nlDay, month, hmonth⟩ : ∃ nlDay month, monthOf year
      ((t - 60 * tz) / 86400 - 3652 - ((year + 3) / 4 + 365 * year)) = (nlDay, month) := ⟨_, _, rfl⟩
  unfold fatDateUnix2dos
  dsimp only
  rw [hadjust, if_neg hkeep, hyear, hmonth]
  generalize hdate : nlDay - dayN (month - 1) + 1 + month * 32 + year * 512 = date
  obtain ⟨hpos, hshort, hyear', hmonth', hindex, hfirst, hlastMonth, hday, hdays, hsum⟩ :=
    date_spec (by omega) (by unfold lastDay; omega) hyear hmonth hdate
  generalize hu : t - 60 * tz = u at *
  generalize htime : u % 60 / 2 + u / 60 % 60 * 32 + u / 3600 % 24 * 2048 = time
  have hdshort : unsignedShort date = date := by
    unfold unsignedShort
    omega
  have htshort : unsignedShort time = time := by
    unfold unsignedShort
    omega
  rw [hdshort, htshort]
  refine ⟨?_, ⟨by omega, by omega, by omega, by omega, hday, ?_⟩⟩
  · unfold dateDos2unix
    rw [hindex, hyear', int_add_int]
    rw [int_eq (x := _ + _ + _ + _) (by omega) (by omega), int_eq (by omega) (by omega)]
    omega
  · rwa [hyear', hmonth']

/-- The last second of 29 February 2000 in Greenwich. -/
theorem fat_date_roundtrip_leap_day :
    (fatDateUnix2dos 0 951868799).2 = 20 * 512 + 2 * 32 + 29 ∧
      dateDos2unix 0 (fatDateUnix2dos 0 951868799).1 (fatDateUnix2dos 0 951868799).2 = 951868798 :=
  ⟨by decide +kernel,
    (@fat_date_roundtrip 951868799 0 (by decide) (by decide) (by decide)).1⟩

end R0Kernel.Fat.Time
