import R0Kernel.Kernel.Timer.Runs

/-! # The next timer interrupt

`__next_timer_interrupt` looks for the first slot of `tv1` that is in use and goes on to the vectors
above only where their timers might be due earlier. With ticks for jiffies, the slots of a vector
are searched in the order of the ticks they cover, from the first tick that has not passed.
-/

namespace R0Kernel.Timer

open Function List TvecBase

variable {Timer : Type*}

/-! ## The search -/

def nextTimerMaxDelta : UInt32 := ((1 : UInt32) <<< 30) - 1

def timeBefore (a b : UInt32) : Prop := (a - b).toInt32 < 0

instance (a b : UInt32) : Decidable (timeBefore a b) := inferInstanceAs (Decidable (_ < _))

namespace TvecBase

/-- The loop over `tv1`: the slot of the first timer that is not deferrable, and the timer. -/
def searchRoot (base : TvecBase Timer) (deferrable : Timer → Bool) :
    Nat → Nat → Option (Nat × Timer)
  | 0, _ => none
  | rounds + 1, slot =>
    match (base.list (.slot .tv1 slot)).find? (fun nte => !deferrable nte) with
    | some nte => some (slot, nte)
    | none => searchRoot base deferrable rounds ((slot + 1) % 2 ^ 8)

/-- The loop over one list, with what was found before. -/
def earliest (base : TvecBase Timer) (expires : UInt32) (timers : List Timer) : UInt32 :=
  timers.foldl (fun expires nte =>
    if timeBefore (base.expires nte) expires then base.expires nte else expires) expires

/-- How the loop over a vector ends. -/
inductive Search where
  | return (expires : UInt32)
  | next (found : Bool) (expires : UInt32)

def searchVector (base : TvecBase Timer) (tv : Vec) (index : Nat) :
    Nat → Nat → Bool → UInt32 → Search
  | 0, _, found, expires => .next found expires
  | rounds + 1, slot, found, expires =>
    let timers := base.list (.slot tv slot)
    let expires := base.earliest expires timers
    if found || !timers.isEmpty then
      if index = 0 ∨ slot < index then .next true expires else .return expires
    else searchVector base tv index rounds ((slot + 1) % 2 ^ 6) found expires

/-- The loop over `tv2` to `tv5`. -/
def searchVectors (base : TvecBase Timer) : List Vec → UInt32 → Bool → UInt32 → UInt32
  | [], _, _, expires => expires
  | tv :: rest, timerJiffies, found, expires =>
    let index := timerJiffies &&& tvnMask
    match base.searchVector tv index.toNat (2 ^ 6) index.toNat found expires with
    | .return expires => expires
    | .next found expires =>
      let timerJiffies := if index ≠ 0 then timerJiffies + (1 <<< tvnBits - index) else timerJiffies
      searchVectors base rest (timerJiffies >>> tvnBits) found expires

/-- `__next_timer_interrupt`; `deferrable` is the flag in the base pointer of a timer. -/
def nextTimerInterrupt (base : TvecBase Timer) (deferrable : Timer → Bool) : UInt32 :=
  let timerJiffies := base.timerJiffies
  let index := timerJiffies &&& tvrMask
  let above := if index ≠ 0 then timerJiffies + (1 <<< tvrBits - index) else timerJiffies
  let cascade := base.searchVectors [.tv2, .tv3, .tv4, .tv5] (above >>> tvrBits)
  match base.searchRoot deferrable (2 ^ 8) index.toNat with
  | none => cascade false (timerJiffies + nextTimerMaxDelta)
  | some (slot, nte) =>
    if index.toNat = 0 ∨ slot < index.toNat then cascade true (base.expires nte)
    else base.expires nte

end TvecBase

/-! ## Blocks of ticks -/

/-- The first block of `2 ^ s` ticks that has not begun before `now`. -/
def up (now s : Nat) : Nat := (now + 2 ^ s - 1) / 2 ^ s

section Blocks

variable {now s s' x : Nat}

lemma up_le_iff : up now s ≤ x ↔ now ≤ x * 2 ^ s := by
  have hpos := Nat.two_pow_pos s
  rw [up, ← Nat.lt_succ_iff, Nat.div_lt_iff_lt_mul hpos, Nat.succ_mul]
  omega

@[simp]
lemma up_zero : up now 0 = now := by simp [up]

lemma le_up_mul (now s : Nat) : now ≤ up now s * 2 ^ s := up_le_iff.mp le_rfl

lemma up_mul_mono (hs : s ≤ s') : up now s * 2 ^ s ≤ up now s' * 2 ^ s' := by
  have hsplit : 2 ^ s' = 2 ^ (s' - s) * 2 ^ s := by rw [← pow_add, Nat.sub_add_cancel hs]
  rw [hsplit, ← mul_assoc]
  apply Nat.mul_le_mul_right
  rw [up_le_iff, mul_assoc, ← hsplit]
  exact le_up_mul now s'

lemma up_add (now s k : Nat) : up now (s + k) = (up now s + 2 ^ k - 1) / 2 ^ k := by
  change _ = up (up now s) k
  apply le_antisymm
  · rw [up_le_iff, pow_add, ← mul_assoc, Nat.mul_right_comm, ← up_le_iff, ← up_le_iff]
  · rw [up_le_iff, up_le_iff, mul_assoc, ← pow_add, add_comm k]
    exact le_up_mul now (s + k)

end Blocks

/-! ## Ticks of jiffies -/

/-- The jiffies are those of a tick in the half of the counter's range that is ahead. -/
structure Tick (now : Nat) (jiffies : UInt32) (tick : Nat) : Prop where
  toNat : jiffies.toNat = tick % 2 ^ 32
  le : now ≤ tick
  lt : tick < now + 2 ^ 31

section Ticks

variable {now A B : Nat} {a b : UInt32}

lemma timeBefore_iff (ha : Tick now a A) (hb : Tick now b B) : timeBefore a b ↔ A < B := by
  have hale := ha.le
  have halt := ha.lt
  have hble := hb.le
  have hblt := hb.lt
  rw [timeBefore, toInt32_neg_iff, UInt32.toNat_sub, ha.toNat, hb.toNat]
  omega

def TvecBase.dueAt (base : TvecBase Timer) (now : Nat) (t : Timer) : Nat :=
  now + (base.expires t - base.timerJiffies).toNat

/-- Every timer of the wheel is in the slot for its tick. -/
structure Wheel (base : TvecBase Timer) (now : Nat) : Prop where
  ticks : base.timerJiffies.toNat = now % 2 ^ 32
  placed : ∀ tv i, ∀ t ∈ base.list (.slot tv i), Placed now (base.dueAt now t) (.slot tv i)
  near : ∀ tv i, ∀ t ∈ base.list (.slot tv i), base.dueAt now t < now + 2 ^ 31

variable {base : TvecBase Timer} {t : Timer} {tv : Vec} {i : Nat}

section

variable (h : Wheel base now) (ht : t ∈ base.list (.slot tv i))

include h ht

lemma Wheel.tick :
    Tick now (base.expires t) (base.dueAt now t) := by
  refine ⟨?_, Nat.le_add_right _ _, h.near tv i t ht⟩
  have hlt := (base.expires t).toNat_lt
  rw [dueAt, UInt32.toNat_sub, h.ticks]
  omega

/-- The block of a timer is less than one turn of its vector away. -/
lemma Wheel.block :
    up now tv.shift ≤ base.dueAt now t / 2 ^ tv.shift ∧
      base.dueAt now t / 2 ^ tv.shift < up now tv.shift + 2 ^ tv.bits ∧
      i = base.dueAt now t / 2 ^ tv.shift % 2 ^ tv.bits := by
  obtain ⟨hle, hlt, hi⟩ := h.placed tv i t ht
  refine ⟨up_le_iff.mpr hle, ?_, hi⟩
  apply Nat.lt_of_mul_lt_mul_right (a := 2 ^ tv.shift)
  rw [add_mul, ← pow_add, add_comm tv.bits]
  exact hlt.trans_le (Nat.add_le_add_right (le_up_mul now tv.shift) _)

end

lemma earliest_spec {timers : List Timer} (ha : Tick now a A)
    (htimers : ∀ t ∈ timers, Tick now (base.expires t) (base.dueAt now t)) :
    ∃ B, Tick now (base.earliest a timers) B ∧ B ≤ A ∧ ∀ t ∈ timers, B ≤ base.dueAt now t := by
  induction timers generalizing a A with
  | nil => exact ⟨A, ha, le_rfl, by simp⟩
  | cons nte timers ih =>
    have hnte := htimers nte mem_cons_self
    have hrest := fun t ht => htimers t (mem_cons_of_mem _ ht)
    have hstep : ∃ C, Tick now (if timeBefore (base.expires nte) a then base.expires nte else a) C ∧
        C ≤ A ∧ C ≤ base.dueAt now nte := by
      by_cases hbefore : timeBefore (base.expires nte) a
      · have hlt := (timeBefore_iff hnte ha).mp hbefore
        exact ⟨_, by rwa [if_pos hbefore], hlt.le, le_rfl⟩
      · have hle := Nat.le_of_not_lt (fun hlt => hbefore ((timeBefore_iff hnte ha).mpr hlt))
        exact ⟨A, by rwa [if_neg hbefore], le_rfl, hle⟩
    obtain ⟨C, hC, hCA, hCnte⟩ := hstep
    obtain ⟨B, hB, hBC, hall⟩ := ih hC hrest
    refine ⟨B, hB, hBC.trans hCA, forall_mem_cons.mpr ⟨hBC.trans hCnte, hall⟩⟩

end Ticks

/-! ## What the search has found -/

section Found

variable {base : TvecBase Timer} {deferrable : Timer → Bool} {now s A B b : Nat} {a : UInt32}
  {found : Bool} {tv : Vec}

/-- The tick is not after that of any timer of the wheel that is not deferrable. -/
def NotAfter (base : TvecBase Timer) (deferrable : Timer → Bool) (now : Nat) (a : UInt32) : Prop :=
  ∃ A, Tick now a A ∧ ∀ tv i, ∀ t ∈ base.list (.slot tv i), deferrable t = false →
    A ≤ base.dueAt now t

/-- What the search knows when it comes to the vector with slots of `2 ^ s` ticks. -/
structure Searched (base : TvecBase Timer) (deferrable : Timer → Bool) (now s : Nat) (found : Bool)
    (a : UInt32) (A : Nat) : Prop where
  tick : Tick now a A
  below : ∀ tv i, ∀ t ∈ base.list (.slot tv i), deferrable t = false → tv.shift < s →
    found = true ∧ A ≤ base.dueAt now t
  near : found = true → A < (up now s + 1) * 2 ^ s

/-- A slot has been found from which on the timers of the vector are later. -/
structure Settles (base : TvecBase Timer) (deferrable : Timer → Bool) (now : Nat)
    (tv : Vec) (b : Nat) (a : UInt32) (A : Nat) : Prop where
  tick : Tick now a A
  below : ∀ tv' i, ∀ t ∈ base.list (.slot tv' i), deferrable t = false → tv'.shift ≤ tv.shift →
    A ≤ base.dueAt now t
  lt : A < (b + 1) * 2 ^ tv.shift

lemma Vec.shift_lt_iff (tv' tv : Vec) : tv'.shift < tv.shift + tv.bits ↔ tv'.shift ≤ tv.shift := by
  cases tv <;> cases tv' <;> decide

/-- The search may stop if the slot is not behind the next cascade of the vector above. -/
lemma Settles.notAfter (h : Settles base deferrable now tv b a A) (hwheel : Wheel base now)
    (hb : b < 2 ^ tv.bits * up now (tv.shift + tv.bits)) : NotAfter base deferrable now a := by
  refine ⟨A, h.tick, fun tv' i t ht hdefer => ?_⟩
  by_cases hle : tv'.shift ≤ tv.shift
  · exact h.below tv' i t ht hdefer hle
  · have hshift := Nat.le_of_not_lt (mt (Vec.shift_lt_iff tv' tv).mp hle)
    have hblock := (hwheel.block ht).1
    calc A ≤ (b + 1) * 2 ^ tv.shift := h.lt.le
      _ ≤ 2 ^ tv.bits * up now (tv.shift + tv.bits) * 2 ^ tv.shift := Nat.mul_le_mul_right _ hb
      _ = up now (tv.shift + tv.bits) * 2 ^ (tv.shift + tv.bits) := by
        rw [pow_add, Nat.mul_right_comm, mul_comm, mul_comm (2 ^ tv.bits)]
      _ ≤ up now tv'.shift * 2 ^ tv'.shift := up_mul_mono hshift
      _ ≤ base.dueAt now t / 2 ^ tv'.shift * 2 ^ tv'.shift := Nat.mul_le_mul_right _ hblock
      _ ≤ base.dueAt now t := Nat.div_mul_le_self _ _

lemma Settles.searched (h : Settles base deferrable now tv b a A)
    (hb : b < up now tv.shift + 2 ^ tv.bits) :
    Searched base deferrable now (tv.shift + tv.bits) true a A := by
  refine ⟨h.tick, fun tv' i t ht hdefer hlt => ⟨rfl, ?_⟩, fun _ => ?_⟩
  · exact h.below tv' i t ht hdefer ((Vec.shift_lt_iff tv' tv).mp hlt)
  · have hup : up now tv.shift ≤ up now (tv.shift + tv.bits) * 2 ^ tv.bits := by
      rw [up_le_iff, mul_assoc, ← pow_add, add_comm tv.bits]
      exact le_up_mul now _
    calc A < (b + 1) * 2 ^ tv.shift := h.lt
      _ ≤ (up now (tv.shift + tv.bits) * 2 ^ tv.bits + 2 ^ tv.bits) * 2 ^ tv.shift :=
        Nat.mul_le_mul_right _ (by omega)
      _ = (up now (tv.shift + tv.bits) + 1) * 2 ^ (tv.shift + tv.bits) := by
        rw [pow_add, ← Nat.succ_mul, mul_assoc, mul_comm (2 ^ tv.bits)]

end Found

/-! ## One vector -/

section Vector

variable {base : TvecBase Timer} {deferrable : Timer → Bool} {now A : Nat} {a : UInt32}
  {found : Bool}
  {tv : Vec}

/-- The slot is behind the next cascade if the search has gone round or starts with a cascade. -/
lemma wrapped_iff (tv : Vec) {b : Nat} (hle : up now tv.shift ≤ b)
    (hlt : b < up now tv.shift + 2 ^ tv.bits) :
    (up now tv.shift % 2 ^ tv.bits = 0 ∨ b % 2 ^ tv.bits < up now tv.shift % 2 ^ tv.bits) ↔
      2 ^ tv.bits * up now (tv.shift + tv.bits) ≤ b := by
  rw [up_add]
  cases tv <;> simp only [Vec.bits] at * <;> omega

/-- The timers in a slot are those of one block. -/
lemma Wheel.block_eq (h : Wheel base now) {b : Nat} {t : Timer}
    (ht : t ∈ base.list (.slot tv (b % 2 ^ tv.bits))) (hle : up now tv.shift ≤ b)
    (hlt : b < up now tv.shift + 2 ^ tv.bits) : base.dueAt now t / 2 ^ tv.shift = b := by
  obtain ⟨hge, hbound, hi⟩ := h.block ht
  cases tv <;> simp only [Vec.bits] at * <;> omega

/-- The loop over a vector stops at the first slot in use, and at once if something was found. -/
lemma searchVector_spec (hwheel : Wheel base now) (hbits : tv.bits = 6) {rounds b : Nat}
    (hle : up now tv.shift ≤ b) (hb : b + rounds = up now tv.shift + 2 ^ 6)
    (hfound : found = true → b = up now tv.shift)
    (hsearched : Searched base deferrable now tv.shift found a A)
    (hempty : ∀ i, ∀ t ∈ base.list (.slot tv i), b ≤ base.dueAt now t / 2 ^ tv.shift) :
    match base.searchVector tv (up now tv.shift % 2 ^ 6) rounds (b % 2 ^ 6) found a with
    | .return a' => NotAfter base deferrable now a'
    | .next found' a' => ∃ A', Searched base deferrable now (tv.shift + 6) found' a' A' := by
  induction rounds generalizing b with
  | zero =>
    obtain rfl : found = false := by
      cases found with
      | false => rfl
      | true => exact absurd (hfound rfl) (by omega)
    refine ⟨A, hsearched.tick, fun tv' i t ht hdefer hlt => ?_, by simp⟩
    rcases ((Vec.shift_lt_iff tv' tv).mp (hbits ▸ hlt)).lt_or_eq with hbelow | heq
    · exact hsearched.below tv' i t ht hdefer hbelow
    · obtain rfl := Vec.shift_injective heq
      have hblock := (hwheel.block ht).2.1
      have hfar := hempty i t ht
      rw [hbits] at hblock
      omega
  | succ rounds ih =>
    have hlt : b < up now tv.shift + 2 ^ tv.bits := by
      rw [hbits]
      omega
    have hwrapped := wrapped_iff tv hle hlt
    have hdue : ∀ t ∈ base.list (.slot tv (b % 2 ^ tv.bits)),
        base.dueAt now t < (b + 1) * 2 ^ tv.shift := by
      intro t ht
      rw [← Nat.div_lt_iff_lt_mul (Nat.two_pow_pos _), hwheel.block_eq ht hle hlt]
      exact b.lt_succ_self
    have hsame : ∀ i, ∀ t ∈ base.list (.slot tv i), base.dueAt now t / 2 ^ tv.shift = b →
        t ∈ base.list (.slot tv (b % 2 ^ tv.bits)) := by
      intro i t ht heq
      rw [← heq, ← (hwheel.block ht).2.2]
      exact ht
    rw [hbits] at hwrapped hdue hsame hlt
    obtain ⟨B, hB, hBA, hall⟩ := earliest_spec hsearched.tick fun t => hwheel.tick (t := t)
    rw [searchVector]
    by_cases hstop : (found || !(base.list (.slot tv (b % 2 ^ 6))).isEmpty) = true
    · -- the slot settles where the first timer is
      have hnear : B < (b + 1) * 2 ^ tv.shift := by
        by_cases hbefore : found = true
        · rw [hfound hbefore]
          exact hBA.trans_lt (hsearched.near hbefore)
        · obtain ⟨t, ht⟩ := exists_mem_of_ne_nil _ (by simpa [hbefore] using hstop)
          exact (hall t ht).trans_lt (hdue t ht)
      have hsettles : Settles base deferrable now tv b
          (base.earliest a (base.list (.slot tv (b % 2 ^ 6)))) B := by
        refine ⟨hB, fun tv' i t ht hdefer hshift => ?_, hnear⟩
        rcases hshift.lt_or_eq with hbelow | heq
        · exact hBA.trans (hsearched.below tv' i t ht hdefer hbelow).2
        · obtain rfl := Vec.shift_injective heq
          rcases (hempty i t ht).eq_or_lt with hblock | hblock
          · exact hall t (hsame i t ht hblock.symm)
          · calc B ≤ (b + 1) * 2 ^ tv'.shift := hnear.le
              _ ≤ base.dueAt now t / 2 ^ tv'.shift * 2 ^ tv'.shift := Nat.mul_le_mul_right _ hblock
              _ ≤ base.dueAt now t := Nat.div_mul_le_self _ _
      rw [if_pos hstop]
      by_cases hwrap : up now tv.shift % 2 ^ 6 = 0 ∨ b % 2 ^ 6 < up now tv.shift % 2 ^ 6
      · rw [if_pos hwrap]
        have hnext := hsettles.searched (by rw [hbits]; exact hlt)
        rw [hbits] at hnext
        exact ⟨B, hnext⟩
      · rw [if_neg hwrap]
        refine hsettles.notAfter hwheel ?_
        rw [hbits]
        exact Nat.lt_of_not_le fun hbehind => hwrap (hwrapped.mpr hbehind)
    · obtain ⟨rfl, hnil⟩ : found = false ∧ base.list (.slot tv (b % 2 ^ 6)) = [] := by
        simpa using hstop
      have hslot : (b % 2 ^ 6 + 1) % 2 ^ 6 = (b + 1) % 2 ^ 6 := by omega
      rw [hnil, hslot]
      refine ih (by omega) (by omega) (by simp) fun i t ht => ?_
      refine (hempty i t ht).lt_of_ne fun heq => ?_
      have hmem := hsame i t ht heq.symm
      rw [hnil] at hmem
      cases hmem

end Vector

/-! ## All vectors -/

section Vectors

variable {base : TvecBase Timer} {deferrable : Timer → Bool} {now s A : Nat}
  {a timerJiffies : UInt32}
  {found : Bool}

/-- The vectors from the one with slots of `2 ^ s` ticks on. -/
def Climbs : Nat → List Vec → Prop
  | s, [] => 32 ≤ s
  | s, tv :: rest => tv.shift = s ∧ tv.bits = 6 ∧ s + 6 ≤ 32 ∧ Climbs (s + 6) rest

/-- The shifted copy of `timer_jiffies` is the number of the next block, as far as it goes. -/
structure Shifted (now s : Nat) (timerJiffies : UInt32) : Prop where
  mod : timerJiffies.toNat % 2 ^ (32 - s) = up now s % 2 ^ (32 - s)
  le : timerJiffies.toNat ≤ 2 ^ (32 - s)

lemma toNat_and_tvnMask (x : UInt32) : (x &&& tvnMask).toNat = x.toNat % 2 ^ 6 := by
  exact Nat.and_two_pow_sub_one_eq_mod x.toNat 6

lemma up_mod {x y m : Nat} (h : x % (2 ^ 6 * m) = y % (2 ^ 6 * m)) :
    (x + 2 ^ 6 - 1) / 2 ^ 6 % m = (y + 2 ^ 6 - 1) / 2 ^ 6 % m := by
  have hsum : (x + (2 ^ 6 - 1)) % (2 ^ 6 * m) = (y + (2 ^ 6 - 1)) % (2 ^ 6 * m) := by
    rw [Nat.add_mod, h, ← Nat.add_mod]
  rw [Nat.add_sub_assoc (by decide), Nat.add_sub_assoc (by decide), ← Nat.mod_mul_right_div_self,
    hsum, Nat.mod_mul_right_div_self]

/-- A number of ticks rounded up to blocks of `2 ^ k`, and shifted. -/
lemma toNat_roundUp (x : UInt32) {mask bits : UInt32} {k : Nat} (hk : k = 6 ∨ k = 8)
    (hmask : (x &&& mask).toNat = x.toNat % 2 ^ k) (hone : ((1 : UInt32) <<< bits).toNat = 2 ^ k)
    (hbits : bits.toNat % 32 = k) :
    ((if x &&& mask ≠ 0 then x + (1 <<< bits - (x &&& mask)) else x) >>> bits).toNat =
      (x.toNat + 2 ^ k - 1) / 2 ^ k % 2 ^ (32 - k) := by
  have hlt := x.toNat_lt
  have hzero : x &&& mask = 0 ↔ x.toNat % 2 ^ k = 0 := by
    rw [← hmask, ← UInt32.toNat_inj, UInt32.toNat_zero]
  rw [UInt32.toNat_shiftRight, hbits]
  split
  next hne =>
    rw [Ne, hzero] at hne
    rw [UInt32.toNat_add, UInt32.toNat_sub]
    obtain rfl | rfl := hk <;> omega
  next heq =>
    rw [not_not, hzero] at heq
    obtain rfl | rfl := hk <;> omega

lemma shifted_first (hticks : timerJiffies.toNat = now % 2 ^ 32) :
    Shifted now 8 ((if timerJiffies &&& tvrMask ≠ 0 then
      timerJiffies + (1 <<< tvrBits - (timerJiffies &&& tvrMask))
        else timerJiffies) >>> tvrBits) := by
  have hval := toNat_roundUp timerJiffies (.inr rfl) (toNat_and_tvrMask timerJiffies)
    (show ((1 : UInt32) <<< tvrBits).toNat = 2 ^ 8 from rfl) rfl
  constructor
  · rw [up]
    omega
  · omega

lemma Shifted.next (h : Shifted now s timerJiffies) (hpos : 8 ≤ s) (hs : s + 6 ≤ 32) :
    Shifted now (s + 6) ((if timerJiffies &&& tvnMask ≠ 0 then
      timerJiffies + (1 <<< tvnBits - (timerJiffies &&& tvnMask))
        else timerJiffies) >>> tvnBits) := by
  have hval := toNat_roundUp timerJiffies (.inl rfl) (toNat_and_tvnMask timerJiffies)
    (show ((1 : UInt32) <<< tvnBits).toNat = 2 ^ 6 from rfl) rfl
  have hlow : timerJiffies.toNat ≤ 2 ^ 24 :=
    h.le.trans (Nat.pow_le_pow_right (by decide) (by omega))
  rw [Nat.mod_eq_of_lt (by omega)] at hval
  have hpow : 2 ^ (32 - s) = 2 ^ 6 * 2 ^ (32 - (s + 6)) := by
    rw [← pow_add]
    congr 1
    omega
  have hmod := h.mod
  have hle := h.le
  rw [hpow] at hmod hle
  constructor
  · rw [hval, up_add, up_mod hmod]
  · omega

lemma searchVectors_spec (hwheel : Wheel base now) {vecs : List Vec} (hclimbs : Climbs s vecs)
    (hpos : 8 ≤ s) (hshifted : Shifted now s timerJiffies)
    (hsearched : Searched base deferrable now s found a A) :
    NotAfter base deferrable now (base.searchVectors vecs timerJiffies found a) := by
  induction vecs generalizing s found a A timerJiffies with
  | nil =>
    have hall : ∀ tv : Vec, tv.shift < s := fun tv =>
      tv.shift_le.trans_lt (lt_of_lt_of_le (by decide) hclimbs)
    exact ⟨A, hsearched.tick, fun tv i t ht hdefer =>
      (hsearched.below tv i t ht hdefer (hall tv)).2⟩
  | cons tv rest ih =>
    obtain ⟨rfl, hbits, hs, hrest⟩ := hclimbs
    have hindex : (timerJiffies &&& tvnMask).toNat = up now tv.shift % 2 ^ 6 := by
      have hdvd : 2 ^ 6 ∣ 2 ^ (32 - tv.shift) := Nat.pow_dvd_pow 2 (by omega)
      rw [toNat_and_tvnMask, ← Nat.mod_mod_of_dvd _ hdvd, hshifted.mod, Nat.mod_mod_of_dvd _ hdvd]
    have hvector := searchVector_spec hwheel hbits le_rfl rfl (fun _ => rfl) hsearched
      fun i t ht => (hwheel.block ht).1
    rw [searchVectors, hindex]
    split at hvector
    next a' hreturn => exact hvector
    next found' a' hnext =>
      obtain ⟨A', hsearched'⟩ := hvector
      exact ih hrest (by omega) (hshifted.next hpos hs) hsearched'

end Vectors

/-! ## The root vector -/

section Root

variable {base : TvecBase Timer} {deferrable : Timer → Bool} {now : Nat}

/-- The loop over `tv1` stops at the first timer that is not deferrable. -/
lemma searchRoot_spec (deferrable : Timer → Bool) (hwheel : Wheel base now) {rounds b : Nat}
    (hle : now ≤ b) (hb : b + rounds = now + 2 ^ 8)
    (hempty : ∀ i, ∀ t ∈ base.list (.slot .tv1 i), deferrable t = false → b ≤ base.dueAt now t) :
    match base.searchRoot deferrable rounds (b % 2 ^ 8) with
    | none => ∀ i, ∀ t ∈ base.list (.slot .tv1 i), deferrable t = true
    | some (slot, nte) => ∃ b < now + 2 ^ 8, now ≤ b ∧ slot = b % 2 ^ 8 ∧
        Settles base deferrable now .tv1 b (base.expires nte) b := by
  have hdue : ∀ i, ∀ t ∈ base.list (.slot .tv1 i),
      now ≤ base.dueAt now t ∧ base.dueAt now t < now + 2 ^ 8 ∧ i = base.dueAt now t % 2 ^ 8 := by
    intro i t ht
    simpa [Vec.shift, Vec.bits] using hwheel.block ht
  induction rounds generalizing b with
  | zero =>
    intro i t ht
    by_contra hdefer
    have hfar := hempty i t ht (by simpa using hdefer)
    have hnear := hdue i t ht
    omega
  | succ rounds ih =>
    rw [searchRoot]
    cases hfind : (base.list (.slot .tv1 (b % 2 ^ 8))).find? fun nte => !deferrable nte with
    | some nte =>
      have hmem := mem_of_find?_eq_some hfind
      have hnear := hdue _ nte hmem
      have heq : base.dueAt now nte = b := by omega
      refine ⟨b, by omega, hle, rfl, heq ▸ hwheel.tick hmem, ?_, ?_⟩
      · intro tv i t ht hdefer hshift
        obtain rfl : tv = .tv1 := Vec.shift_injective (Nat.le_zero.mp hshift)
        exact hempty i t ht hdefer
      · simp [Vec.shift]
    | none =>
      have hslot : (b % 2 ^ 8 + 1) % 2 ^ 8 = (b + 1) % 2 ^ 8 := by omega
      simp only [hslot]
      refine ih (by omega) (by omega) fun i t ht hdefer => ?_
      refine (hempty i t ht hdefer).lt_of_ne fun heq => ?_
      have hi : i = b % 2 ^ 8 := by
        rw [heq]
        exact (hdue i t ht).2.2
      have hno := find?_eq_none.mp hfind t (hi ▸ ht)
      rw [hdefer] at hno
      exact hno rfl

lemma tick_maxDelta {jiffies : UInt32} (hticks : jiffies.toNat = now % 2 ^ 32) :
    Tick now (jiffies + nextTimerMaxDelta) (now + (2 ^ 30 - 1)) := by
  have hdelta : nextTimerMaxDelta.toNat = 2 ^ 30 - 1 := rfl
  refine ⟨?_, by omega, by omega⟩
  rw [UInt32.toNat_add]
  omega

/-- Whatever is returned is not after the tick of a timer that is not deferrable. -/
lemma nextTimerInterrupt_notAfter (hwheel : Wheel base now) (deferrable : Timer → Bool) :
    NotAfter base deferrable now (base.nextTimerInterrupt deferrable) := by
  have hindex : (base.timerJiffies &&& tvrMask).toNat = now % 2 ^ 8 := by
    rw [toNat_and_tvrMask, hwheel.ticks]
    omega
  have hclimbs : Climbs 8 [.tv2, .tv3, .tv4, .tv5] := by
    simp [Climbs, Vec.shift, Vec.bits]
  have hshifted := shifted_first hwheel.ticks
  have hroot := searchRoot_spec deferrable hwheel le_rfl rfl
    fun i t ht _ => Nat.le_add_right _ _
  rw [nextTimerInterrupt, hindex]
  split at hroot
  next hnone =>
    refine searchVectors_spec hwheel hclimbs le_rfl hshifted
      ⟨tick_maxDelta hwheel.ticks, fun tv i t ht hdefer hshift => ?_, by simp⟩
    obtain rfl : tv = .tv1 := by
      cases tv <;> simp [Vec.shift] at hshift ⊢
    rw [hroot i t ht] at hdefer
    cases hdefer
  next slot nte hsome =>
    obtain ⟨b, hlt, hle, rfl, hsettles⟩ := hroot
    have hfirst : up now (Vec.shift .tv1) ≤ b := by simpa [Vec.shift] using hle
    have hlast : b < up now (Vec.shift .tv1) + 2 ^ Vec.bits .tv1 := by
      simpa [Vec.shift, Vec.bits] using hlt
    have hwrapped := wrapped_iff .tv1 hfirst hlast
    simp only [Vec.shift, Vec.bits, up_zero] at hwrapped
    by_cases hwrap : now % 2 ^ 8 = 0 ∨ b % 2 ^ 8 < now % 2 ^ 8
    · rw [if_pos hwrap]
      exact searchVectors_spec hwheel hclimbs le_rfl hshifted
        (hsettles.searched hlast)
    · rw [if_neg hwrap]
      refine hsettles.notAfter hwheel (Nat.lt_of_not_le fun hbehind => hwrap ?_)
      exact hwrapped.mpr hbehind

end Root

/-! ## Runs without timers in the past -/

section Runs

variable [DecidableEq Timer] {base base' initial : TvecBase Timer} {t : Timer} {now : Nat}
  {event : Event Timer}

/-- A timer is not queued for a time that has passed. -/
def Timely (base : TvecBase Timer) : Event Timer → Prop
  | .add _ expires => (expires - base.timerJiffies).toNat < 2 ^ 31
  | .mod _ expires => (expires - base.timerJiffies).toNat < 2 ^ 31
  | _ => True

inductive TimelyRun (initial : TvecBase Timer) : TvecBase Timer → Prop where
  | start : TimelyRun initial initial
  | step {event : Event Timer} {middle last : TvecBase Timer} (hrun : TimelyRun initial middle)
      (hstep : Step middle event last) (htimely : Timely middle event) : TimelyRun initial last

/-- A timer that is queued for the tick of its `expires`. -/
structure OnTime (base : TvecBase Timer) (t : Timer) (now : Nat) (head : Head) : Prop where
  queued : Queued base t now (base.dueAt now t) head
  near : base.dueAt now t < now + 2 ^ 31

/-- Each timer is idle, about to be run or on time. -/
def Orderly (base : TvecBase Timer) (now : Nat) : Prop :=
  base.timerJiffies.toNat = now % 2 ^ 32 ∧ ∀ t, Tracked base t none ∨
    Tracked base t (some .workList) ∨ ∃ head, OnTime base t now head

lemma Orderly.tracked (h : Orderly base now) (t : Timer) : ∃ place, Tracked base t place := by
  rcases h.2 t with h | h | ⟨head, hon⟩
  · exact ⟨none, h⟩
  · exact ⟨_, h⟩
  · exact ⟨_, hon.queued.tracked⟩

lemma Orderly.wheel (h : Orderly base now) : Wheel base now := by
  have hon : ∀ tv i, ∀ t ∈ base.list (.slot tv i), OnTime base t now (.slot tv i) := by
    intro tv i t ht
    rcases h.2 t with hnone | hwork | ⟨head, hon⟩
    · exact absurd ht (hnone.notMem (by simp))
    · exact absurd ht (hwork.notMem (by simp))
    · by_cases heq : head = .slot tv i
      · exact heq ▸ hon
      · exact absurd ht (hon.queued.tracked.notMem (by simpa using heq))
  exact ⟨h.1, fun tv i t ht => (hon tv i t ht).queued.placed, fun tv i t ht => (hon tv i t ht).near⟩

/-! ### Iterations -/

lemma cascade_expires (base : TvecBase Timer) (tv : Vec) (index : Nat) :
    (base.cascade tv index).2.expires = base.expires :=
  (foldl_fields (base.list (.slot tv index)) _).2

lemma iterate_expires (base : TvecBase Timer) : base.iterate.expires = base.expires := by
  unfold TvecBase.iterate TvecBase.cascadeVectors TvecBase.expire
  dsimp only
  split_ifs <;> simp only [cascade_expires]

lemma OnTime.iterate {head : Head} (h : OnTime base t now head) :
    Tracked base.iterate t (some .workList) ∨ ∃ head', OnTime base.iterate t (now + 1) head' := by
  have hnext := h.queued.iterate
  split at hnext
  next => exact .inl hnext
  next hdue =>
    obtain ⟨head', hq⟩ := hnext
    have hsame : base.iterate.dueAt (now + 1) t = base.dueAt now t := by
      have hlt' := base.timerJiffies.toNat_lt
      rw [dueAt, UInt32.toNat_sub] at hdue
      rw [dueAt, dueAt, iterate_expires, iterate_timerJiffies, UInt32.toNat_sub,
        UInt32.toNat_sub, UInt32.toNat_add, UInt32.toNat_one]
      omega
    have hnear := h.near
    refine .inr ⟨head', ?_, ?_⟩
    · rw [hsame]
      exact hq
    · omega

lemma Orderly.iterate (h : Orderly base now) (hwork : base.list .workList = []) :
    Orderly base.iterate (now + 1) := by
  refine ⟨?_, fun t => ?_⟩
  · have hticks := h.1
    rw [iterate_timerJiffies, UInt32.toNat_add, UInt32.toNat_one]
    omega
  · rcases h.2 t with hnone | hexpired | ⟨head, hon⟩
    · exact .inl hnone.iterate
    · have hcount := hexpired.count .workList
      simp [hwork] at hcount
    · exact .inr hon.iterate

/-! ### Calls -/

lemma expires_of_arms {expires : UInt32} (hstep : Step base event base')
    (harms : event = .add t expires ∨ event = .mod t expires) : base'.expires t = expires := by
  rcases harms with rfl | rfl
  · cases hstep with
    | add hidle => exact update_self _ _ _
  · cases hstep with
    | mod =>
      unfold modTimer
      split
      · exact update_self _ _ _
      · exact update_self _ _ _

section

variable (h : Orderly base now) (hstep : Step base event base')

include h hstep

lemma Orderly.arms {expires : UInt32} (harms : event = .add t expires ∨ event = .mod t expires)
    (hjiffies : base'.timerJiffies = base.timerJiffies)
    (htimely : (expires - base.timerJiffies).toNat < 2 ^ 31) : ∃ head, OnTime base' t now head := by
  obtain ⟨head, hq⟩ := queued_of_arms h.1 (h.tracked t) hstep harms
  have hdue : base'.dueAt now t = now + (expires - base.timerJiffies).toNat := by
    rw [dueAt, expires_of_arms hstep harms, hjiffies]
  rw [delay, if_pos htimely, ← hdue] at hq
  exact ⟨head, hq, by omega⟩

lemma Orderly.call (hiterate : event ≠ .iterate) (htimely : Timely base event) :
    Orderly base' now := by
  have hjiffies : base'.timerJiffies = base.timerJiffies := by
    have htick := step_timerJiffies hstep
    simp only [count_singleton, beq_eq_false_iff_ne.mpr hiterate, Bool.false_eq_true,
      if_false] at htick
    simpa using htick
  refine ⟨by rw [hjiffies]; exact h.1, fun t => ?_⟩
  by_cases hcalls : event.Calls t
  · cases event with
    | add u expires =>
      obtain rfl := hcalls
      exact .inr (.inr (h.arms hstep (.inl rfl) hjiffies htimely))
    | mod u expires =>
      obtain rfl := hcalls
      exact .inr (.inr (h.arms hstep (.inr rfl) hjiffies htimely))
    | del u =>
      obtain rfl := hcalls
      obtain ⟨place, htracked⟩ := h.tracked u
      cases hstep with
      | del =>
        unfold delTimer
        split
        · exact .inl htracked.detachTimer
        · exact h.2 u
    | iterate => exact hcalls.elim
    | run u => exact hcalls.elim
  · by_cases hrun : event = .run t
    · subst hrun
      obtain ⟨place, htracked⟩ := h.tracked t
      cases hstep with
      | run hfirst => exact .inl htracked.detachTimer
    · rcases h.2 t with hnone | hexpired | ⟨head, hon⟩
      · exact .inl (hnone.step_of_ne hstep hcalls hiterate hrun)
      · exact .inr (.inl (hexpired.step_of_ne hstep hcalls hiterate hrun))
      · have hsame : base'.dueAt now t = base.dueAt now t := by
          rw [dueAt, dueAt, step_expires hstep hcalls hiterate, hjiffies]
        refine .inr (.inr ⟨head, ?_, ?_⟩)
        · rw [hsame]
          exact hon.queued.step_of_ne hstep hcalls hiterate hrun
        · rw [hsame]
          exact hon.near

end

lemma TimelyRun.orderly (hinit : Initial initial) (hrun : TimelyRun initial base) :
    ∃ now, Orderly base now := by
  induction hrun with
  | start =>
    exact ⟨_, ticks_toNat initial, fun t =>
      .inl ⟨fun head => by simp [hinit.list], by simp [hinit.pending]⟩⟩
  | @step event _ _ _ hstep htimely ih =>
    obtain ⟨now, horderly⟩ := ih
    by_cases hiterate : event = .iterate
    · subst hiterate
      cases hstep with
      | iterate hwork => exact ⟨now + 1, horderly.iterate hwork⟩
    · exact ⟨now, horderly.call hstep hiterate htimely⟩

/-- In a run in which no timer is queued for a time that has passed, the value that
`__next_timer_interrupt` returns between two iterations is not after the expiry of any pending timer
that is not deferrable. -/
theorem next_timer_interrupt_not_after (initial base : TvecBase Timer) (deferrable : Timer → Bool)
    (hinit : Initial initial) (hrun : TimelyRun initial base) (hwork : base.list .workList = [])
    (t : Timer) (hpending : base.pending t = true) (hdefer : deferrable t = false) :
    ¬timeBefore (base.expires t) (base.nextTimerInterrupt deferrable) := by
  obtain ⟨now, horderly⟩ := hrun.orderly hinit
  have hwheel := horderly.wheel
  obtain ⟨A, hA, hall⟩ := nextTimerInterrupt_notAfter hwheel deferrable
  rcases horderly.2 t with hnone | hexpired | ⟨head, hon⟩
  · have hidle := hnone.pending
    rw [hpending] at hidle
    cases hidle
  · have hcount := hexpired.count .workList
    simp [hwork] at hcount
  · have hcount := hon.queued.tracked.count head
    rw [if_pos rfl] at hcount
    have hmem : t ∈ base.list head := count_pos_iff.mp (by omega)
    cases head with
    | workList => exact hon.queued.placed.elim
    | slot tv i =>
      rw [timeBefore_iff (hwheel.tick hmem) hA]
      exact not_lt.mpr (hall tv i t hmem hdefer)

def quiet (timerJiffies : UInt32) : TvecBase Bool :=
  ⟨timerJiffies, fun _ => [], fun _ => 0, fun _ => false⟩

/-- The timers are behind the next cascade, one in `tv2` and one in `tv1`. -/
theorem next_timer_interrupt_not_after_cascade :
    ∃ base, TimelyRun (quiet 0xffffffff) base ∧ base.list (.slot .tv2 0) = [false] ∧
      base.list (.slot .tv1 200) = [true] ∧ base.nextTimerInterrupt (fun _ => false) = 200 ∧
      ¬timeBefore (base.expires false) (base.nextTimerInterrupt fun _ => false) := by
  have hlate : Timely (quiet 0xffffffff) (.add false 255) := by
    change (_ : Nat) < _
    decide
  have hfirst := TimelyRun.start.step (.add rfl) hlate
  have hsoon : Timely (((quiet 0xffffffff).setExpires false 255).internalAddTimer false)
      (.add true 200) := by
    change (_ : Nat) < _
    decide
  have hrun := hfirst.step (.add rfl) hsoon
  exact ⟨_, hrun, by decide +kernel, by decide +kernel, by decide +kernel,
    next_timer_interrupt_not_after (quiet 0xffffffff) _ (fun _ => false)
      ⟨fun _ => rfl, fun _ => rfl⟩
      hrun (by decide +kernel) false (by decide +kernel) rfl⟩

/-- Of two timers in the current slot the first one counts, even if the other is due earlier; and a
timer that is overdue by almost half the range of the counter is taken to be due after one in the
slot that is cascaded next. -/
theorem next_timer_interrupt_after_overdue :
    (∃ base, Run (quiet 10) [.add false 10, .add true 5] base ∧ base.list .workList = [] ∧
      base.pending true = true ∧
      timeBefore (base.expires true) (base.nextTimerInterrupt fun _ => false)) ∧
    ∃ base, Run (quiet 0xffffffff) [.add false 255, .iterate, .add true 0x8000000a] base ∧
      base.list .workList = [] ∧ base.pending true = true ∧
      timeBefore base.timerJiffies (base.nextTimerInterrupt fun _ => false) ∧
      base.iterate.list .workList = [true] := by
  have hsame : Run (quiet 10) [.add false 10, .add true 5] _ :=
    (Run.start.step (.add rfl)).step (.add rfl)
  have hoverdue : Run (quiet 0xffffffff) [.add false 255, .iterate, .add true 0x8000000a] _ :=
    ((Run.start.step (.add rfl)).step (.iterate rfl)).step (.add rfl)
  exact ⟨⟨_, hsame, by decide +kernel, by decide +kernel, by decide +kernel⟩,
    _, hoverdue, by decide +kernel, by decide +kernel, by decide +kernel, by decide +kernel⟩

end Runs

end R0Kernel.Timer
