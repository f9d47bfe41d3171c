import R0Kernel.Kernel.Timer.Wheel

/-! # Where a timer sits

`timer_jiffies` and `expires` are read as residues of unbounded tick numbers. A
timer due at tick `due` sits in a slot whose first tick has not passed and is
less than one turn of the vector away.
-/

namespace R0Kernel.Timer

/-! ## Slots and ticks -/

/-- A slot of the vector covers `2 ^ shift` ticks. -/
def Vec.shift : Vec → Nat
  | .tv1 => 0
  | .tv2 => 8
  | .tv3 => 14
  | .tv4 => 20
  | .tv5 => 26

/-- The vector has `2 ^ bits` slots. -/
def Vec.bits : Vec → Nat
  | .tv1 => 8
  | _ => 6

/-- The first tick of the slot of `tv` that covers `due`. -/
def Vec.first (tv : Vec) (due : Nat) : Nat := due / 2 ^ tv.shift * 2 ^ tv.shift

def Placed (now due : Nat) : Head → Prop
  | .slot tv i => now ≤ tv.first due ∧ tv.first due < now + 2 ^ (tv.shift + tv.bits) ∧
      i = due / 2 ^ tv.shift % 2 ^ tv.bits
  | .workList => False

/-- The slot need not be emptied at `now`. -/
def Settled (now due : Nat) : Head → Prop
  | .slot tv _ => tv = .tv1 ∨ now < tv.first due
  | .workList => True

variable {now due : Nat} {timerJiffies expires : UInt32} {k i : Nat} {tv : Vec}

lemma toNat_sub_ticks (hnow : timerJiffies.toNat = now % 2 ^ 32)
    (hdue : expires.toNat = due % 2 ^ 32) (hle : now ≤ due) (hlt : due < now + 2 ^ 32) :
    (expires - timerJiffies).toNat = due - now := by
  rw [UInt32.toNat_sub]
  omega

lemma toInt32_neg_iff (idx : UInt32) : idx.toInt32 < 0 ↔ 2 ^ 31 ≤ idx.toNat := by
  have hint : idx.toInt32.toInt = idx.toBitVec.toInt := rfl
  have hnat : idx.toBitVec.toNat = idx.toNat := rfl
  rw [Int32.lt_iff_toInt_lt, hint, BitVec.toInt_eq_toNat_cond]
  simp only [Int32.toInt_zero]
  split <;> omega

lemma toNat_and_tvrMask (x : UInt32) : (x &&& tvrMask).toNat = x.toNat % 2 ^ 8 := by
  exact Nat.and_two_pow_sub_one_eq_mod x.toNat 8

lemma toNat_shiftRight_and_tvnMask (x n : UInt32) (hn : n.toNat < 32) :
    ((x >>> n) &&& tvnMask).toNat = x.toNat / 2 ^ n.toNat % 2 ^ 6 := by
  rw [UInt32.toNat_and, UInt32.toNat_shiftRight, Nat.mod_eq_of_lt hn,
    Nat.shiftRight_eq_div_pow]
  exact Nat.and_two_pow_sub_one_eq_mod _ 6

/-- The residue of a tick number has the same slot bits. -/
lemma slot_bits_mod (n : Nat) {shift bits : Nat} (h : shift + bits ≤ 32) :
    n % 2 ^ 32 / 2 ^ shift % 2 ^ bits = n / 2 ^ shift % 2 ^ bits := by
  have hsplit : 2 ^ 32 = 2 ^ shift * 2 ^ (32 - shift) := by
    rw [← pow_add]
    congr 1
    omega
  rw [hsplit, Nat.mod_mul_right_div_self,
    Nat.mod_mod_of_dvd _ (Nat.pow_dvd_pow 2 (by omega))]

lemma index_eq {Timer : Type*} {base : TvecBase Timer}
    (hticks : base.timerJiffies.toNat = now % 2 ^ 32) (n : UInt32)
    (hn : (tvrBits + n * tvnBits).toNat + 6 ≤ 32) :
    base.index n = now / 2 ^ (tvrBits + n * tvnBits).toNat % 2 ^ 6 := by
  rw [TvecBase.index, toNat_shiftRight_and_tvnMask _ _ (by omega), hticks, slot_bits_mod _ hn]

lemma aligned_of_index (haligned : 2 ^ k ∣ now) (hzero : now / 2 ^ k % 2 ^ 6 = 0) :
    2 ^ (k + 6) ∣ now := by
  rw [pow_add]
  exact (Nat.dvd_div_iff_mul_dvd haligned).mp (Nat.dvd_of_mod_eq_zero hzero)

lemma not_aligned_of_index {n : Nat} (hne : now / 2 ^ k % 2 ^ 6 ≠ 0) (hn : k + 6 ≤ n) :
    ¬ 2 ^ n ∣ now := by
  intro hdvd
  obtain ⟨c, rfl⟩ := (Nat.pow_dvd_pow 2 hn).trans hdvd
  apply hne
  rw [pow_add, mul_assoc, Nat.mul_div_cancel_left _ (Nat.two_pow_pos k), Nat.mul_mod_right]

lemma placed_of_distance (tv : Vec) (hle : now ≤ due)
    (hlow : tv = .tv1 ∨ 2 ^ tv.shift ≤ due - now)
    (hhigh : due - now < 2 ^ (tv.shift + tv.bits)) :
    Placed now due (.slot tv (due / 2 ^ tv.shift % 2 ^ tv.bits)) ∧
      Settled now due (.slot tv (due / 2 ^ tv.shift % 2 ^ tv.bits)) := by
  cases tv <;>
    simp only [Placed, Settled, Vec.first, Vec.shift, Vec.bits, reduceCtorEq, false_or,
      true_or, and_true] at hlow hhigh ⊢ <;>
    omega

lemma slotFor_ahead (hnow : timerJiffies.toNat = now % 2 ^ 32)
    (hdue : expires.toNat = due % 2 ^ 32) (hle : now ≤ due) (hlt : due < now + 2 ^ 31) :
    Placed now due (slotFor timerJiffies expires) ∧
      Settled now due (slotFor timerJiffies expires) := by
  have hidx := toNat_sub_ticks hnow hdue hle (by omega)
  have hneg : ¬ (expires - timerJiffies).toInt32 < 0 := by
    rw [toInt32_neg_iff]
    omega
  have hlimit : ¬ (0xffffffff : UInt32) < expires - timerJiffies := by
    rw [UInt32.lt_iff_toNat_lt, hidx, not_lt]
    exact (by omega : due - now ≤ 4294967295)
  have hslot : ∀ n : UInt32, n.toNat + 6 ≤ 32 →
      ((expires >>> n) &&& tvnMask).toNat = due / 2 ^ n.toNat % 2 ^ 6 := by
    intro n hn
    rw [toNat_shiftRight_and_tvnMask _ _ (by omega), hdue, slot_bits_mod _ hn]
  unfold slotFor
  dsimp only
  rw [if_neg hlimit]
  simp only [UInt32.lt_iff_toNat_lt, hidx]
  split
  next h1 =>
    have hroot : (expires &&& tvrMask).toNat = due / 2 ^ 0 % 2 ^ 8 := by
      rw [toNat_and_tvrMask]
      omega
    rw [hroot]
    exact placed_of_distance .tv1 hle (.inl rfl) h1
  next h1 =>
    split
    next h2 =>
      rw [hslot _ (by decide)]
      exact placed_of_distance .tv2 hle (.inr (not_lt.mp h1)) h2
    next h2 =>
      split
      next h3 =>
        rw [hslot _ (by decide)]
        exact placed_of_distance .tv3 hle (.inr (not_lt.mp h2)) h3
      next h3 =>
        split
        next h4 =>
          rw [hslot _ (by decide)]
          exact placed_of_distance .tv4 hle (.inr (not_lt.mp h3)) h4
        next h4 =>
          rw [hslot _ (by decide)]
          apply placed_of_distance .tv5 hle (.inr (not_lt.mp h4))
          exact (by omega : due - now < 2 ^ 32)

/-- A timer in the past goes to the slot that is processed next. -/
lemma slotFor_past (hnow : timerJiffies.toNat = now % 2 ^ 32)
    (hpast : 2 ^ 31 ≤ (expires - timerJiffies).toNat) :
    slotFor timerJiffies expires = .slot .tv1 (now % 2 ^ 8) := by
  have hroot : (timerJiffies &&& tvrMask).toNat = now % 2 ^ 8 := by
    rw [toNat_and_tvrMask]
    omega
  have hfar : ∀ n : UInt32, n.toNat ≤ 2 ^ 31 → ¬ expires - timerJiffies < n := by
    intro n hn
    rw [UInt32.lt_iff_toNat_lt, not_lt]
    exact hn.trans hpast
  unfold slotFor
  rw [if_neg (hfar _ (by decide)), if_neg (hfar _ (by decide)), if_neg (hfar _ (by decide)),
    if_neg (hfar _ (by decide)), if_pos ((toInt32_neg_iff _).mpr hpast), hroot]

/-! ## One tick -/

/-- A slot is cascaded when its first tick is reached and not before. -/
lemma first_eq_now (hplaced : Placed now due (.slot tv i)) (haligned : 2 ^ tv.shift ∣ now)
    (hi : i = now / 2 ^ tv.shift % 2 ^ tv.bits) :
    tv.first due = now := by
  obtain ⟨hle, hlt, hslot⟩ := hplaced
  cases tv <;> simp only [Vec.first, Vec.shift, Vec.bits] at * <;> omega

lemma settled_of_ne (hplaced : Placed now due (.slot tv i))
    (hne : i ≠ now / 2 ^ tv.shift % 2 ^ tv.bits) : now < tv.first due := by
  obtain ⟨hle, _, hslot⟩ := hplaced
  refine lt_of_le_of_ne hle fun heq => hne ?_
  rw [hslot, heq, Vec.first, Nat.mul_div_cancel _ (Nat.two_pow_pos _)]

lemma settled_of_not_aligned (hplaced : Placed now due (.slot tv i))
    (hnot : ¬ 2 ^ tv.shift ∣ now) : now < tv.first due :=
  lt_of_le_of_ne hplaced.1 fun heq => hnot (heq ▸ Dvd.intro_left _ rfl)

lemma due_lt_of_first (h : tv.first due = now) :
    now ≤ due ∧ due < now + 2 ^ tv.shift := by
  subst h
  have hmod := Nat.div_add_mod' due (2 ^ tv.shift)
  unfold Vec.first
  omega

/-- Once the slots due at `now` are cascaded, a timer either is in the slot of
`tv1` that is run or keeps its place. -/
lemma placed_succ {head : Head} (hplaced : Placed now due head)
    (hsettled : Settled now due head) :
    if due = now then head = .slot .tv1 (now % 2 ^ 8)
    else head ≠ .slot .tv1 (now % 2 ^ 8) ∧ Placed (now + 1) due head := by
  cases head with
  | workList => exact hplaced.elim
  | slot tv i =>
    cases tv <;>
      simp only [Placed, Settled, Vec.first, Vec.shift, Vec.bits, Head.slot.injEq,
        reduceCtorEq, false_or, false_and, true_and, ne_eq, not_false_eq_true]
        at hplaced hsettled ⊢ <;>
      split <;> omega

end R0Kernel.Timer
