import R0Kernel.Fs.Fat.Dir

/-!
# FAT entries

The entries of a file allocation table as bytes: where an entry lies, and how the `ent_get` and
`ent_put` of the three widths read and write it. Entries of twelve bits share a byte with their
neighbour.
-/

namespace R0Kernel.Fat

inductive FatBits where
  | fat12
  | fat16
  | fat32
  deriving DecidableEq

def FatBits.toNat : FatBits → Nat
  | .fat12 => 12
  | .fat16 => 16
  | .fat32 => 32

def FAT_START_ENT : Nat := 2

def FAT_ENT_FREE : Nat := 0

def FAT_ENT_EOF : Nat := 0x0FFFFFFF

def FatBits.maxFat : FatBits → Nat
  | .fat12 => 0xFF4
  | .fat16 => 0xFFF4
  | .fat32 => 0x0FFFFFF6

def FatBits.bad : FatBits → Nat
  | .fat12 => 0xFF7
  | .fat16 => 0xFFF7
  | .fat32 => 0x0FFFFFF7

def FatBits.eof : FatBits → Nat
  | .fat12 => 0xFFF
  | .fat16 => 0xFFFF
  | .fat32 => 0x0FFFFFFF

abbrev Table := Nat → Byte

/-- `bytes` in `ent_blocknr`: where an entry starts. -/
def FatBits.entOffset : FatBits → Nat → Nat
  | .fat12, entry => entry + (entry >>> 1)
  | .fat16, entry => entry <<< 1
  | .fat32, entry => entry <<< 2

def FatBits.entSize : FatBits → Nat
  | .fat12 => 2
  | .fat16 => 2
  | .fat32 => 4

/-! ### Reading and writing -/

def byteNat (t : Table) (i : Nat) : Nat := (t i).toNat

/-- The number that `ent_get` takes out of the bytes. -/
def entRaw (bits : FatBits) (t : Table) (entry : Nat) : Nat :=
  let p := bits.entOffset entry
  match bits with
  | .fat12 =>
    (if entry % 2 = 1 then byteNat t p >>> 4 ||| byteNat t (p + 1) <<< 4
      else byteNat t (p + 1) <<< 8 ||| byteNat t p) &&& 0x0fff
  | .fat16 => byteNat t (p + 1) <<< 8 ||| byteNat t p
  | .fat32 =>
    (byteNat t (p + 3) <<< 24 ||| byteNat t (p + 2) <<< 16 ||| byteNat t (p + 1) <<< 8 |||
      byteNat t p) &&& 0x0fffffff

/-- `ent_get`: a bad mark and all end marks are read as the end of a chain. -/
def entGet (bits : FatBits) (t : Table) (entry : Nat) : Nat :=
  let next := entRaw bits t entry
  if bits.bad ≤ next then FAT_ENT_EOF else next

def setByte (t : Table) (i n : Nat) : Table := Function.update t i (BitVec.ofNat 8 n)

/-- `ent_put` of a number that is already in the width. -/
def entPutRaw (bits : FatBits) (t : Table) (entry new : Nat) : Table :=
  let p := bits.entOffset entry
  match bits with
  | .fat12 =>
    if entry % 2 = 1 then
      setByte (setByte t p (new <<< 4 ||| (byteNat t p &&& 0x0f))) (p + 1) (new >>> 4)
    else
      setByte (setByte t p (new &&& 0xff)) (p + 1) ((byteNat t (p + 1) &&& 0xf0) ||| new >>> 8)
  | .fat16 => setByte (setByte t p new) (p + 1) (new >>> 8)
  | .fat32 =>
    let new := new ||| (byteNat t (p + 3) &&& 0xf0) <<< 24
    setByte (setByte (setByte (setByte t p new) (p + 1) (new >>> 8)) (p + 2) (new >>> 16)) (p + 3)
      (new >>> 24)

def entPut (bits : FatBits) (t : Table) (entry new : Nat) : Table :=
  entPutRaw bits t entry (if new = FAT_ENT_EOF then bits.eof else new)

/-! ### The bytes as numbers -/

variable (t : Table)

lemma byteNat_lt (i : Nat) : byteNat t i < 256 := (t i).isLt

lemma byteNat_setByte (i j n : Nat) :
    byteNat (setByte t i n) j = if j = i then n % 256 else byteNat t j := by
  simp only [byteNat, setByte, Function.update_apply]
  split <;> simp

lemma shiftLeft_or {a b n : Nat} (hb : b < 2 ^ n) : a <<< n ||| b = a * 2 ^ n + b := by
  rw [← Nat.shiftLeft_add_eq_or_of_lt hb, Nat.shiftLeft_eq]

lemma and_f0 {b : Nat} (hb : b < 256) : b &&& 0xf0 = (b / 16) <<< 4 := by
  revert b
  decide +kernel

/-- The numbers of twelve and sixteen bits and of twenty-eight bits, without the bit operations. -/
lemma entRaw_fat12 (entry : Nat) :
    entRaw .fat12 t entry =
      let p := entry + entry / 2
      if entry % 2 = 1 then byteNat t p / 16 + byteNat t (p + 1) * 16
      else byteNat t (p + 1) % 16 * 256 + byteNat t p := by
  have h₀ := byteNat_lt t (entry + entry / 2)
  have h₁ := byteNat_lt t (entry + entry / 2 + 1)
  have hmask : ∀ n : Nat, n &&& 0x0fff = n % 4096 := fun n => Nat.and_two_pow_sub_one_eq_mod n 12
  simp only [entRaw, FatBits.entOffset, Nat.shiftRight_eq_div_pow, pow_one, hmask]
  split
  · rw [Nat.or_comm, shiftLeft_or (by omega)]
    omega
  · rw [shiftLeft_or (by omega)]
    omega

lemma entRaw_fat16 (entry : Nat) :
    entRaw .fat16 t entry = byteNat t (2 * entry + 1) * 256 + byteNat t (2 * entry) := by
  have h₀ := byteNat_lt t (2 * entry)
  simp only [entRaw, FatBits.entOffset, Nat.shiftLeft_eq entry, pow_one, mul_comm entry]
  exact shiftLeft_or (by omega)

lemma entRaw_fat32 (entry : Nat) :
    entRaw .fat32 t entry = byteNat t (4 * entry + 3) % 16 * 2 ^ 24 + byteNat t (4 * entry + 2) *
      2 ^ 16 +
      byteNat t (4 * entry + 1) * 2 ^ 8 + byteNat t (4 * entry) := by
  have h₀ := byteNat_lt t (4 * entry)
  have h₁ := byteNat_lt t (4 * entry + 1)
  have h₂ := byteNat_lt t (4 * entry + 2)
  have hmask : ∀ n : Nat, n &&& 0x0fffffff = n % 2 ^ 28 :=
    fun n => Nat.and_two_pow_sub_one_eq_mod n 28
  have hp : entry <<< 2 = 4 * entry := by
    omega
  simp only [entRaw, FatBits.entOffset, hp, hmask]
  rw [Nat.or_assoc, Nat.or_assoc, shiftLeft_or (n := 8) (by omega),
    shiftLeft_or (n := 16) (by omega), shiftLeft_or (n := 24) (by omega)]
  omega

lemma entRaw_congr {bits : FatBits} {t t' : Table} {e : Nat} (h : ∀ k < bits.entSize,
    byteNat t' (bits.entOffset e + k) = byteNat t (bits.entOffset e + k)) :
    entRaw bits t' e = entRaw bits t e := by
  have h₀ : byteNat t' (bits.entOffset e) = byteNat t (bits.entOffset e) :=
    h 0 (by cases bits <;> decide)
  cases bits with
  | fat12 | fat16 => simp only [entRaw, h₀, h 1 (by decide)]
  | fat32 => simp only [entRaw, h₀, h 1 (by decide), h 2 (by decide), h 3 (by decide)]

/-! ### What a write does -/

/-- The numbers an entry can hold. -/
def FatBits.limit : FatBits → Nat
  | .fat12 => 2 ^ 12
  | .fat16 => 2 ^ 16
  | .fat32 => 2 ^ 28

variable {new e e' : Nat} {bits : FatBits}

lemma byteNat_entPutRaw_fat12 (e : Nat) (hnew : new < 2 ^ 12) (i : Nat) :
    byteNat (entPutRaw .fat12 t e new) i =
      if i = e + e / 2 + 1 then
        if e % 2 = 1 then new / 16 else byteNat t (e + e / 2 + 1) / 16 * 16 + new / 256
      else if i = e + e / 2 then
        if e % 2 = 1 then new % 16 * 16 + byteNat t (e + e / 2) % 16 else new % 256
      else byteNat t i := by
  have h₁ := byteNat_lt t (e + e / 2 + 1)
  have hlow : ∀ n : Nat, n &&& 0x0f = n % 16 := fun n => Nat.and_two_pow_sub_one_eq_mod n 4
  have hbyte : ∀ n : Nat, n &&& 0xff = n % 256 := fun n => Nat.and_two_pow_sub_one_eq_mod n 8
  simp only [entPutRaw, FatBits.entOffset, Nat.shiftRight_eq_div_pow, pow_one, hlow,
    hbyte, and_f0 h₁]
  split
  · rw [byteNat_setByte, byteNat_setByte, shiftLeft_or (by omega)]
    split_ifs <;> omega
  · rw [byteNat_setByte, byteNat_setByte, shiftLeft_or (by omega)]
    split_ifs <;> omega

lemma byteNat_entPutRaw_fat16 (e : Nat) (hnew : new < 2 ^ 16) (i : Nat) :
    byteNat (entPutRaw .fat16 t e new) i =
      if i = 2 * e + 1 then new / 256 else if i = 2 * e then new % 256 else byteNat t i := by
  have hp : e <<< 1 = 2 * e := by
    omega
  simp only [entPutRaw, FatBits.entOffset, hp, Nat.shiftRight_eq_div_pow, byteNat_setByte]
  split_ifs <;> omega

lemma byteNat_entPutRaw_fat32 (e : Nat) (hnew : new < 2 ^ 28) (i : Nat) :
    byteNat (entPutRaw .fat32 t e new) i =
      if i = 4 * e + 3 then byteNat t (4 * e + 3) / 16 * 16 + new / 2 ^ 24
      else if i = 4 * e + 2 then new / 2 ^ 16 % 256
      else if i = 4 * e + 1 then new / 2 ^ 8 % 256
      else if i = 4 * e then new % 256 else byteNat t i := by
  have h₃ := byteNat_lt t (4 * e + 3)
  have hp : e <<< 2 = 4 * e := by
    omega
  have hword : new ||| (byteNat t (4 * e + 3) &&& 0xf0) <<< 24 =
      byteNat t (4 * e + 3) / 16 * 2 ^ 28 + new := by
    rw [and_f0 h₃, ← Nat.shiftLeft_add, Nat.or_comm, shiftLeft_or hnew]
  simp only [entPutRaw, FatBits.entOffset, hp, hword, Nat.shiftRight_eq_div_pow, byteNat_setByte]
  split_ifs <;> omega

section

variable (bits : FatBits) (t : Table) (e : Nat) (hnew : new < bits.limit)

include hnew

lemma entRaw_entPutRaw_self :
    entRaw bits (entPutRaw bits t e new) e = new := by
  cases bits with
  | fat12 =>
    have hnew : new < 2 ^ 12 := hnew
    simp only [entRaw_fat12, byteNat_entPutRaw_fat12 t e hnew]
    split_ifs <;> omega
  | fat16 =>
    simp only [entRaw_fat16, byteNat_entPutRaw_fat16 t e hnew]
    split_ifs <;> omega
  | fat32 =>
    have hnew : new < 2 ^ 28 := hnew
    simp only [entRaw_fat32, byteNat_entPutRaw_fat32 t e hnew]
    split_ifs <;> omega

lemma byteNat_entPutRaw_of_ne {i : Nat}
    (hi : i < bits.entOffset e ∨ bits.entOffset e + bits.entSize ≤ i) :
    byteNat (entPutRaw bits t e new) i = byteNat t i := by
  cases bits with
  | fat12 =>
    simp only [FatBits.entOffset, Nat.shiftRight_eq_div_pow, pow_one, FatBits.entSize] at hi
    rw [byteNat_entPutRaw_fat12 t e hnew, if_neg (by omega), if_neg (by omega)]
  | fat16 =>
    simp only [FatBits.entOffset, Nat.shiftLeft_eq, FatBits.entSize] at hi
    rw [byteNat_entPutRaw_fat16 t e hnew, if_neg (by omega), if_neg (by omega)]
  | fat32 =>
    simp only [FatBits.entOffset, Nat.shiftLeft_eq, FatBits.entSize] at hi
    rw [byteNat_entPutRaw_fat32 t e hnew, if_neg (by omega), if_neg (by omega), if_neg (by omega),
      if_neg (by omega)]

end

/-- Entries of twelve bits: the half of a shared byte that belongs to the neighbour is kept. -/
lemma entRaw_entPutRaw_fat12_of_ne (hne : e' ≠ e) (hnew : new < 2 ^ 12) :
    entRaw .fat12 (entPutRaw .fat12 t e new) e' = entRaw .fat12 t e' := by
  have hput := byteNat_entPutRaw_fat12 t e hnew
  by_cases hnext : e' = e + 1 ∧ e % 2 = 0
  · have hshared : e' + e' / 2 = e + e / 2 + 1 := by omega
    simp only [entRaw_fat12]
    rw [if_pos (by omega), if_pos (by omega), hput, hput, if_pos hshared, if_neg (by omega),
      if_neg (by omega), if_neg (by omega), hshared]
    omega
  · by_cases hprev : e = e' + 1 ∧ e % 2 = 1
    · have hshared : e' + e' / 2 + 1 = e + e / 2 := by omega
      simp only [entRaw_fat12]
      rw [if_neg (by omega), if_neg (by omega), hput, hput, if_neg (by omega), if_pos hshared,
        if_pos hprev.2, if_neg (by omega), if_neg (by omega), hshared]
      omega
    · refine entRaw_congr fun k hk => byteNat_entPutRaw_of_ne .fat12 t e hnew ?_
      simp only [FatBits.entOffset, Nat.shiftRight_eq_div_pow, pow_one, FatBits.entSize] at hk ⊢
      omega

/-- No other entry changes, not even one that shares a byte. -/
lemma entRaw_entPutRaw_of_ne (bits : FatBits) (t : Table) (hne : e' ≠ e) (hnew : new < bits.limit) :
    entRaw bits (entPutRaw bits t e new) e' = entRaw bits t e' := by
  cases bits with
  | fat12 => exact entRaw_entPutRaw_fat12_of_ne t hne hnew
  | fat16 | fat32 =>
    refine entRaw_congr fun k hk => byteNat_entPutRaw_of_ne _ t e hnew ?_
    simp only [FatBits.entOffset, Nat.shiftLeft_eq, FatBits.entSize] at hk ⊢
    omega

/-! ### `ent_get` after `ent_put` -/

/-- What may be written: a link below the bad mark, or the end of a chain. -/
def FatBits.Storable (bits : FatBits) (new : Nat) : Prop := new < bits.bad ∨ new = FAT_ENT_EOF

lemma FatBits.bad_lt_limit (bits : FatBits) : bits.bad < bits.limit := by
  cases bits <;> decide

lemma FatBits.bad_le_eof (bits : FatBits) : bits.bad ≤ FAT_ENT_EOF := by
  cases bits <;> decide

/-- The number that is written for a storable value. -/
lemma FatBits.Storable.lt_limit (h : bits.Storable new) :
    (if new = FAT_ENT_EOF then bits.eof else new) < bits.limit := by
  split
  · cases bits <;> decide
  · next hne => exact (h.resolve_right hne).trans bits.bad_lt_limit

lemma entGet_entPut_self (e : Nat) (h : bits.Storable new) :
    entGet bits (entPut bits t e new) e = new := by
  simp only [entGet, entPut, entRaw_entPutRaw_self bits t e h.lt_limit]
  by_cases heof : new = FAT_ENT_EOF
  · rw [heof]
    cases bits <;> rfl
  · have hlt := h.resolve_right heof
    rw [if_neg heof, if_neg (by omega)]

lemma entGet_entPut_of_ne (hne : e' ≠ e) (h : bits.Storable new) :
    entGet bits (entPut bits t e new) e' = entGet bits t e' := by
  simp only [entGet, entPut, entRaw_entPutRaw_of_ne bits t hne h.lt_limit]

end R0Kernel.Fat
