import Mathlib

/-!
# The Hamming code of NAND pages

The model of `nand_calculate_ecc` and `nand_correct_data` for a block of 256 bytes. The memory from
`dat` on is a map, so that a store past the block would be seen. `smc` says whether
`CONFIG_MTD_NAND_ECC_SMC` is set.
-/

namespace R0Kernel.NandEcc

open Function

abbrev Byte := BitVec 8

abbrev Ecc := Fin 3 → Byte

def nandEccPrecalcTable : List Byte :=
  [0x00, 0x55, 0x56, 0x03, 0x59, 0x0c, 0x0f, 0x5a, 0x5a, 0x0f, 0x0c, 0x59, 0x03, 0x56, 0x55, 0x00,
   0x65, 0x30, 0x33, 0x66, 0x3c, 0x69, 0x6a, 0x3f, 0x3f, 0x6a, 0x69, 0x3c, 0x66, 0x33, 0x30, 0x65,
   0x66, 0x33, 0x30, 0x65, 0x3f, 0x6a, 0x69, 0x3c, 0x3c, 0x69, 0x6a, 0x3f, 0x65, 0x30, 0x33, 0x66,
   0x03, 0x56, 0x55, 0x00, 0x5a, 0x0f, 0x0c, 0x59, 0x59, 0x0c, 0x0f, 0x5a, 0x00, 0x55, 0x56, 0x03,
   0x69, 0x3c, 0x3f, 0x6a, 0x30, 0x65, 0x66, 0x33, 0x33, 0x66, 0x65, 0x30, 0x6a, 0x3f, 0x3c, 0x69,
   0x0c, 0x59, 0x5a, 0x0f, 0x55, 0x00, 0x03, 0x56, 0x56, 0x03, 0x00, 0x55, 0x0f, 0x5a, 0x59, 0x0c,
   0x0f, 0x5a, 0x59, 0x0c, 0x56, 0x03, 0x00, 0x55, 0x55, 0x00, 0x03, 0x56, 0x0c, 0x59, 0x5a, 0x0f,
   0x6a, 0x3f, 0x3c, 0x69, 0x33, 0x66, 0x65, 0x30, 0x30, 0x65, 0x66, 0x33, 0x69, 0x3c, 0x3f, 0x6a,
   0x6a, 0x3f, 0x3c, 0x69, 0x33, 0x66, 0x65, 0x30, 0x30, 0x65, 0x66, 0x33, 0x69, 0x3c, 0x3f, 0x6a,
   0x0f, 0x5a, 0x59, 0x0c, 0x56, 0x03, 0x00, 0x55, 0x55, 0x00, 0x03, 0x56, 0x0c, 0x59, 0x5a, 0x0f,
   0x0c, 0x59, 0x5a, 0x0f, 0x55, 0x00, 0x03, 0x56, 0x56, 0x03, 0x00, 0x55, 0x0f, 0x5a, 0x59, 0x0c,
   0x69, 0x3c, 0x3f, 0x6a, 0x30, 0x65, 0x66, 0x33, 0x33, 0x66, 0x65, 0x30, 0x6a, 0x3f, 0x3c, 0x69,
   0x03, 0x56, 0x55, 0x00, 0x5a, 0x0f, 0x0c, 0x59, 0x59, 0x0c, 0x0f, 0x5a, 0x00, 0x55, 0x56, 0x03,
   0x66, 0x33, 0x30, 0x65, 0x3f, 0x6a, 0x69, 0x3c, 0x3c, 0x69, 0x6a, 0x3f, 0x65, 0x30, 0x33, 0x66,
   0x65, 0x30, 0x33, 0x66, 0x3c, 0x69, 0x6a, 0x3f, 0x3f, 0x6a, 0x69, 0x3c, 0x66, 0x33, 0x30, 0x65,
   0x00, 0x55, 0x56, 0x03, 0x59, 0x0c, 0x0f, 0x5a, 0x5a, 0x0f, 0x0c, 0x59, 0x03, 0x56, 0x55, 0x00]

def tableAt (x : Byte) : Byte := nandEccPrecalcTable.getD x.toNat 0

def mask (n : Nat) : Byte := 1#8 <<< n

/-! ### The code of a block -/

/-- The registers of `nand_calculate_ecc`: the column parity, and the line parity of the byte
numbers inverted and not. -/
structure Parity where
  reg1 : Byte
  reg2 : Byte
  reg3 : Byte

/-- One round of the loop over the bytes. -/
def addByte (r : Parity) (i : Nat) (dat : Byte) : Parity :=
  let idx := tableAt dat
  let reg1 := r.reg1 ^^^ (idx &&& 0x3f)
  if idx &&& 0x40 ≠ 0 then
    ⟨reg1, r.reg2 ^^^ ~~~BitVec.ofNat 8 i, r.reg3 ^^^ BitVec.ofNat 8 i⟩
  else ⟨reg1, r.reg2, r.reg3⟩

/-- The registers after the first `n` bytes. -/
def parity (dat : Nat → Byte) : Nat → Parity
  | 0 => ⟨0, 0, 0⟩
  | n + 1 => addByte (parity dat n) n (dat n)

/-- `tmp1` -/
def lineHigh (reg3 reg2 : Byte) : Byte :=
  (reg3 &&& 0x80) >>> 0 ||| (reg2 &&& 0x80) >>> 1 ||| (reg3 &&& 0x40) >>> 1 |||
    (reg2 &&& 0x40) >>> 2 ||| (reg3 &&& 0x20) >>> 2 ||| (reg2 &&& 0x20) >>> 3 |||
    (reg3 &&& 0x10) >>> 3 ||| (reg2 &&& 0x10) >>> 4

/-- `tmp2` -/
def lineLow (reg3 reg2 : Byte) : Byte :=
  (reg3 &&& 0x08) <<< 4 ||| (reg2 &&& 0x08) <<< 3 ||| (reg3 &&& 0x04) <<< 3 |||
    (reg2 &&& 0x04) <<< 2 ||| (reg3 &&& 0x02) <<< 2 ||| (reg2 &&& 0x02) <<< 1 |||
    (reg3 &&& 0x01) <<< 1 ||| (reg2 &&& 0x01) <<< 0

/-- `ecc_code[2]` -/
def columnCode (reg1 : Byte) : Byte := (~~~reg1) <<< 2 ||| 0x03

def nandCalculateEcc (smc : Bool) (dat : Nat → Byte) : Ecc :=
  let r := parity dat 256
  let tmp1 := lineHigh r.reg3 r.reg2
  let tmp2 := lineLow r.reg3 r.reg2
  if smc then ![~~~tmp2, ~~~tmp1, columnCode r.reg1] else ![~~~tmp1, ~~~tmp2, columnCode r.reg1]

/-! ### Correcting a block -/

/-- The loop of `countbits`; after 32 rounds nothing is left of the word. -/
def countbitsLoop : Nat → BitVec 32 → Nat
  | 0, _ => 0
  | fuel + 1, byte => if byte = 0 then 0 else (byte &&& 0x01).toNat +
    countbitsLoop fuel (byte >>> 1)

def countbits (byte : BitVec 32) : Nat := countbitsLoop 32 byte

def byteOffset (s1 s0 : Byte) : BitVec 32 :=
  let s1 := s1.setWidth 32
  let s0 := s0.setWidth 32
  s1 <<< 0 &&& 0x80 ||| s1 <<< 1 &&& 0x40 ||| s1 <<< 2 &&& 0x20 ||| s1 <<< 3 &&& 0x10 |||
    s0 >>> 4 &&& 0x08 ||| s0 >>> 3 &&& 0x04 ||| s0 >>> 2 &&& 0x02 ||| s0 >>> 1 &&& 0x01

def bitNumber (s2 : Byte) : BitVec 32 :=
  let s2 := s2.setWidth 32
  s2 >>> 5 &&& 0x04 ||| s2 >>> 4 &&& 0x02 ||| s2 >>> 3 &&& 0x01

def ebadmsg : Int := 74

/-- `nand_correct_data` from the differences of the codes on -/
def correctSyndrome (dat : Nat → Byte) (s0 s1 s2 : Byte) : (Nat → Byte) × Int :=
  if s0 ||| s1 ||| s2 = 0 then (dat, 0)
  else if (s0 ^^^ s0 >>> 1) &&& 0x55 = 0x55 ∧ (s1 ^^^ s1 >>> 1) &&& 0x55 = 0x55 ∧
      (s2 ^^^ s2 >>> 1) &&& 0x54 = 0x54 then
    let byteoffs := (byteOffset s1 s0).toNat
    (update dat byteoffs (dat byteoffs ^^^ mask (bitNumber s2).toNat), 1)
  else if countbits (s0.setWidth 32 ||| s1.setWidth 32 <<< 8 ||| s2.setWidth 32 <<< 16) = 1 then
    (dat, 1)
  else (dat, -ebadmsg)

def nandCorrectData (smc : Bool) (dat : Nat → Byte) (readEcc calcEcc : Ecc) : (Nat → Byte) × Int :=
  let s (k : Fin 3) := calcEcc k ^^^ readEcc k
  if smc then correctSyndrome dat (s 0) (s 1) (s 2) else correctSyndrome dat (s 1) (s 0) (s 2)

/-! ### Linearity -/

lemma xor_and (x y m : Byte) : (x ^^^ y) &&& m = x &&& m ^^^ y &&& m := by
  ext i
  simp [Bool.and_xor_distrib_right]

/-- The table entries of the bytes with a single bit. -/
def column : Fin 8 → Byte := ![0x55, 0x56, 0x59, 0x5a, 0x65, 0x66, 0x69, 0x6a]

def columnSum (x : Byte) : List (Fin 8) → Byte
  | [] => 0
  | b :: bs => (if x.getLsbD b.val then column b else 0) ^^^ columnSum x bs

lemma columnSum_xor (x y : Byte) (bs : List (Fin 8)) :
    columnSum (x ^^^ y) bs = columnSum x bs ^^^ columnSum y bs := by
  induction bs with
  | nil => simp [columnSum]
  | cons b bs ih =>
    rw [columnSum, columnSum, columnSum, ih, BitVec.getLsbD_xor]
    have hbit : ∀ p q : Bool, (if p ^^ q then column b else 0) =
        (if p then column b else 0) ^^^ if q then column b else 0 := by
      decide +revert
    rw [hbit]
    ac_rfl

variable (x : Byte) (b : Fin 8) (dat : Nat → Byte) (flips : List Pos) (smc : Bool) (n : Nat)

/-- Every entry of the table is the sum of the entries of its bits. -/
lemma tableAt_eq_columnSum : tableAt x = columnSum x (List.finRange 8) := by
  decide +revert +kernel

lemma tableAt_xor (x y : Byte) : tableAt (x ^^^ y) = tableAt x ^^^ tableAt y := by
  rw [tableAt_eq_columnSum, tableAt_eq_columnSum x, tableAt_eq_columnSum y, columnSum_xor]

/-- The sum of two states of the registers. -/
def Parity.add (r q : Parity) : Parity := ⟨r.reg1 ^^^ q.reg1, r.reg2 ^^^ q.reg2, r.reg3 ^^^ q.reg3⟩

def bitParity (i : Fin 256) (b : Fin 8) : Parity :=
  ⟨column b &&& 0x3f, ~~~BitVec.ofNat 8 i, BitVec.ofNat 8 i⟩

def flipData (dat : Nat → Byte) (i : Fin 256) (b : Fin 8) : Nat → Byte :=
  update dat i (dat i ^^^ mask b)

lemma tableAt_mask : tableAt (mask b) = column b := by
  decide +revert +kernel

lemma odd_column : column b &&& 0x40 = 0x40 := by
  decide +revert +kernel

lemma xor_and_ne_zero (t u : Byte) (hu : u &&& 0x40 = 0x40) :
    (t ^^^ u) &&& 0x40 ≠ 0 ↔ ¬ (t &&& 0x40 ≠ 0) := by
  rw [xor_and, hu]
  have hbit : t &&& 0x40 = 0 ∨ t &&& 0x40 = 0x40 := by
    revert t
    decide +kernel
  rcases hbit with hbit | hbit
  · rw [hbit]
    decide
  · rw [hbit]
    decide

lemma addByte_flip (r : Parity) (i : Fin 256) (b : Fin 8) (x : Byte) :
    addByte r i (x ^^^ mask b) = (addByte r i x).add (bitParity i b) := by
  have htable := tableAt_xor x (mask b)
  rw [tableAt_mask] at htable
  have hodd := xor_and_ne_zero (tableAt x) _ (odd_column b)
  rw [← htable] at hodd
  simp only [addByte]
  by_cases hx : tableAt x &&& 0x40 ≠ 0
  · rw [if_neg (fun h => hodd.mp h hx), if_pos hx]
    simp [Parity.add, bitParity, htable, xor_and, BitVec.xor_assoc]
  · rw [if_pos (hodd.mpr hx), if_neg hx]
    simp [Parity.add, bitParity, htable, xor_and, BitVec.xor_assoc]

lemma addByte_add (r q : Parity) (i : Nat) (x : Byte) :
    addByte (r.add q) i x = (addByte r i x).add q := by
  rw [addByte, addByte]
  split
  · simp only [Parity.add, Parity.mk.injEq]
    exact ⟨by ac_rfl, by ac_rfl, by ac_rfl⟩
  · simp only [Parity.add, Parity.mk.injEq, and_true]
    ac_rfl

lemma parity_flip (i : Fin 256) (b : Fin 8) (n : Nat) :
    parity (flipData dat i b) n =
      if i.val < n then (parity dat n).add (bitParity i b) else parity dat n := by
  induction n with
  | zero => rfl
  | succ n ih =>
    rw [parity, parity, ih]
    rcases Nat.lt_trichotomy i n with hlt | heq | hgt
    · have hsame : flipData dat i b n = dat n := update_of_ne hlt.ne' _ _
      rw [if_pos hlt, if_pos (Nat.lt_succ_of_lt hlt), hsame, addByte_add]
    · have hflip : flipData dat i b n = dat n ^^^ mask b := by
        rw [flipData, heq, update_self]
      rw [if_neg (Nat.not_lt.mpr heq.ge), if_pos (Nat.lt_succ_of_le heq.le), hflip, ← heq,
        addByte_flip]
    · have hsame : flipData dat i b n = dat n := update_of_ne hgt.ne _ _
      rw [if_neg (Nat.not_lt.mpr hgt.le), if_neg (by omega), hsame]

lemma not_xor_not (x y : Byte) : ~~~x ^^^ ~~~y = x ^^^ y := by
  ext i
  simp

lemma lineHigh_xor (x x' y y' : Byte) :
    lineHigh (x ^^^ x') (y ^^^ y') = lineHigh x y ^^^ lineHigh x' y' := by
  ext i hi
  interval_cases i <;> simp [lineHigh]

lemma lineLow_xor (x x' y y' : Byte) :
    lineLow (x ^^^ x') (y ^^^ y') = lineLow x y ^^^ lineLow x' y' := by
  ext i hi
  interval_cases i <;> simp [lineLow]

lemma columnCode_xor (x y : Byte) : columnCode (x ^^^ y) ^^^ columnCode x = y <<< 2 := by
  have hcancel : ∀ a b : Bool, (a != (b != a)) = b := by decide
  ext i hi
  interval_cases i <;> simp [columnCode, hcancel]

/-! ### The differences of the codes -/

/-- The place of a flipped bit, in the block or in its code. -/
inductive Pos where
  | data (i : Fin 256) (b : Fin 8)
  | code (k : Fin 3) (b : Fin 8)
  deriving DecidableEq

def flipCode (ecc : Ecc) (k : Fin 3) (b : Fin 8) : Ecc := update ecc k (ecc k ^^^ mask b)

/-- A block and a code with the bits at some places flipped. -/
def corrupt : List Pos → (Nat → Byte) → Ecc → (Nat → Byte) × Ecc
  | [], dat, ecc => (dat, ecc)
  | .data i b :: flips, dat, ecc => corrupt flips (flipData dat i b) ecc
  | .code k b :: flips, dat, ecc => corrupt flips dat (flipCode ecc k b)

/-- What the flipped bits of the block contribute to the registers. -/
def dataSum : List Pos → Parity
  | [] => ⟨0#8, 0#8, 0#8⟩
  | .data i b :: flips => (bitParity i b).add (dataSum flips)
  | .code _ _ :: flips => dataSum flips

def codeSum : List Pos → Ecc
  | [] => fun _ => 0#8
  | .data _ _ :: flips => codeSum flips
  | .code k b :: flips => fun j => (if j = k then mask b else 0#8) ^^^ codeSum flips j

lemma parity_corrupt (dat : Nat → Byte) (ecc : Ecc) :
    parity (corrupt flips dat ecc).1 256 = (parity dat 256).add (dataSum flips) := by
  induction flips generalizing dat ecc with
  | nil => simp [corrupt, dataSum, Parity.add]
  | cons pos flips ih =>
    cases pos with
    | data i b =>
      rw [corrupt, ih, parity_flip]
      simp [dataSum, Parity.add, BitVec.xor_assoc]
    | code k b => rw [corrupt, ih, dataSum]

lemma ecc_corrupt (dat : Nat → Byte) (ecc : Ecc) (j : Fin 3) :
    (corrupt flips dat ecc).2 j = ecc j ^^^ codeSum flips j := by
  induction flips generalizing dat ecc with
  | nil => simp [corrupt, codeSum]
  | cons pos flips ih =>
    cases pos with
    | data i b => rw [corrupt, ih, codeSum]
    | code k b =>
      rw [corrupt, ih, codeSum, flipCode]
      by_cases hj : j = k
      · simp [hj, BitVec.xor_assoc]
      · simp [hj]

/-- What `nand_correct_data` does with a block and a code that were corrupted. -/
def recover (smc : Bool) (dat : Nat → Byte) (flips : List Pos) : (Nat → Byte) × Int :=
  let (dat', ecc') := corrupt flips dat (nandCalculateEcc smc dat)
  nandCorrectData smc dat' ecc' (nandCalculateEcc smc dat')

def lowByte (smc : Bool) : Fin 3 := if smc then 0 else 1

def highByte (smc : Bool) : Fin 3 := if smc then 1 else 0

/-- The differences depend on the flipped bits only. -/
lemma recover_eq (dat : Nat → Byte) (flips : List Pos) :
    recover smc dat flips =
      correctSyndrome (corrupt flips dat (nandCalculateEcc smc dat)).1
        (lineLow (dataSum flips).reg3 (dataSum flips).reg2 ^^^ codeSum flips (lowByte smc))
        (lineHigh (dataSum flips).reg3 (dataSum flips).reg2 ^^^ codeSum flips (highByte smc))
        ((dataSum flips).reg1 <<< 2 ^^^ codeSum flips 2) := by
  have hshift : ∀ x y z : Byte, x ^^^ (y ^^^ z) = x ^^^ y ^^^ z := fun x y z =>
    (BitVec.xor_assoc x y z).symm
  have hparity := parity_corrupt flips dat (nandCalculateEcc smc dat)
  have hecc := ecc_corrupt flips dat (nandCalculateEcc smc dat)
  rw [recover]
  generalize corrupt flips dat (nandCalculateEcc smc dat) = block at hparity hecc
  dsimp only at hparity hecc ⊢
  cases smc <;>
    simp [nandCorrectData, hecc, nandCalculateEcc, hparity, Parity.add, lowByte, highByte, hshift,
      not_xor_not, lineLow_xor, lineHigh_xor, columnCode_xor]

/-! ### Counting bits -/

/-- How many of the first `n` bits are set. -/
def bitCount (bit : Nat → Bool) : Nat → Nat
  | 0 => 0
  | n + 1 => (bit 0).toNat + bitCount (fun i => bit (i + 1)) n

def weight (x : Byte) : Nat := bitCount x.getLsbD 8

lemma bitCount_congr {bit bit' : Nat → Bool} {n : Nat} (h : ∀ i < n, bit i = bit' i) :
    bitCount bit n = bitCount bit' n := by
  induction n generalizing bit bit' with
  | zero => rfl
  | succ n ih =>
    rw [bitCount, bitCount, h 0 (Nat.succ_pos n), ih fun i hi => h (i + 1) (Nat.succ_lt_succ hi)]

lemma bitCount_zero : bitCount (fun _ => false) n = 0 := by
  induction n with
  | zero => rfl
  | succ n ih => rw [bitCount, ih]; rfl

lemma bitCount_add (bit : Nat → Bool) (m n : Nat) :
    bitCount bit (m + n) = bitCount bit m + bitCount (fun i => bit (m + i)) n := by
  induction m generalizing bit with
  | zero => simp [bitCount]
  | succ m ih =>
    have hshift : (fun i => bit (m + 1 + i)) = fun i => bit (m + i + 1) := by
      ext i
      rw [Nat.add_right_comm]
    rw [Nat.add_right_comm, bitCount, ih, bitCount, hshift, Nat.add_assoc]

lemma countbitsLoop_eq (w : BitVec 32) : countbitsLoop n w = bitCount w.getLsbD n := by
  induction n generalizing w with
  | zero => rfl
  | succ n ih =>
    rw [countbitsLoop, bitCount]
    by_cases hw : w = 0
    · have hnone : (fun i => w.getLsbD (i + 1)) = fun _ => false := by
        simp [hw]
      rw [hnone, bitCount_zero]
      simp [hw]
    · have hlow : (w &&& 0x01).toNat = (w.getLsbD 0).toNat := by
        rcases Nat.mod_two_eq_zero_or_one w.toNat with hmod | hmod
        · simp [BitVec.getLsbD, Nat.testBit_zero, hmod]
        · simp [BitVec.getLsbD, Nat.testBit_zero, hmod]
      have hshift : (w >>> 1).getLsbD = fun i => w.getLsbD (i + 1) := by
        ext i
        simp [Nat.add_comm]
      rw [if_neg hw, ih, hlow, hshift]

lemma bitCount_append {m n : Nat} (x : BitVec m) (y : BitVec n) :
    bitCount (x ++ y).getLsbD (n + m) = bitCount y.getLsbD n + bitCount x.getLsbD m := by
  rw [bitCount_add]
  congr 1
  · refine bitCount_congr fun i hi => ?_
    simp [BitVec.getLsbD_append, hi]
  · simp [BitVec.getLsbD_append]

lemma countbits_eq (s0 s1 s2 : Byte) :
    countbits (s0.setWidth 32 ||| s1.setWidth 32 <<< 8 ||| s2.setWidth 32 <<< 16) =
      weight s0 + weight s1 + weight s2 := by
  have hbytes : s0.setWidth 32 ||| s1.setWidth 32 <<< 8 ||| s2.setWidth 32 <<< 16 =
      (0#8 ++ s2 ++ s1 ++ s0 : BitVec 32) := by
    grind
  rw [countbits, countbitsLoop_eq, hbytes, bitCount_append (m := 24), bitCount_append (m := 16),
    bitCount_append, ← Nat.add_assoc]
  rfl

/-! ### One and two flipped bits -/

/-- The pairs of bits of a difference that are not the same. -/
def split (s : Byte) : Byte := (s ^^^ s >>> 1) &&& 0x55

/-- The same without the two bits that the code does not use. -/
def splitColumn (s : Byte) : Byte := (s ^^^ s >>> 1) &&& 0x54

lemma xor_pairs (m s e : Byte) :
    (s ^^^ e ^^^ (s ^^^ e) >>> 1) &&& m = (s ^^^ s >>> 1) &&& m ^^^ (e ^^^ e >>> 1) &&& m := by
  rw [← xor_and, BitVec.ushiftRight_xor_distrib]
  ac_rfl

lemma split_xor (s e : Byte) : split (s ^^^ e) = split s ^^^ split e := xor_pairs 0x55 s e

lemma splitColumn_xor (s e : Byte) : splitColumn (s ^^^ e) = splitColumn s ^^^ splitColumn e :=
  xor_pairs 0x54 s e

lemma split_mask_ne_zero : split (mask b) ≠ 0 := by
  decide +revert

lemma splitColumn_mask : splitColumn (mask b) = 0 ↔ b.val < 2 := by
  decide +revert

lemma weight_mask : weight (mask b) = 1 := by
  decide +revert

lemma line_single :
    split (lineLow x (~~~x)) = 0x55 ∧ split (lineHigh x (~~~x)) = 0x55 ∧
      byteOffset (lineHigh x (~~~x)) (lineLow x (~~~x)) = x.setWidth 32 ∧
      weight (lineLow x (~~~x)) = 4 ∧ weight (lineHigh x (~~~x)) = 4 := by
  decide +revert +kernel

/-- The line parity of two flipped bits, `x` being the difference of their bytes. -/
lemma line_double :
    split (lineLow x x) = 0 ∧ Even (weight (lineLow x x)) ∧ Even (weight (lineHigh x x)) ∧
      (weight (lineLow x x) + weight (lineHigh x x) = 0 → x = 0) := by
  decide +revert +kernel

def columnParity (b : Fin 8) : Byte := (column b &&& 0x3f) <<< 2

lemma column_single :
    splitColumn (columnParity b) = 0x54 ∧ (bitNumber (columnParity b)).toNat = b ∧
      weight (columnParity b) = 3 := by
  decide +revert

/-- The two bits of the third code byte that are not used do not matter. -/
lemma bitNumber_unused (b k : Fin 8) (hk : k.val < 2) :
    (bitNumber (columnParity b ^^^ mask k)).toNat = b := by
  decide +revert

lemma column_double (b c : Fin 8) :
    Even (weight (columnParity b ^^^ columnParity c)) ∧
      (weight (columnParity b ^^^ columnParity c) = 0 → b = c) := by
  decide +revert

section Syndrome

variable (dat : Nat → Byte) {s0 s1 s2 : Byte}

lemma eq_zero_of_or (h : s0 ||| s1 ||| s2 = 0) : s0 = 0 ∧ s1 = 0 ∧ s2 = 0 := by
  simpa [BitVec.or_eq_zero_iff, and_assoc] using h

lemma weight_zero : weight 0#8 = 0 := by decide

lemma or_ne_zero_of_weight (h : weight s0 + weight s1 + weight s2 ≠ 0) :
    s0 ||| s1 ||| s2 ≠ 0 := by
  intro hzero
  obtain ⟨rfl, rfl, rfl⟩ := eq_zero_of_or hzero
  exact h rfl

/-- The differences of a single flipped bit of the block. -/
lemma correctSyndrome_single {i : Fin 256} {b : Fin 8} (h0 : split s0 = 0x55)
    (h1 : split s1 = 0x55) (h2 : splitColumn s2 = 0x54)
    (hbyte : byteOffset s1 s0 = BitVec.ofNat 32 i) (hbit : (bitNumber s2).toNat = b) :
    correctSyndrome dat s0 s1 s2 = (flipData dat i b, 1) := by
  have hne : s0 ||| s1 ||| s2 ≠ 0 := by
    intro hzero
    rw [(eq_zero_of_or hzero).1] at h0
    exact absurd h0 (by decide)
  have hi : (BitVec.ofNat 32 i.val).toNat = i := by
    rw [BitVec.toNat_ofNat]
    omega
  rw [correctSyndrome, if_neg hne, if_pos ⟨h0, h1, h2⟩]
  rw [hbyte, hi, hbit]
  rfl

/-- Differences that are not those of a flipped bit of the block leave it alone. -/
lemma correctSyndrome_other (h : ¬ (split s0 = 0x55 ∧ split s1 = 0x55 ∧ splitColumn s2 = 0x54))
    (hweight : weight s0 + weight s1 + weight s2 ≠ 0) :
    correctSyndrome dat s0 s1 s2 =
      (dat, if weight s0 + weight s1 + weight s2 = 1 then 1 else -ebadmsg) := by
  have hsplit : ¬ ((s0 ^^^ s0 >>> 1) &&& 0x55 = 0x55 ∧ (s1 ^^^ s1 >>> 1) &&& 0x55 = 0x55 ∧
      (s2 ^^^ s2 >>> 1) &&& 0x54 = 0x54) := h
  rw [correctSyndrome, if_neg (or_ne_zero_of_weight hweight), if_neg hsplit, countbits_eq]
  split <;> rfl

end Syndrome

lemma flipData_flipData (i : Fin 256) (b : Fin 8) :
    flipData (flipData dat i b) i b = dat := by
  ext1 j
  by_cases hj : j = i
  · simp [flipData, hj]
  · simp [flipData, hj]

lemma shift_column : (column b &&& 0x3f) <<< 2 = columnParity b := rfl

lemma setWidth_byte (i : Fin 256) : (BitVec.ofNat 8 i.val).setWidth 32 = BitVec.ofNat 32 i := by
  apply BitVec.eq_of_toNat_eq
  simp only [BitVec.toNat_setWidth, BitVec.toNat_ofNat]
  omega

lemma weight_mask_xor {b c : Fin 8} (h : b ≠ c) : weight (mask b ^^^ mask c) = 2 := by
  decide +revert

/-- One flipped bit of the code leaves two of the differences zero. -/
lemma codeSum_single (k : Fin 3) (b : Fin 8) :
    let e := codeSum [.code k b]
    (e (lowByte smc) = mask b ∧ e (highByte smc) = 0#8 ∧ e 2 = 0#8) ∨
      (e (lowByte smc) = 0#8 ∧ e (highByte smc) = mask b ∧ e 2 = 0#8) ∨
      (e (lowByte smc) = 0#8 ∧ e (highByte smc) = 0#8 ∧ e 2 = mask b) := by
  cases smc <;> fin_cases k <;> simp [codeSum, lowByte, highByte]

/-- Two flipped bits of the code leave one of the differences zero. -/
lemma codeSum_double {k j : Fin 3} {b c : Fin 8} (hne : Pos.code k b ≠ Pos.code j c) :
    let e := codeSum [.code k b, .code j c]
    (e (lowByte smc) = 0 ∨ e (highByte smc) = 0 ∨ e 2 = 0) ∧
      weight (e (lowByte smc)) + weight (e (highByte smc)) + weight (e 2) = 2 := by
  by_cases hkj : k = j
  · subst hkj
    have hbc : b ≠ c := by
      rintro rfl
      exact hne rfl
    cases smc <;> fin_cases k <;>
      simp [codeSum, lowByte, highByte, weight_zero, weight_mask_xor hbc]
  · cases smc <;> fin_cases k <;> fin_cases j <;>
      simp_all [codeSum, lowByte, highByte, weight_zero, weight_mask]

lemma not_split_of_zero {s0 s1 s2 : Byte} (h : s0 = 0 ∨ s1 = 0 ∨ s2 = 0) :
    ¬ (split s0 = 0x55 ∧ split s1 = 0x55 ∧ splitColumn s2 = 0x54) := by
  rintro ⟨h0, h1, h2⟩
  rcases h with rfl | rfl | rfl
  · exact absurd h0 (by decide)
  · exact absurd h1 (by decide)
  · exact absurd h2 (by decide)

section Recover

variable (smc : Bool) (dat : Nat → Byte) (i : Fin 256)

lemma recover_none : recover smc dat [] = (dat, 0) := by
  simp [recover_eq, dataSum, codeSum, corrupt, correctSyndrome, lineLow, lineHigh]

lemma recover_data (b : Fin 8) : recover smc dat [.data i b] = (dat, 1) := by
  obtain ⟨hlow, hhigh, hbyte, -, -⟩ := line_single (BitVec.ofNat 8 i)
  obtain ⟨hcol, hbit, -⟩ := column_single b
  rw [setWidth_byte] at hbyte
  have hfix := correctSyndrome_single (flipData dat i b) hlow hhigh hcol hbyte hbit
  rw [flipData_flipData] at hfix
  simpa [recover_eq, dataSum, codeSum, corrupt, Parity.add, bitParity, columnParity] using hfix

lemma recover_codes {flips : List Pos} (hsum : dataSum flips = ⟨0, 0, 0⟩)
    (hdat : (corrupt flips dat (nandCalculateEcc smc dat)).1 = dat)
    (hzero : codeSum flips (lowByte smc) = 0 ∨ codeSum flips (highByte smc) = 0 ∨
      codeSum flips 2 = 0)
    {n : Nat} (hn : n ≠ 0) (hweight : weight (codeSum flips (lowByte smc)) +
      weight (codeSum flips (highByte smc)) + weight (codeSum flips 2) = n) :
    recover smc dat flips = (dat, if n = 1 then 1 else -ebadmsg) := by
  have hother := correctSyndrome_other dat (not_split_of_zero hzero) (hweight ▸ hn)
  rw [hweight] at hother
  rw [← hother]
  simp [recover_eq, hsum, hdat, lineLow, lineHigh]

lemma recover_code (k : Fin 3) (b : Fin 8) : recover smc dat [.code k b] = (dat, 1) := by
  have hsingle := codeSum_single smc k b
  apply recover_codes smc dat rfl rfl (n := 1)
  · tauto
  · exact Nat.one_ne_zero
  · rcases hsingle with ⟨h0, h1, h2⟩ | ⟨h0, h1, h2⟩ | ⟨h0, h1, h2⟩ <;>
      simp [h0, h1, h2, weight_mask, weight_zero]

lemma recover_code_code {k j : Fin 3} {b c : Fin 8} (hne : Pos.code k b ≠ .code j c) :
    recover smc dat [.code k b, .code j c] = (dat, -ebadmsg) := by
  obtain ⟨hzero, hweight⟩ := codeSum_double smc hne
  exact recover_codes smc dat rfl rfl hzero two_ne_zero hweight

lemma recover_data_data {i j : Fin 256} {b c : Fin 8} (hne : Pos.data i b ≠ .data j c) :
    recover smc dat [.data i b, .data j c] = (flipData (flipData dat i b) j c, -ebadmsg) := by
  have hsame : ~~~BitVec.ofNat 8 i.val ^^^ ~~~BitVec.ofNat 8 j.val =
      BitVec.ofNat 8 i ^^^ BitVec.ofNat 8 j := not_xor_not _ _
  have hbytes : BitVec.ofNat 8 i.val ^^^ BitVec.ofNat 8 j = 0 → i = j := by
    intro hzero
    have hnat := congrArg BitVec.toNat (BitVec.xor_eq_zero_iff.mp hzero)
    simp only [BitVec.toNat_ofNat] at hnat
    omega
  simp only [recover_eq, dataSum, codeSum, corrupt, Parity.add, bitParity, BitVec.xor_zero, hsame,
    BitVec.shiftLeft_xor_distrib, shift_column]
  generalize BitVec.ofNat 8 i.val ^^^ BitVec.ofNat 8 j = x at hbytes
  obtain ⟨hlow, hevenLow, hevenHigh, hline⟩ := line_double x
  obtain ⟨hevenCol, hcol⟩ := column_double b c
  have heven : Even (weight (lineLow x x) + weight (lineHigh x x) +
      weight (columnParity b ^^^ columnParity c)) := (hevenLow.add hevenHigh).add hevenCol
  -- all differences are zero only for one and the same bit
  have hweight : weight (lineLow x x) + weight (lineHigh x x) +
      weight (columnParity b ^^^ columnParity c) ≠ 0 := by
    intro hzero
    apply hne
    rw [hbytes (hline (by omega)), hcol (by omega)]
  rw [correctSyndrome_other _ (fun h => ?_) hweight, if_neg]
  · intro hone
    rw [hone] at heven
    exact absurd heven (by decide)
  · rw [hlow] at h
    exact absurd h.1 (by decide)

lemma xor_ne_self {u v : Byte} (hv : v ≠ 0) : u ^^^ v ≠ u := by
  intro heq
  apply hv
  have hself := congrArg (u ^^^ ·) heq
  simpa [← BitVec.xor_assoc] using hself

/-- A flipped bit of the block and one of the code: only a bit that the code does not use goes
unnoticed, and then the block is corrected. -/
lemma correctSyndrome_data_code (b : Fin 8) (k : Fin 3) (c : Fin 8) {x : Byte}
    (hx : x = BitVec.ofNat 8 i) {res : (Nat → Byte) × Int}
    (hres : res = correctSyndrome (flipData dat i b)
      (lineLow x (~~~x) ^^^ codeSum [.code k c] (lowByte smc))
      (lineHigh x (~~~x) ^^^ codeSum [.code k c] (highByte smc))
      (columnParity b ^^^ codeSum [.code k c] 2)) :
    res = (flipData dat i b, -ebadmsg) ∨ res = (dat, 1) := by
  obtain ⟨hlow, hhigh, hbyte, hwlow, hwhigh⟩ := line_single x
  obtain ⟨hcol, hbit, hwcol⟩ := column_single b
  rw [hx, setWidth_byte, ← hx] at hbyte
  rcases codeSum_single smc k c with ⟨h0, h1, h2⟩ | ⟨h0, h1, h2⟩ | ⟨h0, h1, h2⟩
  · left
    rw [h0, h1, BitVec.xor_zero] at hres
    rw [hres, correctSyndrome_other, if_neg (by omega)]
    · rw [split_xor, hlow]
      exact fun h => xor_ne_self (split_mask_ne_zero c) h.1
    · omega
  · left
    rw [h0, h1, BitVec.xor_zero] at hres
    rw [hres, correctSyndrome_other, if_neg (by omega)]
    · rw [split_xor (lineHigh x _), hhigh]
      exact fun h => xor_ne_self (split_mask_ne_zero c) h.2.1
    · omega
  · rw [h0, h1, h2, BitVec.xor_zero, BitVec.xor_zero] at hres
    by_cases hunused : c.val < 2
    · right
      have hcol' : splitColumn (columnParity b ^^^ mask c) = 0x54 := by
        rw [splitColumn_xor, hcol, (splitColumn_mask c).mpr hunused]
        rfl
      rw [hres, correctSyndrome_single _ hlow hhigh hcol' hbyte (bitNumber_unused b c hunused),
        flipData_flipData]
    · left
      rw [hres, correctSyndrome_other, if_neg (by omega)]
      · rw [splitColumn_xor, hcol]
        exact fun h => xor_ne_self (mt (splitColumn_mask c).mp hunused) h.2.2
      · omega

lemma recover_data_code (b : Fin 8) (k : Fin 3) (c : Fin 8) {flips : List Pos}
    (h : flips = [.data i b, .code k c] ∨ flips = [.code k c, .data i b]) :
    recover smc dat flips = (flipData dat i b, -ebadmsg) ∨ recover smc dat flips = (dat, 1) := by
  apply correctSyndrome_data_code smc dat i b k c rfl
  rcases h with rfl | rfl <;>
    simp only [recover_eq, dataSum, codeSum, corrupt, Parity.add, bitParity, BitVec.xor_zero,
      shift_column]

end Recover

/-- The code corrects one flipped bit of the block or of the code and detects two. -/
theorem nand_ecc_corrects (smc : Bool) (dat : Nat → Byte) {flips : List Pos} (hne : flips.Nodup) :
    (flips.length ≤ 1 → ((recover smc dat flips).2 = 0 ∨ (recover smc dat flips).2 = 1) ∧
      (recover smc dat flips).1 = dat) ∧
    (flips.length = 2 →
      (recover smc dat flips).2 = -ebadmsg ∧
        (recover smc dat flips).1 = (corrupt flips dat (nandCalculateEcc smc dat)).1 ∨
      (recover smc dat flips).1 = dat) ∧
    (flips.length = 1 ∨ flips.length = 2 →
      (recover smc dat flips).2 = 0 ∨ (recover smc dat flips).2 = 1 →
      (recover smc dat flips).1 = dat) := by
  match flips, hne with
  | [], _ => simp [recover_none]
  | [.data i b], _ => simp [recover_data]
  | [.code k b], _ => simp [recover_code]
  | [.data i b, .data j c], hne =>
    have hpos : Pos.data i b ≠ .data j c := by simpa using hne
    simp [recover_data_data smc dat hpos, corrupt, ebadmsg]
  | [.code k b, .code j c], hne =>
    have hpos : Pos.code k b ≠ .code j c := by simpa using hne
    simp [recover_code_code smc dat hpos]
  | [.data i b, .code k c], _ =>
    rcases recover_data_code smc dat i b k c (.inl rfl) with hres | hres
    · simp [hres, corrupt, ebadmsg]
    · simp [hres]
  | [.code k c, .data i b], _ =>
    rcases recover_data_code smc dat i b k c (.inr rfl) with hres | hres
    · simp [hres, corrupt, ebadmsg]
    · simp [hres]
  | _ :: _ :: _ :: _, _ => simp

/-- One flipped bit of a block of zeros is corrected, and two are reported. -/
theorem nand_ecc_corrects_zeros :
    (recover false (fun _ => 0) [.data 3 5]).1 = (fun _ => 0) ∧
      (recover false (fun _ => 0) [.data 3 5, .data 7 1]).2 = -ebadmsg := by
  have hone := nand_ecc_corrects false (fun _ => 0) (List.nodup_singleton (Pos.data 3 5))
  have htwo := nand_ecc_corrects false (fun _ => 0)
    (by decide : [Pos.data 3 5, Pos.data 7 1].Nodup)
  refine ⟨(hone.1 le_rfl).2, ?_⟩
  rcases htwo.2.1 rfl with hbad | hsame
  · exact hbad.1
  · exact absurd (congrFun hsame 3) (by decide +kernel)

end R0Kernel.NandEcc
