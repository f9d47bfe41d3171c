import Mathlib.Data.Nat.Bitwise
import Mathlib.Logic.Function.Basic
import Mathlib.Tactic.IntervalCases

/-!
# Regions of a bitmap

`__reg_op` and `bitmap_find_free_region` of `lib/bitmap.c`. A region is a power of two of bits, at a
multiple of its size; one that is smaller than a word lies in a word, a larger one is made of whole
words. The search goes wrong exactly where the size of the bitmap is no multiple of that of the
region and no region inside it is free: it compares for equality with a size that it steps over.
-/

namespace R0Kernel.Bitmap

open Function

/-- An array of `unsigned long`s, with what follows it in memory. -/
abbrev Words := Nat → BitVec 32

def bit (m : Words) (b : Nat) : Bool := (m (b / 32)).getLsbD (b % 32)

inductive RegOp where
  | isFree
  | alloc
  | release

inductive Errno where
  | nomem
  deriving DecidableEq

/-- The number of `unsigned long`s that a region lies in. -/
def nlongsReg (order : Nat) : Nat := (1 <<< order + 31) / 32

/-- The bits of a region in each of its `unsigned long`s. -/
def regMask (pos order : Nat) : BitVec 32 :=
  let offset := pos - pos / 32 * 32
  let nbitsinlong := min (1 <<< order) 32
  let mask : BitVec 32 := 1#32 <<< (nbitsinlong - 1)
  (mask + (mask - 1)) <<< offset

/-- Changes `n` words from `index` on, one after the other. -/
def mapLongs (f : BitVec 32 → BitVec 32) (index : Nat) : Nat → Words → Words
  | 0, m => m
  | n + 1, m =>
    let m := mapLongs f index n m
    update m (index + n) (f (m (index + n)))

def regOp (m : Words) (pos order : Nat) : RegOp → Bool × Words
  | .isFree =>
    ((List.range (nlongsReg order)).all fun i => m (pos / 32 + i) &&& regMask pos order == 0, m)
  | .alloc => (false, mapLongs (· ||| regMask pos order) (pos / 32) (nlongsReg order) m)
  | .release => (false, mapLongs (· &&& ~~~regMask pos order) (pos / 32) (nlongsReg order) m)

/-- The loop over the positions, with fuel. -/
def findLoop (m : Words) (bits order : Nat) : Nat → Nat → Nat
  | 0, pos => pos
  | fuel + 1, pos =>
    if pos < bits then
      if (regOp m pos order .isFree).1 then pos else findLoop m bits order fuel (pos + 1 <<< order)
    else pos

def bitmapFindFreeRegion (m : Words) (bits order : Nat) : Except Errno Nat × Words :=
  let pos := findLoop m bits order bits 0
  if pos = bits then (.error .nomem, m) else (.ok pos, (regOp m pos order .alloc).2)

/-! ### The region operation -/

variable {m : Words} {pos bits order : Nat}

def InRegion (pos order b : Nat) : Prop := pos ≤ b ∧ b < pos + 2 ^ order

/-- All bits of a region are clear. -/
def Free (m : Words) (pos order : Nat) : Prop := ∀ b, InRegion pos order b → bit m b = false

lemma mapLongs_apply (f : BitVec 32 → BitVec 32) (index n k : Nat) :
    mapLongs f index n m k = if index ≤ k ∧ k < index + n then f (m k) else m k := by
  induction n with
  | zero => rw [mapLongs, if_neg (by omega)]
  | succ n ih =>
    rw [mapLongs, update_apply]
    by_cases hk : k = index + n
    · subst hk
      rw [if_pos rfl, ih, if_neg (by omega), if_pos (by omega)]
    · rw [if_neg hk, ih]
      congr 1
      simp only [eq_iff_iff]
      omega

/-- The mask has `min (2 ^ order) 32` bits from the offset on. -/
lemma getLsbD_regMask {k : Nat} (hk : k < 32) :
    (regMask pos order).getLsbD k =
      decide (pos % 32 ≤ k ∧ k - pos % 32 < min (2 ^ order) 32) := by
  have hoffset : pos - pos / 32 * 32 = pos % 32 := by omega
  have hpos : 0 < min (2 ^ order) 32 := lt_min (Nat.two_pow_pos order) (by decide)
  simp only [regMask, Nat.one_shiftLeft, hoffset, BitVec.getLsbD_shiftLeft, hk, decide_true,
    Bool.true_and]
  generalize hn : min (2 ^ order) 32 = n at hpos
  have hle : n ≤ 32 := hn ▸ min_le_right _ _
  have hones : 1#32 <<< (n - 1) + (1#32 <<< (n - 1) - 1) = BitVec.ofNat 32 (2 ^ n - 1) := by
    interval_cases n <;> decide
  rw [hones, BitVec.getLsbD_ofNat]
  rw [Bool.eq_iff_iff]
  simp
  omega

lemma inRegion_iff (h : 2 ^ order ∣ pos) {b : Nat} :
    InRegion pos order b ↔ (pos / 32 ≤ b / 32 ∧ b / 32 < pos / 32 + nlongsReg order) ∧
      (regMask pos order).getLsbD (b % 32) = true := by
  rw [getLsbD_regMask (Nat.mod_lt b (by decide)), decide_eq_true_iff, InRegion, nlongsReg]
  obtain hsmall | hlarge := Nat.lt_or_ge order 5
  · interval_cases order <;> omega
  · obtain ⟨k, rfl⟩ := Nat.exists_eq_add_of_le hlarge
    have hsize : 2 ^ (5 + k) = 32 * 2 ^ k := by rw [pow_add]; rfl
    have hwhole : pos % 32 = 0 := Nat.mod_eq_zero_of_dvd ((Dvd.intro _ hsize.symm).trans h)
    omega

lemma regOp_isFree (h : 2 ^ order ∣ pos) : (regOp m pos order .isFree).1 = true ↔
    Free m pos order := by
  simp only [regOp, List.all_eq_true, List.mem_range, beq_iff_eq]
  constructor
  · intro hwords b hb
    obtain ⟨⟨hlo, hhi⟩, hmask⟩ := (inRegion_iff h).mp hb
    have hword := hwords (b / 32 - pos / 32) (by omega)
    rw [Nat.add_sub_cancel' hlo] at hword
    have hbit := congrArg (·.getLsbD (b % 32)) hword
    simpa [hmask, bit] using hbit
  · intro hfree i hi
    apply BitVec.eq_of_getLsbD_eq
    intro k hk
    have hdiv : (32 * (pos / 32 + i) + k) / 32 = pos / 32 + i := by omega
    have hmod : (32 * (pos / 32 + i) + k) % 32 = k := by omega
    have hclear := fun hb => hfree (32 * (pos / 32 + i) + k) ((inRegion_iff h).mpr hb)
    rw [bit, hdiv, hmod] at hclear
    by_cases hmask : (regMask pos order).getLsbD k = true
    · simp [hclear ⟨⟨by omega, by omega⟩, hmask⟩]
    · simp [hmask]

lemma bit_alloc (h : 2 ^ order ∣ pos) {b : Nat} :
    bit (regOp m pos order .alloc).2 b = true ↔ InRegion pos order b ∨ bit m b = true := by
  simp only [inRegion_iff h, bit, regOp, mapLongs_apply]
  split_ifs with hwords
  · simp [hwords, or_comm]
  · simp [hwords]

/-! ### The search -/

/-- The loop stops at the first free region, or at the first multiple of its size behind the
bitmap. -/
lemma findLoop_spec {fuel : Nat} (hfuel : bits ≤ fuel + pos) (h : 2 ^ order ∣ pos)
    (hbefore : ∀ q < pos, 2 ^ order ∣ q → ¬Free m q order) (hpos : pos < bits + 2 ^ order) :
    let r := findLoop m bits order fuel pos
    2 ^ order ∣ r ∧ (∀ q < r, 2 ^ order ∣ q → ¬Free m q order) ∧ r < bits + 2 ^ order ∧
      (r < bits → Free m r order) := by
  induction fuel generalizing pos with
  | zero => exact ⟨h, hbefore, hpos, fun hlt => by simp [findLoop] at hlt; omega⟩
  | succ fuel ih =>
    simp only [findLoop, Nat.one_shiftLeft]
    split_ifs with hlt hfree
    · exact ⟨h, hbefore, hpos, fun _ => (regOp_isFree h).mp hfree⟩
    · rw [regOp_isFree h] at hfree
      apply ih (by omega) (Nat.dvd_add h (dvd_refl _)) _ (by omega)
      intro q hq hdvd
      -- there is no multiple between two neighbours
      obtain hq | rfl | hq := lt_trichotomy q pos
      · exact hbefore q hq hdvd
      · exact hfree
      · have hstep := Nat.le_of_dvd (by omega) (Nat.dvd_sub hdvd h)
        omega
    · exact ⟨h, hbefore, hpos, fun hlt' => absurd hlt' hlt⟩

/-- A free region that lies inside the bitmap. -/
def Fits (m : Words) (bits order pos : Nat) : Prop :=
  2 ^ order ∣ pos ∧ pos + 2 ^ order ≤ bits ∧ Free m pos order

/-- What a search for a free region is to return: the first one, with its bits set and no other bit
changed, or an error where there is none. -/
def FindsRegion (m : Words) (bits order : Nat) : Except Errno Nat × Words → Prop
  | (.ok pos, m') => Fits m bits order pos ∧ (∀ q, Fits m bits order q → pos ≤ q) ∧
      ∀ b, bit m' b = true ↔ InRegion pos order b ∨ bit m b = true
  | (.error _, m') => (∀ q, ¬Fits m bits order q) ∧ m' = m

/-- The search is right where the size of the bitmap is a multiple of that of the region, and where
there is a region to find. -/
theorem bitmap_find_free_region_iff (m : Words) (bits order : Nat) :
    FindsRegion m bits order (bitmapFindFreeRegion m bits order) ↔
      2 ^ order ∣ bits ∨ ∃ pos, Fits m bits order pos := by
  have hsize := Nat.two_pow_pos order
  obtain ⟨hdvd, hfirst, hnear, hfree⟩ :=
    findLoop_spec (m := m) (Nat.le_add_right bits 0) (dvd_zero (2 ^ order)) nofun (by omega)
  have hmin : ∀ q, Fits m bits order q → findLoop m bits order bits 0 ≤ q := by
    intro q ⟨hq, _, hclear⟩
    exact Nat.le_of_not_lt fun hlt => hfirst q hlt hq hclear
  rw [bitmapFindFreeRegion]
  generalize findLoop m bits order bits 0 = r at *
  split_ifs with hend
  · subst hend
    have hnone : ∀ q, ¬Fits m r order q := fun q hq => by
      have := hmin q hq
      have := hq.2.1
      omega
    exact iff_of_true ⟨hnone, rfl⟩ (.inl hdvd)
  · constructor
    · rintro ⟨hfits, -⟩
      exact .inr ⟨r, hfits⟩
    · intro hcond
      -- either way the position has room for a region before the end of the bitmap
      have hroom : r + 2 ^ order ≤ bits := by
        obtain hbits | ⟨q, hq⟩ := hcond
        · have hlt : r < bits := by
            by_contra hge
            have hstep := Nat.le_of_dvd (by omega) (Nat.dvd_sub hdvd hbits)
            omega
          have hstep := Nat.le_of_dvd (by omega) (Nat.dvd_sub hbits hdvd)
          omega
        · exact (Nat.add_le_add_right (hmin q hq) _).trans hq.2.1
      have hset := fun b => bit_alloc (m := m) (b := b) hdvd
      exact ⟨⟨hdvd, hroom, hfree (by omega)⟩, hmin, hset⟩

/-- In a bitmap of three bits of which the first is set, a region of two is found at the third. -/
theorem bitmap_find_free_region_beyond :
    ¬FindsRegion (fun _ => 1) 3 1 (bitmapFindFreeRegion (fun _ => 1) 3 1) := by
  rintro ⟨⟨-, hinside, -⟩, -⟩
  exact absurd hinside (by decide)

end R0Kernel.Bitmap
