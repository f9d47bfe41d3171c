import R0Kernel.Drivers.Tinywmr.Bml

/-!
# Recovering the context of a bank

`_LoadVFLCxt` looks through the blocks of the VFL info section for the newest context, which is the
one with the smallest age, and reads it once more to install it. The device type is always MLC and
`_GetBuffer` does not return without a buffer.
-/

namespace R0Kernel.Bml

open Function

def vflInfoSectionStart : Nat := Geometry.vflAreaStart

def vflInfoSectionSize : Nat := 4

def vflCxtPOffset : Nat := 0

def pageValid : BitVec 8 := 0x00

/-- `TRUE32`, as a byte of `aBadInfoBlk`. -/
def true32 : BitVec 8 := 1

structure VFLSpare where
  cxtAge : BitVec 32
  statusMark : BitVec 8

/-- The fields of `struct VFLCxt` that loading looks at or sets. -/
structure BankCxt extends VFLCxt where
  globalCxtAge : BitVec 32
  cxtLocation : Nat
  badInfoBlk : Nat → BitVec 8

/-- What the page reads of a bank give. The bad block list is read once, and a page of the section
at most once in the scan and once to install it, so these are all outcomes there are. -/
structure CxtReads where
  badTable : Code × (Nat → BitVec 8)
  scan : Nat → Code × VFLSpare
  again : Nat → Code × BankCxt

structure VFLState where
  cxt : Nat → BankCxt
  maxGlobalAge : BitVec 32

/-- The page of a block of the section that holds a context. -/
def cxtPage (g : Geometry) (blkIdx : Nat) : Nat :=
  getPpn g (blkIdx + vflInfoSectionStart) vflCxtPOffset

variable (g : Geometry) (r : CxtReads)

/-- The scan: the block to install, if no read failed in a way that ends it. -/
def scanCxts : (rounds blkIdx : Nat) → (minAge : BitVec 32) → (newCxt : Nat) → Option Nat
  | 0, _, _, newCxt => some newCxt
  | rounds + 1, blkIdx, minAge, newCxt =>
    if r.badTable.2 blkIdx = true32 then scanCxts rounds (blkIdx + 1) minAge newCxt
    else
      let (ret, spare) := r.scan (cxtPage g blkIdx)
      if ret = filUEccError then scanCxts rounds (blkIdx + 1) minAge newCxt
      else if ret ≠ filSuccess then none
      else if spare.statusMark = pageValid ∧ spare.cxtAge ≤ minAge ∧ spare.cxtAge ≠ 0 then
        scanCxts rounds (blkIdx + 1) spare.cxtAge blkIdx
      else scanCxts rounds (blkIdx + 1) minAge newCxt

def loadVFLCxt (bank : Nat) (s : VFLState) : VFLState × Bool :=
  if g.banksTotal ≤ bank then (s, false)
  else if r.badTable.1 ≠ filSuccess then (s, false)
  else
    let listed := { s with
      cxt := update s.cxt bank { s.cxt bank with badInfoBlk := r.badTable.2 } }
    match scanCxts g r vflInfoSectionSize 0 0xFFFFFFFF 0 with
    | none => (listed, false)
    | some newCxt =>
      let (ret, page) := r.again (cxtPage g newCxt)
      if ret ≠ filSuccess then (listed, false)
      else
        (⟨update s.cxt bank { page with cxtLocation := newCxt },
          if s.maxGlobalAge < page.globalCxtAge then page.globalCxtAge else s.maxGlobalAge⟩, true)

/-! ### Which context it should be -/

/-- The age that the scan reads from the block. -/
def ageOf (b : Nat) : BitVec 32 := (r.scan (cxtPage g b)).2.cxtAge

/-- A block of the section, not marked bad, read without an error, with a valid mark and an age. -/
structure Candidate (b : Nat) : Prop where
  listed : r.badTable.2 b ≠ true32
  read : (r.scan (cxtPage g b)).1 = filSuccess
  valid : (r.scan (cxtPage g b)).2.statusMark = pageValid
  aged : ageOf g r b ≠ 0

/-- The call has installed the newest context. -/
def InstallsNewest (bank : Nat) (s : VFLState) : Prop :=
  ∃ b < vflInfoSectionSize, Candidate g r b ∧
    (∀ b' < vflInfoSectionSize, Candidate g r b' → ageOf g r b ≤ ageOf g r b') ∧
    (r.again (cxtPage g b)).1 = filSuccess ∧
    (loadVFLCxt g r bank s).1.cxt bank = { (r.again (cxtPage g b)).2 with cxtLocation := b }

variable {g r}

/-! ### The scan -/

/-- The choice is right for the blocks before `k`; `0xFFFFFFFF` stands for no choice. -/
def Chosen (g : Geometry) (r : CxtReads) (k : Nat) (minAge : BitVec 32) (newCxt : Nat) : Prop :=
  (minAge = 0xFFFFFFFF ∧ ∀ b < k, ¬Candidate g r b) ∨
    (newCxt < k ∧ Candidate g r newCxt ∧ ageOf g r newCxt = minAge ∧
      ∀ b < k, Candidate g r b → minAge ≤ ageOf g r b)

section Scan

variable {k newCxt : Nat} {minAge : BitVec 32}

variable (h : Chosen g r k minAge newCxt)

include h

lemma Chosen.skip (hskip : Candidate g r k → minAge < ageOf g r k) :
    Chosen g r (k + 1) minAge newCxt := by
  rcases h with ⟨hmax, hnone⟩ | ⟨hlt, hcand, hage, hmin⟩
  · refine .inl ⟨hmax, fun b hb hcand => ?_⟩
    rcases Nat.lt_succ_iff_lt_or_eq.mp hb with hb | rfl
    · exact hnone b hb hcand
    · have hless := hskip hcand
      rw [hmax] at hless
      have hbound := (ageOf g r b).isLt
      exact absurd hbound (not_lt.mpr hless)
  · refine .inr ⟨hlt.trans (Nat.lt_succ_self k), hcand, hage, fun b hb hb' => ?_⟩
    rcases Nat.lt_succ_iff_lt_or_eq.mp hb with hb | rfl
    · exact hmin b hb hb'
    · exact BitVec.le_of_lt (hskip hb')

lemma Chosen.take (hcand : Candidate g r k) (hage : ageOf g r k ≤ minAge) :
    Chosen g r (k + 1) (ageOf g r k) k := by
  refine .inr ⟨Nat.lt_succ_self k, hcand, rfl, fun b hb hb' => ?_⟩
  rcases Nat.lt_succ_iff_lt_or_eq.mp hb with hb | rfl
  · rcases h with ⟨-, hnone⟩ | ⟨-, -, -, hmin⟩
    · exact absurd hb' (hnone b hb)
    · exact BitVec.le_trans hage (hmin b hb hb')
  · exact BitVec.le_refl _

lemma scanCxts_chosen {rounds found : Nat}
    (hscan : scanCxts g r rounds k minAge newCxt = some found) :
    ∃ age, Chosen g r (k + rounds) age found := by
  induction rounds generalizing k minAge newCxt with
  | zero =>
    obtain rfl := Option.some.inj hscan
    exact ⟨minAge, h⟩
  | succ rounds ih =>
    have hnext := @ih (k + 1)
    rw [add_right_comm] at hnext
    rw [scanCxts] at hscan
    split at hscan
    next hbad => exact hnext (h.skip fun hcand => absurd hbad hcand.listed) hscan
    next hgood =>
      dsimp only at hscan
      split at hscan
      next hecc =>
        refine hnext (h.skip fun hcand => ?_) hscan
        exact absurd (hecc.symm.trans hcand.read) (by decide)
      next =>
        split at hscan
        · cases hscan
        next hread =>
          have hread := not_not.mp hread
          split at hscan
          next htake =>
            exact hnext (h.take ⟨hgood, hread, htake.1, htake.2.2⟩ htake.2.1) hscan
          next hpass =>
            refine hnext (h.skip fun hcand => BitVec.not_le.mp fun hle => ?_) hscan
            exact hpass ⟨hcand.valid, hle, hcand.aged⟩

end Scan

/-- For all reads and contents, a call that returns `TRUE32` has installed the newest context if and
only if some block holds one. Otherwise the context is taken from the first block, whatever that
holds. -/
theorem load_vfl_cxt_newest_iff (g : Geometry) (r : CxtReads) (bank : Nat) (s : VFLState)
    (hload : (loadVFLCxt g r bank s).2 = true) :
    InstallsNewest g r bank s ↔ ∃ b < vflInfoSectionSize, Candidate g r b := by
  constructor
  · rintro ⟨b, hb, hcand, -⟩
    exact ⟨b, hb, hcand⟩
  · rintro ⟨b, hb, hcand⟩
    unfold InstallsNewest loadVFLCxt
    unfold loadVFLCxt at hload
    split at hload
    · cases hload
    next hbank =>
      rw [if_neg hbank]
      split at hload
      · cases hload
      next hlist =>
        rw [if_neg hlist]
        cases hscan : scanCxts g r vflInfoSectionSize 0 0xFFFFFFFF 0 with
        | none =>
          rw [hscan] at hload
          cases hload
        | some found =>
          rw [hscan] at hload
          dsimp only at hload ⊢
          split at hload
          · cases hload
          next hagain =>
            rw [if_neg hagain]
            have hstart : Chosen g r 0 0xFFFFFFFF 0 :=
              .inl ⟨rfl, fun b hb => absurd hb b.not_lt_zero⟩
            obtain ⟨age, hchosen⟩ := scanCxts_chosen hstart hscan
            rcases hchosen with ⟨-, hnone⟩ | ⟨hlt, hfound, rfl, hmin⟩
            · exact absurd hcand (hnone b hb)
            · exact ⟨found, hlt, hfound, hmin, not_not.mp hagain, update_self ..⟩

def emptyCxt : BankCxt := ⟨⟨0, fun _ => 0, fun _ => 0⟩, 0, 0, fun _ => 0⟩

/-- The second block cannot be read, and the third is newer than the others. -/
def thirdNewest : CxtReads where
  badTable := (filSuccess, fun _ => 0)
  scan := fun page =>
    if page = cxtPage k9gag08 1 then (filUEccError, ⟨0, 0xFF⟩)
    else (filSuccess, ⟨if page = cxtPage k9gag08 2 then 7 else 9, pageValid⟩)
  again := fun _ => (filSuccess, emptyCxt)

theorem load_vfl_cxt_newest_iff_third :
    InstallsNewest k9gag08 thirdNewest 0 ⟨fun _ => emptyCxt, 0⟩ :=
  (load_vfl_cxt_newest_iff k9gag08 thirdNewest 0 ⟨fun _ => emptyCxt, 0⟩ (by decide)).mpr
    ⟨2, by decide, by decide, by decide, by decide, by decide⟩

/-- Every block of the section is marked bad: the first of them is installed all the same. -/
theorem load_vfl_cxt_all_bad :
    let r : CxtReads :=
      ⟨(filSuccess, fun _ => true32), fun _ => (filUEccError, ⟨0, 0xFF⟩),
        fun _ => (filSuccess, emptyCxt)⟩
    let s : VFLState := ⟨fun _ => emptyCxt, 0⟩
    (loadVFLCxt k9gag08 r 0 s).2 = true ∧ ¬InstallsNewest k9gag08 r 0 s := by
  intro r s
  refine ⟨by decide, ?_⟩
  rintro ⟨b, -, hcand, -⟩
  exact hcand.listed rfl

end R0Kernel.Bml
