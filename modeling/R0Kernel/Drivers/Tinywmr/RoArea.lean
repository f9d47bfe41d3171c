import R0Kernel.Drivers.Tinywmr.Bml

/-!
# Locations of the read-only pages

The physical page behind each page of the read-only partitions, through the partition table that
`_ConfigureROAreaMeta` accepts and the bad block tables. Pages are private as long as the table does
not claim more blocks than the area has. The check in `_ConfigureROAreaMeta` adds the sizes in 32
bits, so it lets some larger tables pass.
-/

namespace R0Kernel.Bml

open Option Bml.Geometry

/-! ### The partition table -/

/-- The constants of `WMRConfig.h`, in physical blocks: the area, and its partitions. -/
structure ROConfig where
  roAreaPB : Nat
  patPB : Nat → BitVec 32
  roAreaPB_lt : roAreaPB < 2 ^ 31

namespace ROConfig

/-- `nLastOffset` before the loop comes to partition `n`. -/
def lastOffset (cfg : ROConfig) : Nat → BitVec 32
  | 0 => 1
  | n + 1 => cfg.lastOffset n + cfg.patPB n

/-- The blocks of the partitions before `n`, without wrapping. -/
def blocksBefore (cfg : ROConfig) : Nat → Nat
  | 0 => 0
  | n + 1 => cfg.blocksBefore n + (cfg.patPB n).toNat

/-- `_ConfigureROAreaMeta`: the table, when it returns `TRUE32`. -/
def configureROAreaMeta (cfg : ROConfig) : Option (Nat → ROPartTbl) :=
  let last := cfg.lastOffset MAX_RO_PARTS
  if last.toInt < 0 ∨ (last - 1).toInt > cfg.roAreaPB then none
  else some fun n => ⟨(cfg.lastOffset n).toNat, (cfg.patPB n).toNat⟩

lemma table_eq {cfg : ROConfig} {tbl : Nat → ROPartTbl} (h : cfg.configureROAreaMeta = some tbl)
    (n : Nat) : tbl n = ⟨(cfg.lastOffset n).toNat, (cfg.patPB n).toNat⟩ := by
  unfold configureROAreaMeta at h
  dsimp only at h
  split at h
  next => contradiction
  next => rw [← some.inj h]

variable {n : Nat} (cfg : ROConfig)

lemma blocksBefore_mono {m : Nat} (h : m ≤ n) :
    cfg.blocksBefore m ≤ cfg.blocksBefore n := by
  induction h with
  | refl => exact le_rfl
  | step _ ih => exact ih.trans (Nat.le_add_right _ _)

lemma lastOffset_toNat (h : cfg.blocksBefore n + 1 < 2 ^ 32) :
    (cfg.lastOffset n).toNat = cfg.blocksBefore n + 1 := by
  induction n with
  | zero => rfl
  | succ n ih =>
    simp only [blocksBefore] at h ⊢
    rw [lastOffset, BitVec.toNat_add]
    omega

/-- A table that claims more than the area has a first partition that does. -/
lemma exists_crossing (h : cfg.roAreaPB < cfg.blocksBefore n) :
    ∃ m < n, cfg.blocksBefore m ≤ cfg.roAreaPB ∧ cfg.roAreaPB < cfg.blocksBefore (m + 1) := by
  induction n with
  | zero => exact absurd h (Nat.not_lt_zero _)
  | succ n ih =>
    by_cases hn : cfg.roAreaPB < cfg.blocksBefore n
    · obtain ⟨m, hm, hcross⟩ := ih hn
      exact ⟨m, hm.trans n.lt_succ_self, hcross⟩
    · exact ⟨n, n.lt_succ_self, Nat.le_of_not_lt hn, h⟩

end ROConfig

/-! ### Locations -/

/-- `RO_AREA_SIZE`, the blocks of a bank that the area takes: one more block than configured,
rounded up. -/
def Geometry.roAreaSize (g : Geometry) (cfg : ROConfig) : Nat :=
  (cfg.roAreaPB + 1 + g.banksTotal - 1) / g.banksTotal

/-- A volume that was set up from the constants. The bad block tables fill no more than the reserved
section, which is what the area of the layer has beside its four information blocks. -/
structure Mounted (cfg : ROConfig) (vol : Volume) : Prop where
  banks_pos : 0 < vol.geometry.banksTotal
  table : cfg.configureROAreaMeta = some vol.patTbl
  blocks_le : (vol.geometry.roAreaStart + vol.geometry.roAreaSize cfg) * 2 ≤ 65536
  cover : ∀ bank, (vol.vflCxt bank).badMapTableMaxIdx + 4 ≤ vol.geometry.vflAreaSize
  distinct : ∀ bank, Set.InjOn (vol.vflCxt bank).badMapTable
    {idx | idx < (vol.vflCxt bank).badMapTableMaxIdx * vol.geometry.numOfPlane}

/-- A page that can be asked for; only two planes have a right one. -/
structure ROPage (vol : Volume) where
  partNo : Nat
  lpn : Nat
  right : Bool
  partNo_lt : partNo < MAX_RO_PARTS
  lpn_lt : lpn < 2 ^ 32
  inPart : lpn / vol.geometry.pagesPerBlock < (vol.patTbl partNo).sizePB
  plane : right = true → vol.geometry.twoPlaneProgram = true

structure PlaneBlock where
  bank : Nat
  block : Nat
  plane : PlaneBitmap
  deriving DecidableEq

/-- Where a read of block `pbn` of the bank goes. -/
def planeBlock (vol : Volume) (bank pbn : Nat) (right : Bool) : PlaneBlock :=
  let b := remapBadBlk vol bank pbn
  if vol.geometry.twoPlaneProgram then
    let pbn := if right then b.rPbn else b.lPbn
    ⟨bank, pbn / 2, .ofBlock pbn⟩
  else ⟨bank, b.lPbn, .left⟩

def location (vol : Volume) (p : ROPage vol) : PlaneBlock × Nat :=
  let a := getROPhysicalAddr vol p.partNo p.lpn
  (planeBlock vol a.bank a.pbn p.right, a.pOffset)

/-- Where `_LoadROAreaMeta` finds the description of the area; the right plane of that block belongs
to it as well. -/
def metaBlock (vol : Volume) (right : Bool) : PlaneBlock :=
  planeBlock vol 0 vol.geometry.roAreaStart right

structure PrivatePages (cfg : ROConfig) (vol : Volume) : Prop where
  injective : Function.Injective (location vol)
  off_meta : ∀ p right, (right = true → vol.geometry.twoPlaneProgram = true) →
    (location vol p).1 ≠ metaBlock vol right
  inside : ∀ p, let block := (location vol p).1.block
    (vol.geometry.roAreaStart ≤ block ∧
      block < vol.geometry.roAreaStart + vol.geometry.roAreaSize cfg) ∨
    reservedSectionStart ≤ block ∧ block < vol.geometry.roAreaStart

/-! ### Remapping -/

/-- Entry `idx` of the table, one of the first `n`, gives block `s` the place `t`. -/
def Hit (cxt : VFLCxt) (n base s t : Nat) : Prop :=
  ∃ idx < n, t = base + idx ∧ cxt.badMapTable idx = BitVec.ofNat 16 s

variable {cxt : VFLCxt} {n s t base : Nat} {tbl : Nat → ROPartTbl} {cfg : ROConfig} {vol : Volume}

lemma remapOneFrom_hit {rounds idx : Nat} (hn : idx + rounds ≤ n)
    (h : remapOneFrom cxt s rounds idx = some t) :
    Hit cxt n reservedSectionStart s t := by
  induction rounds generalizing idx with
  | zero => cases h
  | succ rounds ih =>
    rw [remapOneFrom] at h
    split at h
    next hentry => exact ⟨idx, by omega, (some.inj h).symm, hentry⟩
    next => exact ih (by omega) h

lemma remapBothFrom_hit {rounds idx : Nat} {left right : Option Nat} (hn : idx + rounds ≤ n)
    (hleft : ∀ t ∈ left, Hit cxt n (reservedSectionStart * 2) (s * 2) t)
    (hright : ∀ t ∈ right, Hit cxt n (reservedSectionStart * 2) (s * 2 + 1) t) :
    (∀ t ∈ (remapBothFrom cxt s rounds idx left right).1,
      Hit cxt n (reservedSectionStart * 2) (s * 2) t) ∧
    ∀ t ∈ (remapBothFrom cxt s rounds idx left right).2,
      Hit cxt n (reservedSectionStart * 2) (s * 2 + 1) t := by
  induction rounds generalizing idx left right with
  | zero => exact ⟨hleft, hright⟩
  | succ rounds ih =>
    have hfound : ∀ found : Option Nat × Option Nat,
        (∀ t ∈ found.1, Hit cxt n (reservedSectionStart * 2) (s * 2) t) →
        (∀ t ∈ found.2, Hit cxt n (reservedSectionStart * 2) (s * 2 + 1) t) →
        ∀ r, r = (if found.1.isSome ∧ found.2.isSome then found
          else remapBothFrom cxt s rounds (idx + 1) found.1 found.2) →
        (∀ t ∈ r.1, Hit cxt n (reservedSectionStart * 2) (s * 2) t) ∧
        ∀ t ∈ r.2, Hit cxt n (reservedSectionStart * 2) (s * 2 + 1) t := by
      intro found h₁ h₂ r hr
      subst hr
      split
      · exact ⟨h₁, h₂⟩
      · exact ih (by omega) h₁ h₂
    refine hfound _ ?_ ?_ _ rfl
    all_goals
      intro t ht
      split at ht
      next hentry => first
        | exact hright t ht
        | exact ⟨idx, by omega, (some.inj ht).symm, hentry⟩
      next =>
        split at ht
        next hentry => first
          | exact hleft t ht
          | exact ⟨idx, by omega, (some.inj ht).symm, hentry⟩
        next => first
          | exact hleft t ht
          | exact hright t ht

/-- A block stays or moves to the place its entry gives it. -/
def Lands (cxt : VFLCxt) (n base s t : Nat) : Prop := t = s ∨ Hit cxt n base s t

lemma Lands.of_getD {found : Option Nat} (h : ∀ t ∈ found, Hit cxt n base s t) :
    Lands cxt n base s (found.getD s) := by
  cases found with
  | none => exact .inl rfl
  | some t => exact .inr (h t rfl)

/-- Blocks past the places of the table keep apart. -/
lemma Lands.injective {s' : Nat} (h : Lands cxt n base s t) (h' : Lands cxt n base s' t)
    (hs : base + n ≤ s) (hs' : base + n ≤ s') (hlt : s < 2 ^ 16) (hlt' : s' < 2 ^ 16) : s = s' := by
  rcases h with rfl | ⟨idx, hidx, rfl, hentry⟩
  · rcases h' with rfl | ⟨idx, hidx, rfl, -⟩
    · rfl
    · omega
  · rcases h' with rfl | ⟨idx', -, hsame, hentry'⟩
    · omega
    · obtain rfl : idx = idx' := Nat.add_left_cancel hsame
      have htoNat := congrArg BitVec.toNat (hentry.symm.trans hentry')
      rwa [BitVec.toNat_ofNat, BitVec.toNat_ofNat, Nat.mod_eq_of_lt hlt, Nat.mod_eq_of_lt hlt']
        at htoNat

lemma Lands.range (h : Lands cxt n base s t) :
    t = s ∨ base ≤ t ∧ t < base + n := by
  rcases h with rfl | ⟨idx, hidx, rfl, -⟩
  · exact .inl rfl
  · exact .inr ⟨Nat.le_add_right _ _, Nat.add_lt_add_left hidx _⟩

lemma remapBadBlk_two (vol : Volume) (bank s : Nat) (h : vol.geometry.twoPlaneProgram = true) :
    Lands (vol.vflCxt bank) ((vol.vflCxt bank).badMapTableMaxIdx * 2)
      (reservedSectionStart * 2) (s * 2) (remapBadBlk vol bank s).lPbn ∧
    Lands (vol.vflCxt bank) ((vol.vflCxt bank).badMapTableMaxIdx * 2)
      (reservedSectionStart * 2) (s * 2 + 1) (remapBadBlk vol bank s).rPbn := by
  simp only [remapBadBlk, h, ↓reduceIte]
  have hnone : ∀ base s', ∀ t ∈ (none : Option Nat),
      Hit (vol.vflCxt bank) ((vol.vflCxt bank).badMapTableMaxIdx * 2) base s' t := by
    intro base s' t ht
    cases ht
  split
  next =>
    have hhit := remapBothFrom_hit (s := s) (zero_add _).le (hnone _ _) (hnone _ _)
    exact ⟨.of_getD hhit.1, .of_getD hhit.2⟩
  next => exact ⟨.of_getD (hnone _ _), .of_getD (hnone _ _)⟩

lemma remapBadBlk_one (vol : Volume) (bank s : Nat) (h : vol.geometry.twoPlaneProgram = false) :
    Lands (vol.vflCxt bank) (vol.vflCxt bank).badMapTableMaxIdx reservedSectionStart s
      (remapBadBlk vol bank s).lPbn := by
  simp only [remapBadBlk, h, Bool.false_eq_true, ↓reduceIte]
  apply Lands.of_getD
  intro t ht
  split at ht
  next => exact remapOneFrom_hit (zero_add _).le ht
  next => cases ht

section Mounted

variable {cfg : ROConfig} {vol : Volume}

def InArea (cfg : ROConfig) (vol : Volume) (pbn : Nat) : Prop :=
  vol.geometry.roAreaStart ≤ pbn ∧ pbn < vol.geometry.roAreaStart + vol.geometry.roAreaSize cfg

lemma Mounted.planeBlock_injective (hm : Mounted cfg vol) {bank bank' pbn pbn' : Nat}
    {right right' : Bool} (hpbn : InArea cfg vol pbn) (hpbn' : InArea cfg vol pbn')
    (hright : right = true → vol.geometry.twoPlaneProgram = true)
    (hright' : right' = true → vol.geometry.twoPlaneProgram = true)
    (h : planeBlock vol bank pbn right = planeBlock vol bank' pbn' right') :
    bank = bank' ∧ pbn = pbn' ∧ right = right' := by
  have hcover := hm.cover bank
  have hblocks := hm.blocks_le
  have hbase : reservedSectionStart = 5 := rfl
  simp only [InArea, roAreaStart, vflAreaStart] at hpbn hpbn' hblocks
  cases htwo : vol.geometry.twoPlaneProgram with
  | false =>
    simp only [planeBlock, htwo, Bool.false_eq_true, ↓reduceIte, PlaneBlock.mk.injEq, and_true] at h
    obtain ⟨rfl, hsame⟩ := h
    have hland := remapBadBlk_one vol bank pbn htwo
    have hland' := remapBadBlk_one vol bank pbn' htwo
    rw [← hsame] at hland'
    have hs := hland.injective hland' (by omega) (by omega) (by omega) (by omega)
    exact ⟨rfl, hs, by simp_all⟩
  | true =>
    simp only [planeBlock, htwo, ↓reduceIte, PlaneBlock.mk.injEq] at h
    obtain ⟨rfl, hblock, hplane⟩ := h
    have hland : ∀ pbn right, Lands (vol.vflCxt bank) ((vol.vflCxt bank).badMapTableMaxIdx * 2)
        (reservedSectionStart * 2) (pbn * 2 + Bool.toNat right)
        (if right then (remapBadBlk vol bank pbn).rPbn else (remapBadBlk vol bank pbn).lPbn) := by
      intro pbn right
      cases right with
      | false => exact (remapBadBlk_two vol bank pbn htwo).1
      | true => exact (remapBadBlk_two vol bank pbn htwo).2
    have hparity : ∀ a b : Nat, a / 2 = b / 2 → PlaneBitmap.ofBlock a = .ofBlock b → a = b := by
      intro a b hdiv hplane
      simp only [PlaneBitmap.ofBlock] at hplane
      split at hplane <;> split at hplane <;> simp_all <;> omega
    have hland' := hland pbn' right'
    rw [← hparity _ _ hblock hplane] at hland'
    have hle := right.toNat_le
    have hle' := right'.toNat_le
    have hs := (hland pbn right).injective hland' (by omega) (by omega) (by omega) (by omega)
    refine ⟨rfl, by omega, ?_⟩
    cases right <;> cases right' <;> simp only [Bool.toNat_true, Bool.toNat_false] at hs ⊢ <;> omega

lemma Mounted.planeBlock_inside (hm : Mounted cfg vol) {bank pbn : Nat} (right : Bool)
    (hpbn : InArea cfg vol pbn) :
    InArea cfg vol (planeBlock vol bank pbn right).block ∨
      reservedSectionStart ≤ (planeBlock vol bank pbn right).block ∧
        (planeBlock vol bank pbn right).block < vol.geometry.roAreaStart := by
  have hcover := hm.cover bank
  simp only [InArea, roAreaStart, vflAreaStart, reservedSectionStart]
    at hpbn ⊢
  cases htwo : vol.geometry.twoPlaneProgram with
  | false =>
    have hrange := (remapBadBlk_one vol bank pbn htwo).range
    simp only [reservedSectionStart, vflAreaStart] at hrange
    simp only [planeBlock, htwo, Bool.false_eq_true, ↓reduceIte]
    omega
  | true =>
    have hleft := (remapBadBlk_two vol bank pbn htwo).1.range
    have hright := (remapBadBlk_two vol bank pbn htwo).2.range
    simp only [reservedSectionStart, vflAreaStart] at hleft hright
    simp only [planeBlock, htwo, ↓reduceIte]
    split <;> omega

/-! ### Tables that fit -/

def areaBlock (vol : Volume) (p : ROPage vol) : Nat :=
  (vol.patTbl p.partNo).offset + p.lpn / vol.geometry.pagesPerBlock

variable (hm : Mounted cfg vol) (hfit : cfg.blocksBefore MAX_RO_PARTS ≤ cfg.roAreaPB)
  (p : ROPage vol)

include hm hfit

lemma Mounted.areaBlock_bounds :
    cfg.blocksBefore p.partNo < areaBlock vol p ∧
      areaBlock vol p ≤ cfg.blocksBefore (p.partNo + 1) := by
  have hlt := cfg.roAreaPB_lt
  have hmono := cfg.blocksBefore_mono p.partNo_lt.le
  have hin := p.inPart
  simp only [areaBlock, ROConfig.table_eq hm.table, ROConfig.blocksBefore] at hin ⊢
  rw [cfg.lastOffset_toNat (by omega)]
  generalize p.lpn / vol.geometry.pagesPerBlock = block at hin ⊢
  omega

lemma Mounted.areaBlock_range :
    0 < areaBlock vol p ∧ areaBlock vol p ≤ cfg.roAreaPB := by
  have hbounds := hm.areaBlock_bounds hfit p
  have hmono := cfg.blocksBefore_mono (show p.partNo + 1 ≤ MAX_RO_PARTS from p.partNo_lt)
  omega

lemma Mounted.areaBlock_injective {p q : ROPage vol} (h : areaBlock vol p = areaBlock vol q) :
    p.partNo = q.partNo := by
  have hp := hm.areaBlock_bounds hfit p
  have hq := hm.areaBlock_bounds hfit q
  rcases lt_trichotomy p.partNo q.partNo with hlt | heq | hlt
  · have hmono := cfg.blocksBefore_mono (show p.partNo + 1 ≤ q.partNo from hlt)
    omega
  · exact heq
  · have hmono := cfg.blocksBefore_mono (show q.partNo + 1 ≤ p.partNo from hlt)
    omega

lemma Mounted.getROPhysicalAddr_eq :
    getROPhysicalAddr vol p.partNo p.lpn =
      ⟨areaBlock vol p % vol.geometry.banksTotal,
        areaBlock vol p / vol.geometry.banksTotal + vol.geometry.roAreaStart,
        p.lpn % vol.geometry.pagesPerBlock⟩ := by
  have hrange := hm.areaBlock_range hfit p
  have hlt := cfg.roAreaPB_lt
  have hwrap : areaBlock vol p % 2 ^ 32 = areaBlock vol p := Nat.mod_eq_of_lt (by omega)
  simp only [getROPhysicalAddr]
  rw [← areaBlock, hwrap]

end Mounted

lemma Mounted.inArea (hm : Mounted cfg vol) {pb : Nat} (hpb : pb ≤ cfg.roAreaPB) :
    InArea cfg vol (pb / vol.geometry.banksTotal + vol.geometry.roAreaStart) := by
  have hpos := hm.banks_pos
  refine ⟨Nat.le_add_left _ _, ?_⟩
  rw [add_comm]
  refine Nat.add_lt_add_left ?_ _
  have hup : cfg.roAreaPB + 1 + vol.geometry.banksTotal - 1 =
      cfg.roAreaPB + vol.geometry.banksTotal := by omega
  rw [roAreaSize, hup, Nat.add_div_right _ hpos]
  exact Nat.lt_succ_of_le (Nat.div_le_div_right hpb)

lemma Mounted.privatePages (hm : Mounted cfg vol)
    (hfit : cfg.blocksBefore MAX_RO_PARTS ≤ cfg.roAreaPB) : PrivatePages cfg vol where
  injective := by
    intro p q h
    simp only [location, hm.getROPhysicalAddr_eq hfit, Prod.mk.injEq] at h
    obtain ⟨hbank, hpbn, hright⟩ := hm.planeBlock_injective
      (hm.inArea (hm.areaBlock_range hfit p).2) (hm.inArea (hm.areaBlock_range hfit q).2)
      p.plane q.plane h.1
    have harea : areaBlock vol p = areaBlock vol q := by
      rw [← Nat.div_add_mod (areaBlock vol p) vol.geometry.banksTotal, hbank,
        Nat.add_right_cancel hpbn, Nat.div_add_mod]
    have hpart := hm.areaBlock_injective hfit harea
    have hlpn : p.lpn = q.lpn := by
      simp only [areaBlock, hpart] at harea
      rw [← Nat.div_add_mod p.lpn vol.geometry.pagesPerBlock, h.2, Nat.add_left_cancel harea,
        Nat.div_add_mod]
    cases p
    simp_all
  off_meta := by
    intro p right hplane h
    simp only [location, hm.getROPhysicalAddr_eq hfit, metaBlock] at h
    have hrange := hm.areaBlock_range hfit p
    have hzero := hm.inArea (Nat.zero_le cfg.roAreaPB)
    rw [Nat.zero_div, zero_add] at hzero
    obtain ⟨hbank, hpbn, -⟩ := hm.planeBlock_injective (hm.inArea hrange.2) hzero p.plane hplane h
    -- bank and block are those of block 0 of the area, which no partition has
    have hdivmod := Nat.div_add_mod (areaBlock vol p) vol.geometry.banksTotal
    rw [Nat.add_eq_right.mp hpbn] at hdivmod
    omega
  inside := by
    intro p
    simp only [location, hm.getROPhysicalAddr_eq hfit]
    exact hm.planeBlock_inside p.right (hm.inArea (hm.areaBlock_range hfit p).2)

/-! ### Tables that do not fit -/

/-- As many banks as the area has blocks, and no bad blocks. -/
def wideVolume (cfg : ROConfig) (tbl : Nat → ROPartTbl) : Volume where
  geometry := ⟨4, false, 2, 8, cfg.roAreaPB + 1, false, 4, .inl rfl, le_rfl⟩
  vflCxt := fun _ => ⟨0, fun _ => 0, fun _ => 0xFF⟩
  patTbl := tbl
  eccError := fun _ _ _ => false

lemma wideVolume_roAreaSize (cfg : ROConfig) (tbl : Nat → ROPartTbl) :
    (wideVolume cfg tbl).geometry.roAreaSize cfg = 1 := by
  simp only [roAreaSize, wideVolume]
  rw [Nat.div_eq_iff (by omega)]
  omega

lemma wideVolume_mounted (h : cfg.configureROAreaMeta = some tbl) :
    Mounted cfg (wideVolume cfg tbl) where
  banks_pos := Nat.succ_pos _
  table := h
  blocks_le := by
    rw [wideVolume_roAreaSize]
    simp [wideVolume, roAreaStart, vflAreaStart]
  cover := fun _ => le_rfl
  distinct := by
    intro bank idx hidx
    simp [wideVolume] at hidx

lemma remapBadBlk_wideVolume (cfg : ROConfig) (tbl : Nat → ROPartTbl) (bank pbn : Nat) :
    (remapBadBlk (wideVolume cfg tbl) bank pbn).lPbn = pbn := by
  have hrange := (remapBadBlk_one (wideVolume cfg tbl) bank pbn rfl).range
  simp only [wideVolume, add_zero] at hrange ⊢
  omega

lemma wideVolume_not_private (h : cfg.configureROAreaMeta = some tbl)
    (hover : cfg.roAreaPB < cfg.blocksBefore MAX_RO_PARTS) :
    ¬PrivatePages cfg (wideVolume cfg tbl) := by
  intro hprivate
  have hlt := cfg.roAreaPB_lt
  obtain ⟨m, hm, hbefore, hafter⟩ := cfg.exists_crossing hover
  have htbl := ROConfig.table_eq h m
  rw [cfg.lastOffset_toNat (by omega)] at htbl
  rw [ROConfig.blocksBefore] at hafter
  -- the first block past the area
  let p : ROPage (wideVolume cfg tbl) :=
    { partNo := m, lpn := (cfg.roAreaPB - cfg.blocksBefore m) * 2, right := false,
      partNo_lt := hm, lpn_lt := by omega,
      inPart := by
        simp only [wideVolume, htbl]
        omega
      plane := by simp }
  have hinside := hprivate.inside p
  have hwrap : (cfg.blocksBefore m + 1 + (cfg.roAreaPB - cfg.blocksBefore m)) % 2 ^ 32 =
      cfg.roAreaPB + 1 := by
    omega
  have haddr : (getROPhysicalAddr (wideVolume cfg tbl) m
      ((cfg.roAreaPB - cfg.blocksBefore m) * 2)).pbn = 6 := by
    simp only [getROPhysicalAddr, wideVolume, htbl, roAreaStart, vflAreaStart]
    rw [Nat.mul_div_cancel _ (by decide), hwrap, Nat.div_self (by omega)]
  have hblock : (location (wideVolume cfg tbl) p).1.block = 6 := by
    have htwo : (wideVolume cfg tbl).geometry.twoPlaneProgram = false := rfl
    simp only [location, planeBlock, htwo, Bool.false_eq_true, ↓reduceIte, remapBadBlk_wideVolume]
    exact haddr
  have hstart : (wideVolume cfg tbl).geometry.roAreaStart = 5 := rfl
  simp only [hblock, wideVolume_roAreaSize, hstart] at hinside
  omega

/-- Of the tables that `_ConfigureROAreaMeta` accepts, exactly those whose sizes add up to no more
than the area keep the pages private on every volume. -/
theorem ro_pages_private_iff (cfg : ROConfig) (h : cfg.configureROAreaMeta.isSome) :
    (∀ vol, Mounted cfg vol → PrivatePages cfg vol) ↔
      cfg.blocksBefore MAX_RO_PARTS ≤ cfg.roAreaPB := by
  constructor
  · intro hall
    obtain ⟨tbl, htbl⟩ := isSome_iff_exists.mp h
    by_contra hover
    exact wideVolume_not_private htbl (Nat.lt_of_not_le hover)
      (hall _ (wideVolume_mounted htbl))
  · exact fun hfit vol hm => hm.privatePages hfit

def shippedConfig : ROConfig where
  roAreaPB := 296
  patPB := fun n => if n = 0 then 8 else if n = 1 then 40 else if n = 2 then 96
    else if n = 3 then 152 else 0
  roAreaPB_lt := by decide

theorem ro_pages_private_shipped :
    shippedConfig.configureROAreaMeta.isSome ∧
      ∀ vol, Mounted shippedConfig vol → PrivatePages shippedConfig vol :=
  ⟨by decide, (ro_pages_private_iff shippedConfig (by decide)).mpr (by decide)⟩

/-- Two partitions of half the range of `nLastOffset` each: the third starts where the first
does. -/
def wrappedConfig : ROConfig where
  roAreaPB := 296
  patPB := fun n => if n < 2 then 0x80000000 else if n = 2 then 8 else 0
  roAreaPB_lt := by decide

/-- The table is accepted, and the first pages of two partitions are one. -/
theorem ro_pages_collide :
    ∃ tbl, wrappedConfig.configureROAreaMeta = some tbl ∧
      Mounted wrappedConfig (wideVolume wrappedConfig tbl) ∧
      ∃ p q : ROPage (wideVolume wrappedConfig tbl), p.partNo = 0 ∧ q.partNo = 2 ∧
        location _ p = location _ q := by
  have hsome : wrappedConfig.configureROAreaMeta.isSome := by decide
  obtain ⟨tbl, htbl⟩ := isSome_iff_exists.mp hsome
  have h0 : tbl 0 = ⟨1, 0x80000000⟩ := ROConfig.table_eq htbl 0
  have h2 : tbl 2 = ⟨1, 8⟩ := ROConfig.table_eq htbl 2
  refine ⟨tbl, htbl, wideVolume_mounted htbl,
    ⟨0, 0, false, by decide, by decide, by simp [wideVolume, h0], by simp⟩,
    ⟨2, 0, false, by decide, by decide, by simp [wideVolume, h2], by simp⟩, rfl, rfl, ?_⟩
  simp only [location, getROPhysicalAddr, wideVolume, h0, h2]

end R0Kernel.Bml
