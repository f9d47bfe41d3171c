import R0Kernel.Foundation.Outcome
import R0Kernel.Fs.Fat.Entry

/-!
# Mounting a FAT volume

The part of `fat_fill_super` that reads the boot sector and the FSINFO sector, checks them and
computes from them where the tables and the clusters lie. All of it is arithmetic on `u32`, which
wraps; the results are used as bounds from then on.
-/

namespace R0Kernel.Fat

open Outcome List FatBits

/-! ### The sectors read -/

abbrev Sector := Fin 512 → Byte

def le16 (b₀ b₁ : Byte) : Nat := b₀.toNat + b₁.toNat * 2 ^ 8

def le32 (b₀ b₁ b₂ b₃ : Byte) : Nat := le16 b₀ b₁ + le16 b₂ b₃ * 2 ^ 16

namespace Sector

/-! `struct fat_boot_sector` -/

def sectorSize (b : Sector) : Nat := le16 (b 11) (b 12)

def secPerClus (b : Sector) : Nat := (b 13).toNat

def reserved (b : Sector) : Nat := le16 (b 14) (b 15)

def fats (b : Sector) : Nat := (b 16).toNat

def dirEntries (b : Sector) : Nat := le16 (b 17) (b 18)

def sectors (b : Sector) : Nat := le16 (b 19) (b 20)

def media (b : Sector) : Nat := (b 21).toNat

def fatLength (b : Sector) : Nat := le16 (b 22) (b 23)

def totalSect (b : Sector) : Nat := le32 (b 32) (b 33) (b 34) (b 35)

def fat32Length (b : Sector) : Nat := le32 (b 36) (b 37) (b 38) (b 39)

def rootCluster (b : Sector) : Nat := le32 (b 44) (b 45) (b 46) (b 47)

def infoSector (b : Sector) : Nat := le16 (b 48) (b 49)

/-- The total sector count: `sectors`, or `total_sect` where that is zero. -/
def totalSectors (b : Sector) : Nat := if b.sectors = 0 then b.totalSect else b.sectors

/-! `struct fat_boot_fsinfo` -/

def signature1 (b : Sector) : Nat := le32 (b 0) (b 1) (b 2) (b 3)

def signature2 (b : Sector) : Nat := le32 (b 484) (b 485) (b 486) (b 487)

def freeClusters (b : Sector) : Nat := le32 (b 488) (b 489) (b 490) (b 491)

def nextCluster (b : Sector) : Nat := le32 (b 492) (b 493) (b 494) (b 495)

def isFsinfo (b : Sector) : Bool := b.signature1 == 0x41615252 && b.signature2 == 0x61417272

end Sector

/-- The device as the mount sees it: what its two sectors hold, the block size that
`sb_min_blocksize` has left, and which reads and changes of the block size succeed. -/
structure Device where
  boot : Sector
  fsinfo : Sector
  blocksize : Nat
  setBlocksize : Nat → Bool
  bread : (blocksize block : Nat) → Bool

inductive Errno where
  | einval
  | eio
  deriving DecidableEq

/-! ### The checks -/

def u32 (n : Nat) : Nat := n % 2 ^ 32

def subU32 (a b : Nat) : Nat := u32 (a + 2 ^ 32 - b)

def PAGE_CACHE_SIZE : Nat := 4096

def isPowerOf2 (n : Nat) : Bool := n != 0 && n &&& (n - 1) == 0

def fatValidMedia (x : Nat) : Bool := (0xF8 ≤ x && x ≤ 0xFF) || x == 0xF0

/-- `free_clusters` where it is not known. -/
def FREE_UNKNOWN : Nat := 2 ^ 32 - 1

/-- The checks up to the choice of the block size, which is returned. -/
def checkBoot (dev : Device) : Except Errno Nat :=
  let b := dev.boot
  if dev.bread dev.blocksize 0 = false then .error .eio
  else if b.reserved = 0 then .error .einval
  else if b.fats = 0 then .error .einval
  else if fatValidMedia b.media = false then .error .einval
  else if isPowerOf2 b.sectorSize = false ∨ b.sectorSize < 512 ∨ PAGE_CACHE_SIZE < b.sectorSize then
    .error .einval
  else if isPowerOf2 b.secPerClus = false then .error .einval
  else if b.sectorSize < dev.blocksize then .error .eio
  else if dev.blocksize < b.sectorSize then
    if dev.setBlocksize b.sectorSize = false then .error .eio
    else if dev.bread b.sectorSize 0 = false then .error .eio
    else .ok b.sectorSize
  else .ok dev.blocksize

/-- What is known once the FAT32 fields have been looked at. -/
structure Fat32Fields where
  is32 : Bool
  fatLength : Nat
  rootCluster : Nat
  fsinfoSector : Nat
  freeClusters : Nat
  prevFree : Nat

/-- The block that starts at `Must be FAT32`, and the defaults before it. -/
def readFat32 (dev : Device) (usefree : Bool) (blocksize : Nat) : Except Errno Fat32Fields :=
  let b := dev.boot
  if b.fatLength = 0 ∧ b.fat32Length ≠ 0 then
    let fsinfoSector := if b.infoSector = 0 then 1 else b.infoSector
    if dev.bread blocksize fsinfoSector = false then .error .eio
    else if dev.fsinfo.isFsinfo then
      .ok ⟨true, b.fat32Length, b.rootCluster, fsinfoSector,
        if usefree then dev.fsinfo.freeClusters else FREE_UNKNOWN, dev.fsinfo.nextCluster⟩
    else .ok ⟨true, b.fat32Length, b.rootCluster, fsinfoSector, FREE_UNKNOWN, FAT_START_ENT⟩
  else .ok ⟨false, b.fatLength, 0, 0, FREE_UNKNOWN, FAT_START_ENT⟩

/-- `struct msdos_sb_info`, with the block size of the super block. -/
structure Sbi where
  blocksize : Nat
  secPerClus : Nat
  fats : Nat
  fatBits : FatBits
  fatStart : Nat
  fatLength : Nat
  dirStart : Nat
  dirEntries : Nat
  dataStart : Nat
  maxCluster : Nat
  rootCluster : Nat
  fsinfoSector : Nat
  prevFree : Nat
  freeClusters : Nat
  dirPerBlock : Nat
  deriving DecidableEq

/-- The number of entries that the table holds, as the check computes it. -/
def fatClusters (bits : FatBits) (fatLength blocksize : Nat) : Nat :=
  u32 (fatLength * blocksize * 8) / bits.toNat

/-- From the directory on: where everything lies and how many clusters there are. -/
def layout (b : Sector) (blocksize : Nat) (f : Fat32Fields) : Except Errno Sbi :=
  let dirPerBlock := blocksize / 32
  let dirStart := u32 (b.reserved + b.fats * f.fatLength)
  if b.dirEntries &&& (dirPerBlock - 1) ≠ 0 then .error .einval
  else
    let rootdirSectors := b.dirEntries * 32 / blocksize
    let dataStart := u32 (dirStart + rootdirSectors)
    let totalClusters := subU32 b.totalSectors dataStart / b.secPerClus
    let fatBits :=
      if f.is32 then .fat32
      else if maxFat .fat12 < totalClusters then .fat16 else .fat12
    -- check that FAT table does not overflow
    let totalClusters :=
      min totalClusters (subU32 (fatClusters fatBits f.fatLength blocksize) FAT_START_ENT)
    if fatBits.maxFat < totalClusters then .error .einval
    else
      let maxCluster := totalClusters + FAT_START_ENT
      let prevFree := f.prevFree % maxCluster
      .ok {
        blocksize
        secPerClus := b.secPerClus
        fats := b.fats
        fatBits
        fatStart := b.reserved
        fatLength := f.fatLength
        dirStart
        dirEntries := b.dirEntries
        dataStart
        maxCluster
        rootCluster := f.rootCluster
        fsinfoSector := f.fsinfoSector
        prevFree := if prevFree < FAT_START_ENT then FAT_START_ENT else prevFree
        freeClusters :=
          if f.freeClusters ≠ FREE_UNKNOWN ∧ totalClusters < f.freeClusters then FREE_UNKNOWN
          else f.freeClusters
        dirPerBlock }

/-- `fat_fill_super`, up to the last check that reads a sector. -/
def fatFillSuper (dev : Device) (usefree : Bool) : Except Errno Sbi := do
  let blocksize ← checkBoot dev
  let f ← readFat32 dev usefree blocksize
  layout dev.boot blocksize f

/-! ### What the result is used for -/

/-- `ent_blocknr`: the offset and the block of an entry. No entry of a mounted volume comes near
the sign bit of its `int`. -/
def Sbi.entBlocknr (sbi : Sbi) (entry : Nat) : Nat × Nat :=
  let bytes := sbi.fatBits.entOffset entry
  (bytes &&& (sbi.blocksize - 1), sbi.fatStart + bytes >>> sbi.blocksize.log2)

/-- The bytes `ent_bread` and `ent_set_ptr` make accessible, each as a block and an offset in it.
Only an entry of twelve bits can lie on a block boundary. -/
def Sbi.entBytes (sbi : Sbi) (entry : Nat) : List (Nat × Nat) :=
  let (offset, blocknr) := sbi.entBlocknr entry
  match sbi.fatBits with
  | .fat12 =>
    if offset + 1 < sbi.blocksize then [(blocknr, offset), (blocknr, offset + 1)]
    else [(blocknr, offset), (blocknr + 1, 0)]
  | .fat16 => [(blocknr, offset), (blocknr, offset + 1)]
  | .fat32 => [(blocknr, offset), (blocknr, offset + 1), (blocknr, offset + 2),
    (blocknr, offset + 3)]

def Sbi.fatClusToBlknr (sbi : Sbi) (clus : Nat) : Nat :=
  u32 ((clus - FAT_START_ENT) * sbi.secPerClus + sbi.dataStart)

def Sbi.IsCluster (sbi : Sbi) (c : Nat) : Prop := FAT_START_ENT ≤ c ∧ c < sbi.maxCluster

/-- What the rest of the filesystem relies on. -/
structure Sbi.Safe (sbi : Sbi) (totalSectors : Nat) : Prop where
  entry_inside : ∀ c, sbi.IsCluster c → ∀ p ∈ sbi.entBytes c,
    sbi.fatStart ≤ p.1 ∧ p.1 < sbi.fatStart + sbi.fatLength ∧ p.2 < sbi.blocksize
  blocks_inside : ∀ c, sbi.IsCluster c → ∀ i < sbi.secPerClus,
    sbi.dataStart ≤ sbi.fatClusToBlknr c + i ∧ sbi.fatClusToBlknr c + i < totalSectors
  prevFree_valid : sbi.IsCluster sbi.prevFree
  link_readable : ∀ c, sbi.IsCluster c → ∀ (t : Table) (e : Nat),
    entGet sbi.fatBits (entPut sbi.fatBits t e c) e ≠ FAT_ENT_FREE ∧
      entGet sbi.fatBits (entPut sbi.fatBits t e c) e ≠ FAT_ENT_EOF

/-! ### Accepted volumes -/

lemma le16_lt (b₀ b₁ : Byte) : le16 b₀ b₁ < 2 ^ 16 := by
  simp only [le16]
  omega

lemma le32_lt (b₀ b₁ b₂ b₃ : Byte) : le32 b₀ b₁ b₂ b₃ < 2 ^ 32 := by
  have hlow := le16_lt b₀ b₁
  have hhigh := le16_lt b₂ b₃
  simp only [le32]
  omega

lemma Sector.totalSectors_lt (b : Sector) : b.totalSectors < 2 ^ 32 := by
  rw [Sector.totalSectors]
  split
  · exact le32_lt ..
  · exact (le16_lt ..).trans (by decide)

lemma exists_pow_of_isPowerOf2 {n : Nat} (h : isPowerOf2 n = true) : ∃ k, n = 2 ^ k := by
  simp only [isPowerOf2, Bool.and_eq_true, bne_iff_ne, beq_iff_eq] at h
  exact (Nat.and_sub_one_eq_zero_iff_isPowerOfTwo h.1).mp h.2

variable {dev : Device} {blocksize : Nat} {sbi : Sbi}

/-- The sector size is a power of two, and the block size of the device is made to be it. -/
lemma checkBoot_ok (h : checkBoot dev = .ok blocksize) :
    blocksize = dev.boot.sectorSize ∧ (∃ k, 9 ≤ k ∧ k ≤ 12 ∧ dev.boot.sectorSize = 2 ^ k) ∧
      0 < dev.boot.secPerClus := by
  simp only [checkBoot, ite_error_eq_ok, not_or, Bool.not_eq_false] at h
  obtain ⟨-, -, -, -, ⟨hpow, hmin, hpage⟩, hclus, hsmall, h⟩ := h
  have hblock : blocksize = dev.boot.sectorSize := by
    by_cases hlarge : dev.blocksize < dev.boot.sectorSize
    · rw [if_pos hlarge, ite_error_eq_ok, ite_error_eq_ok] at h
      exact (Except.ok.inj h.2.2).symm
    · rw [if_neg hlarge] at h
      have := Except.ok.inj h
      omega
  obtain ⟨k, hk⟩ := exists_pow_of_isPowerOf2 hpow
  obtain ⟨j, hj⟩ := exists_pow_of_isPowerOf2 hclus
  refine ⟨hblock, ⟨k, ?_, ?_, hk⟩, hj ▸ Nat.two_pow_pos j⟩
  · exact (Nat.pow_le_pow_iff_right (by decide : 1 < 2)).mp (hk ▸ not_lt.mp hmin)
  · exact (Nat.pow_le_pow_iff_right (by decide : 1 < 2)).mp (hk ▸ not_lt.mp hpage)

def Sector.tableLength (b : Sector) : Nat := if b.fatLength = 0 then b.fat32Length else b.fatLength

lemma readFat32_ok {usefree : Bool} {f : Fat32Fields}
    (h : readFat32 dev usefree blocksize = .ok f) : f.fatLength = dev.boot.tableLength ∧
      (dev.boot.fatLength = 0 → 0 < dev.boot.tableLength → f.is32 = true) := by
  rw [readFat32] at h
  unfold Sector.tableLength
  split at h
  next h32 =>
    rw [if_pos h32.1]
    dsimp only at h
    rw [ite_error_eq_ok] at h
    obtain ⟨-, h⟩ := h
    split at h <;> cases h <;> exact ⟨rfl, fun _ _ => rfl⟩
  next hnot =>
    cases h
    dsimp only
    split_ifs with hzero
    · exact ⟨by omega, by omega⟩
    · exact ⟨rfl, fun hzero' => absurd hzero' hzero⟩

/-- The first sector behind the tables and the root directory, as the code computes it. -/
def Sector.dataStart (b : Sector) : Nat :=
  u32 (b.reserved + b.fats * b.tableLength + b.dirEntries * 32 / b.sectorSize)

/-- What the checks leave of a volume that is accepted. -/
structure Accepted (b : Sector) (sbi : Sbi) : Prop where
  sectorSize_pow : ∃ k, 9 ≤ k ∧ k ≤ 12 ∧ b.sectorSize = 2 ^ k
  secPerClus_pos : 0 < b.secPerClus
  blocksize_eq : sbi.blocksize = b.sectorSize
  secPerClus_eq : sbi.secPerClus = b.secPerClus
  fatLength_eq : sbi.fatLength = b.tableLength
  dataStart_eq : sbi.dataStart = b.dataStart
  fat32 : b.fatLength = 0 → 0 < b.tableLength → sbi.fatBits = .fat32
  maxCluster_eq : sbi.maxCluster =
    min (subU32 b.totalSectors sbi.dataStart / sbi.secPerClus)
      (subU32 (fatClusters sbi.fatBits sbi.fatLength sbi.blocksize) FAT_START_ENT) + FAT_START_ENT
  maxCluster_le : sbi.maxCluster ≤ sbi.fatBits.maxFat + FAT_START_ENT
  prevFree_eq : ∃ n, sbi.prevFree =
    if n % sbi.maxCluster < FAT_START_ENT then FAT_START_ENT else n % sbi.maxCluster

lemma fatFillSuper_ok {usefree : Bool} (h : fatFillSuper dev usefree = .ok sbi) :
    Accepted dev.boot sbi := by
  obtain ⟨blocksize, hboot, h⟩ := bind_eq_ok h
  obtain ⟨f, hf, h⟩ := bind_eq_ok h
  obtain ⟨hsize, hpow, hclus⟩ := checkBoot_ok hboot
  obtain ⟨hlength, h32⟩ := readFat32_ok hf
  simp only [layout, ite_error_eq_ok] at h
  obtain ⟨-, hmax, h⟩ := h
  obtain rfl := Except.ok.inj h
  exact {
    sectorSize_pow := hpow
    secPerClus_pos := hclus
    blocksize_eq := hsize
    secPerClus_eq := rfl
    fatLength_eq := hlength
    dataStart_eq := by simp only [u32, Sector.dataStart, hlength, hsize, Nat.mod_add_mod]
    fat32 := fun hzero hpos => by simp only [h32 hzero hpos, if_true]
    maxCluster_eq := rfl
    maxCluster_le := Nat.add_le_add_right (not_lt.mp hmax) _
    prevFree_eq := ⟨f.prevFree, rfl⟩ }

/-! ### Where the entries lie -/

section Entries

variable {sbi : Sbi} {n : Nat}

/-- The block and the offset of a byte of the table. -/
def Sbi.place (sbi : Sbi) (n : Nat) : Nat × Nat :=
  (sbi.fatStart + n / sbi.blocksize, n % sbi.blocksize)

lemma Sbi.place_add {j : Nat} (h : n % sbi.blocksize + j < sbi.blocksize) :
    sbi.place (n + j) = (sbi.fatStart + n / sbi.blocksize, n % sbi.blocksize + j) := by
  have heq : n % sbi.blocksize + j + sbi.blocksize * (n / sbi.blocksize) = n + j := by
    have := Nat.mod_add_div n sbi.blocksize
    omega
  obtain ⟨hdiv, hmod⟩ := (Nat.div_mod_unique (by omega)).mpr ⟨heq, h⟩
  rw [Sbi.place, hdiv, hmod]

/-- The byte after the last one of a block. -/
lemma Sbi.place_succ (h : n % sbi.blocksize + 1 = sbi.blocksize) :
    sbi.place (n + 1) = (sbi.fatStart + n / sbi.blocksize + 1, 0) := by
  have heq : 0 + sbi.blocksize * (n / sbi.blocksize + 1) = n + 1 := by
    have := Nat.mod_add_div n sbi.blocksize
    rw [mul_add]
    omega
  obtain ⟨hdiv, hmod⟩ := (Nat.div_mod_unique (by omega)).mpr ⟨heq, by omega⟩
  rw [Sbi.place, hdiv, hmod, add_assoc]

lemma Sbi.place_inside_iff (hpos : 0 < sbi.blocksize) (n : Nat) :
    (sbi.fatStart ≤ (sbi.place n).1 ∧ (sbi.place n).1 < sbi.fatStart + sbi.fatLength ∧
      (sbi.place n).2 < sbi.blocksize) ↔ n < sbi.fatLength * sbi.blocksize := by
  have hmod := Nat.mod_lt n hpos
  rw [← Nat.div_lt_iff_lt_mul hpos]
  simp [Sbi.place, hmod]

lemma entOffset_mod_add_le {d q : Nat} (hd : d ∣ n) (hq : d ∣ q) (hpos : 0 < q) :
    n % q + d ≤ q := by
  obtain ⟨x, hx⟩ := (Nat.dvd_mod_iff hq).mpr hd
  obtain ⟨y, hy⟩ := hq
  have hlt : d * x < d * y := hx ▸ hy ▸ Nat.mod_lt n hpos
  calc n % q + d = d * (x + 1) := by rw [hx, mul_add, mul_one]
    _ ≤ d * y := Nat.mul_le_mul_left d (Nat.lt_of_mul_lt_mul_left hlt)
    _ = q := hy.symm

lemma Sbi.entBlocknr_eq {k : Nat} (hk : sbi.blocksize = 2 ^ k) (c : Nat) :
    sbi.entBlocknr c = (sbi.fatBits.entOffset c % sbi.blocksize,
      sbi.fatStart + sbi.fatBits.entOffset c / sbi.blocksize) := by
  simp only [Sbi.entBlocknr, hk, Nat.and_two_pow_sub_one_eq_mod, Nat.log2_two_pow,
    Nat.shiftRight_eq_div_pow]

section

variable (hpow : ∃ k, 2 ≤ k ∧ sbi.blocksize = 2 ^ k) (c : Nat)

include hpow

/-- The accessible bytes are the `entSize` bytes of the table from `entOffset` on. -/
lemma Sbi.entBytes_eq :
    sbi.entBytes c =
      (List.range sbi.fatBits.entSize).map fun j => sbi.place (sbi.fatBits.entOffset c + j) := by
  obtain ⟨k, hle, hk⟩ := hpow
  have hpos : 0 < sbi.blocksize := hk ▸ Nat.two_pow_pos k
  have hfour : 4 ∣ sbi.blocksize := hk ▸ pow_dvd_pow 2 hle
  have hfirst (n : Nat) : sbi.place n = (sbi.fatStart + n / sbi.blocksize, n % sbi.blocksize) := rfl
  simp only [Sbi.entBytes, Sbi.entBlocknr_eq hk]
  cases sbi.fatBits with
  | fat12 =>
    generalize fat12.entOffset c = n
    have hlt := Nat.mod_lt n hpos
    by_cases hin : n % sbi.blocksize + 1 < sbi.blocksize
    · simp [entSize, range_succ, hin, hfirst n, Sbi.place_add hin]
    · have hlast : n % sbi.blocksize + 1 = sbi.blocksize := by omega
      simp [entSize, range_succ, hin, hfirst n, Sbi.place_succ hlast]
  | fat16 =>
    have htwo : 2 ∣ fat16.entOffset c := by simp [entOffset, Nat.shiftLeft_eq]
    have hfit := entOffset_mod_add_le htwo (Nat.dvd_trans (by decide) hfour) hpos
    generalize fat16.entOffset c = n at hfit
    have hadd : sbi.place (n + 1) = _ := Sbi.place_add (by omega)
    simp [entSize, range_succ, hfirst n, hadd]
  | fat32 =>
    have hdvd : 4 ∣ fat32.entOffset c := by simp [entOffset, Nat.shiftLeft_eq]
    have hfit := entOffset_mod_add_le hdvd hfour hpos
    generalize fat32.entOffset c = n at hfit
    have hadd : ∀ j < 4, sbi.place (n + j) = _ := fun j hj => Sbi.place_add (by omega)
    simp [entSize, range_succ, hfirst n, hadd]

/-- All bytes of an entry lie in the table exactly when the last one does. -/
lemma Sbi.entBytes_inside_iff :
    (∀ p ∈ sbi.entBytes c, sbi.fatStart ≤ p.1 ∧ p.1 < sbi.fatStart + sbi.fatLength ∧
      p.2 < sbi.blocksize) ↔
      sbi.fatBits.entOffset c + sbi.fatBits.entSize ≤ sbi.fatLength * sbi.blocksize := by
  have hpos : 0 < sbi.blocksize := by
    obtain ⟨k, -, hk⟩ := hpow
    exact hk ▸ Nat.two_pow_pos k
  have hsize : 0 < sbi.fatBits.entSize := by cases sbi.fatBits <;> decide
  simp only [Sbi.entBytes_eq hpow, forall_mem_map, mem_range,
    Sbi.place_inside_iff hpos]
  constructor
  · intro h
    have := h (sbi.fatBits.entSize - 1) (by omega)
    omega
  · omega

end

/-- An entry whose bits are in the table has its bytes there, the shared byte included. -/
lemma FatBits.entOffset_add_size_le (bits : FatBits) {c : Nat}
    (h : (c + 1) * bits.toNat ≤ n * 8) : bits.entOffset c + bits.entSize ≤ n := by
  cases bits <;>
    simp only [FatBits.toNat, entOffset, entSize, Nat.shiftLeft_eq,
      Nat.shiftRight_eq_div_pow] at h ⊢ <;> omega

lemma FatBits.entOffset_mono (bits : FatBits) {c c' : Nat} (h : c ≤ c') :
    bits.entOffset c ≤ bits.entOffset c' := by
  cases bits <;>
    simp only [entOffset, Nat.shiftLeft_eq, Nat.shiftRight_eq_div_pow] <;> omega

end Entries

/-! ### When an accepted volume is safe -/

section Accepted

variable {b : Sector} {sbi : Sbi}

lemma Accepted.blocksize_pow (h : Accepted b sbi) : ∃ k, 2 ≤ k ∧ sbi.blocksize = 2 ^ k := by
  obtain ⟨k, hk, -, hsize⟩ := h.sectorSize_pow
  exact ⟨k, by omega, h.blocksize_eq.trans hsize⟩

lemma subU32_of_le {a b : Nat} (ha : a < 2 ^ 32) (h : b ≤ a) : subU32 a b = a - b := by
  simp only [subU32, u32]
  omega

lemma fatClusters_lt (bits : FatBits) (fatLength blocksize : Nat) :
    fatClusters bits fatLength blocksize < 2 ^ 32 :=
  (Nat.div_le_self ..).trans_lt (Nat.mod_lt _ (by decide))

section

variable (h : Accepted b sbi)

include h

section

variable (hfat : 2 ≤ fatClusters sbi.fatBits sbi.fatLength sbi.blocksize)

include hfat

/-- The table check where it did not wrap: no more clusters than entries. -/
lemma Accepted.maxCluster_le_fatClusters :
    sbi.maxCluster ≤ fatClusters sbi.fatBits sbi.fatLength sbi.blocksize := by
  have hmax := h.maxCluster_eq
  simp only [FAT_START_ENT] at hmax
  rw [subU32_of_le (fatClusters_lt ..) hfat] at hmax
  omega

lemma Accepted.entry_end_le {c : Nat} (hc : c < sbi.maxCluster) :
    sbi.fatBits.entOffset c + sbi.fatBits.entSize ≤ sbi.fatLength * sbi.blocksize := by
  apply entOffset_add_size_le
  have hle : c + 1 ≤ fatClusters sbi.fatBits sbi.fatLength sbi.blocksize :=
    hc.trans_le (h.maxCluster_le_fatClusters hfat)
  calc (c + 1) * sbi.fatBits.toNat
      ≤ fatClusters sbi.fatBits sbi.fatLength sbi.blocksize * sbi.fatBits.toNat :=
        Nat.mul_le_mul_right _ hle
    _ ≤ u32 (sbi.fatLength * sbi.blocksize * 8) := Nat.div_mul_le_self ..
    _ ≤ sbi.fatLength * sbi.blocksize * 8 := Nat.mod_le ..

/-- Every cluster number is below the bad mark, so that it can be stored as a link. -/
lemma Accepted.maxCluster_le_bad :
    sbi.maxCluster ≤ sbi.fatBits.bad := by
  have hle := h.maxCluster_le_fatClusters hfat
  have hmax := h.maxCluster_le
  cases hbits : sbi.fatBits <;> rw [hbits] at hle hmax
  · exact hmax.trans (by decide)
  · exact hmax.trans (by decide)
  · have hlt : u32 (sbi.fatLength * sbi.blocksize * 8) < 2 ^ 32 := Nat.mod_lt _ (by decide)
    simp only [fatClusters, FatBits.toNat, FatBits.bad] at hle ⊢
    omega

end

/-- The blocks of a cluster, where the data area starts inside the volume. -/
lemma Accepted.blocks_inside (hstart : sbi.dataStart ≤ b.totalSectors) {c : Nat}
    (hc : sbi.IsCluster c) {i : Nat} (hi : i < sbi.secPerClus) :
    sbi.dataStart ≤ sbi.fatClusToBlknr c + i ∧ sbi.fatClusToBlknr c + i < b.totalSectors := by
  have htotal := b.totalSectors_lt
  have hmax := h.maxCluster_eq
  rw [subU32_of_le htotal hstart] at hmax
  have hlt : c - FAT_START_ENT + 1 ≤ (b.totalSectors - sbi.dataStart) / sbi.secPerClus := by
    have := hc.2
    have := hc.1
    omega
  have hend : (c - FAT_START_ENT) * sbi.secPerClus + sbi.secPerClus ≤
      b.totalSectors - sbi.dataStart := by
    rw [← Nat.succ_mul]
    exact (Nat.mul_le_mul_right _ hlt).trans (Nat.div_mul_le_self ..)
  have hblk : sbi.fatClusToBlknr c = (c - FAT_START_ENT) * sbi.secPerClus + sbi.dataStart :=
    Nat.mod_eq_of_lt (by omega)
  omega

lemma Accepted.prevFree_valid_iff :
    sbi.IsCluster sbi.prevFree ↔ 3 ≤ sbi.maxCluster := by
  obtain ⟨n, hn⟩ := h.prevFree_eq
  have hpos : FAT_START_ENT ≤ sbi.maxCluster := h.maxCluster_eq ▸ Nat.le_add_left ..
  have hlt : n % sbi.maxCluster < sbi.maxCluster :=
    Nat.mod_lt n (lt_of_lt_of_le (by decide) hpos)
  rw [Sbi.IsCluster]
  by_cases hlow : n % sbi.maxCluster < FAT_START_ENT
  · rw [if_pos hlow] at hn
    simp only [FAT_START_ENT] at hn ⊢
    omega
  · rw [if_neg hlow] at hn
    simp only [FAT_START_ENT] at hlow ⊢
    omega

end

/-- A number at or above the bad mark is read back as the end of a chain. -/
lemma link_readable_iff {bits : FatBits} {c : Nat} (hfirst : FAT_START_ENT ≤ c)
    (hc : c < bits.maxFat + FAT_START_ENT) :
    (∀ (t : Table) (e : Nat), entGet bits (entPut bits t e c) e ≠ FAT_ENT_FREE ∧
      entGet bits (entPut bits t e c) e ≠ FAT_ENT_EOF) ↔ c < bits.bad := by
  have hlimit : bits.maxFat + FAT_START_ENT ≤ bits.limit := by cases bits <;> decide
  have heof : bits.maxFat + FAT_START_ENT ≤ FAT_ENT_EOF := by cases bits <;> decide
  constructor
  · intro h
    by_contra hbad
    apply (h (fun _ => 0) 0).2
    have hne : c ≠ FAT_ENT_EOF := by omega
    rw [entGet, entPut, if_neg hne, entRaw_entPutRaw_self bits _ _ (by omega), if_pos (by omega)]
  · intro hbad t e
    rw [entGet_entPut_self t e (.inl hbad)]
    simp only [FAT_START_ENT] at hfirst
    exact ⟨by simp only [FAT_ENT_FREE]; omega, by omega⟩

/-- There is a cluster, the data area starts inside the volume, and the table has room for two
entries as the check counts them. Where that count is below two, the subtraction wraps, and the
table has to be large enough by itself. -/
def Sbi.Sound (sbi : Sbi) (totalSectors : Nat) : Prop :=
  3 ≤ sbi.maxCluster ∧ sbi.dataStart ≤ totalSectors ∧
    (2 ≤ fatClusters sbi.fatBits sbi.fatLength sbi.blocksize ∨
      sbi.fatBits.entOffset (sbi.maxCluster - 1) + sbi.fatBits.entSize ≤
        sbi.fatLength * sbi.blocksize ∧ sbi.maxCluster ≤ sbi.fatBits.bad)

lemma Accepted.safe_of_sound (h : Accepted b sbi) (hs : sbi.Sound b.totalSectors) :
    sbi.Safe b.totalSectors := by
  obtain ⟨hthree, hstart, hfat⟩ := hs
  have hend : ∀ c, sbi.IsCluster c →
      sbi.fatBits.entOffset c + sbi.fatBits.entSize ≤ sbi.fatLength * sbi.blocksize := by
    intro c hc
    obtain hfat | ⟨hlast, -⟩ := hfat
    · exact h.entry_end_le hfat hc.2
    · have :=
        sbi.fatBits.entOffset_mono (show c ≤ sbi.maxCluster - 1 from Nat.le_sub_one_of_lt hc.2)
      omega
  have hbad : sbi.maxCluster ≤ sbi.fatBits.bad := hfat.elim h.maxCluster_le_bad And.right
  exact {
    entry_inside := fun c hc => (Sbi.entBytes_inside_iff h.blocksize_pow c).mpr (hend c hc)
    blocks_inside := fun c hc i hi => h.blocks_inside hstart hc hi
    prevFree_valid := h.prevFree_valid_iff.mpr hthree
    link_readable := fun c hc =>
      (link_readable_iff hc.1 (hc.2.trans_le h.maxCluster_le)).mpr (hc.2.trans_le hbad) }

lemma Accepted.sound_of_safe (h : Accepted b sbi) (hs : sbi.Safe b.totalSectors) :
    sbi.Sound b.totalSectors := by
  have hthree := h.prevFree_valid_iff.mp hs.prevFree_valid
  refine ⟨hthree, ?_, .inr ⟨?_, ?_⟩⟩
  · -- the first block of the first cluster is where the data area starts
    have hfirst : sbi.fatClusToBlknr FAT_START_ENT = sbi.dataStart := by
      simp [Sbi.fatClusToBlknr, h.dataStart_eq, Sector.dataStart, u32]
    have := (hs.blocks_inside FAT_START_ENT ⟨le_rfl, hthree⟩ 0
      (h.secPerClus_eq ▸ h.secPerClus_pos)).2
    omega
  all_goals
    have hlast : sbi.IsCluster (sbi.maxCluster - 1) := by
      simp only [Sbi.IsCluster, FAT_START_ENT]
      omega
  · exact (Sbi.entBytes_inside_iff h.blocksize_pow _).mp (hs.entry_inside _ hlast)
  · have := (link_readable_iff hlast.1 (hlast.2.trans_le h.maxCluster_le)).mp
      (hs.link_readable _ hlast)
    omega

/-- The boot sectors of safe volumes. There is room for a cluster behind a table that is not empty.
Where the size of the table in bits is a multiple of `2 ^ 32`, the check is of no use: then the
table has an entry for every cluster, and no cluster has the number of the bad mark. -/
def Sector.Sound (b : Sector) : Prop :=
  let table := b.tableLength * b.sectorSize
  let clusters := (b.totalSectors - b.dataStart) / b.secPerClus
  b.dataStart + b.secPerClus ≤ b.totalSectors ∧ 0 < b.tableLength ∧
    (¬2 ^ 29 ∣ table ∨ 4 * (clusters + 2) ≤ table ∧ clusters + 2 ≤ 0x0FFFFFF7)

/-- Tables of sectors have no entries by the count of the check, or many. -/
lemma fatClusters_cases (bits : FatBits) (fatLength : Nat) {blocksize : Nat} (h : 512 ∣ blocksize) :
    2 ^ 29 ∣ fatLength * blocksize ∧ fatClusters bits fatLength blocksize = 0 ∨
      ¬2 ^ 29 ∣ fatLength * blocksize ∧ 128 ≤ fatClusters bits fatLength blocksize := by
  obtain ⟨x, hx⟩ := h.mul_left fatLength
  have hbits : 512 * x * 8 % 2 ^ 32 = 4096 * (x % 2 ^ 20) := by omega
  have hdvd : 2 ^ 29 ∣ 512 * x ↔ x % 2 ^ 20 = 0 := by omega
  rw [fatClusters, u32, hx, hbits, hdvd]
  cases bits <;> rw [FatBits.toNat] <;> omega

/-- A table with the size of an overflow is one of FAT32. -/
lemma Accepted.fat32_of_dvd (h : Accepted b sbi) (hpos : 0 < b.tableLength)
    (hdvd : 2 ^ 29 ∣ b.tableLength * b.sectorSize) : sbi.fatBits = .fat32 := by
  refine h.fat32 ?_ hpos
  by_contra hzero
  obtain ⟨k, -, hk, hsize⟩ := h.sectorSize_pow
  have hsector : b.sectorSize ≤ 2 ^ 12 := hsize ▸ Nat.pow_le_pow_right Nat.two_pos hk
  have hsector' : 0 < b.sectorSize := hsize ▸ Nat.two_pow_pos k
  have hlength : b.tableLength < 2 ^ 16 := by
    rw [Sector.tableLength, if_neg hzero]
    exact le16_lt ..
  have hle := Nat.le_of_dvd (Nat.mul_pos hpos hsector') hdvd
  have hlt := Nat.mul_le_mul hlength.le hsector
  omega

lemma Accepted.sound_iff (h : Accepted b sbi) : sbi.Sound b.totalSectors ↔ b.Sound := by
  have hmax := h.maxCluster_eq
  have hdvd : 512 ∣ b.sectorSize := by
    obtain ⟨k, hk, -, hsize⟩ := h.sectorSize_pow
    exact hsize ▸ pow_dvd_pow 2 hk
  have hcount := fatClusters_cases sbi.fatBits b.tableLength hdvd
  simp only [Sbi.Sound, Sector.Sound, h.blocksize_eq, h.secPerClus_eq, h.fatLength_eq,
    h.dataStart_eq] at hmax ⊢
  by_cases hstart : b.dataStart ≤ b.totalSectors
  swap
  · exact iff_of_false (fun hs => hstart hs.2.1) fun hs => by omega
  rw [subU32_of_le b.totalSectors_lt hstart] at hmax
  have hone : 1 ≤ (b.totalSectors - b.dataStart) / b.secPerClus ↔
      b.dataStart + b.secPerClus ≤ b.totalSectors := by
    rw [Nat.le_div_iff_mul_le h.secPerClus_pos]
    omega
  obtain ⟨hwrap, hzero⟩ | ⟨hwrap, hmany⟩ := hcount
  · rw [hzero] at hmax ⊢
    have hsub : subU32 0 FAT_START_ENT = 2 ^ 32 - 2 := rfl
    rw [hsub] at hmax
    by_cases hpos : 0 < b.tableLength
    · have hmaxFat := h.maxCluster_le
      rw [h.fat32_of_dvd hpos hwrap] at hmaxFat ⊢
      simp only [maxFat, FAT_START_ENT, entOffset, entSize, FatBits.bad, Nat.shiftLeft_eq] at *
      omega
    · have hsize : 0 < sbi.fatBits.entSize := by cases sbi.fatBits <;> decide
      have htable : b.tableLength * b.sectorSize = 0 := by simp [Nat.eq_zero_of_not_pos hpos]
      omega
  · have hpos : 0 < b.tableLength := by
      by_contra hnot
      simp [Nat.eq_zero_of_not_pos hnot] at hwrap
    rw [subU32_of_le (fatClusters_lt ..) (le_trans (by decide) hmany)] at hmax
    simp only [FAT_START_ENT] at hmax
    omega

end Accepted

/-- The geometry of an accepted volume is safe exactly when its boot sector is sound. -/
theorem fat_fill_super_safe (dev : Device) (usefree : Bool) {sbi : Sbi}
    (h : fatFillSuper dev usefree = .ok sbi) :
    sbi.Safe dev.boot.totalSectors ↔ dev.boot.Sound := by
  rw [← (fatFillSuper_ok h).sound_iff]
  exact ⟨(fatFillSuper_ok h).sound_of_safe, (fatFillSuper_ok h).safe_of_sound⟩

/-- A boot sector with the given bytes at the given places, on a device that always answers. -/
def Device.ofBytes (bytes : List (Fin 512 × Byte)) : Device where
  boot := fun i => (bytes.lookup i).getD 0
  fsinfo := fun _ => 0
  blocksize := 512
  setBlocksize := fun _ => true
  bread := fun _ _ => true

/-- A volume of a hundred sectors, three of which come before the data area. -/
theorem fat_fill_super_safe_small :
    let dev := Device.ofBytes
      [(12, 2), (13, 1), (14, 1), (16, 1), (17, 16), (19, 100), (21, 0xF8), (22, 1)]
    ∃ sbi, fatFillSuper dev false = .ok sbi ∧ sbi.Safe dev.boot.totalSectors := by
  let sbi : Sbi := {
    blocksize := 512, secPerClus := 1, fats := 1, fatBits := .fat12, fatStart := 1
    fatLength := 1, dirStart := 2, dirEntries := 16, dataStart := 3, maxCluster := 99
    rootCluster := 0, fsinfoSector := 0, prevFree := 2, freeClusters := FREE_UNKNOWN
    dirPerBlock := 16 }
  intro dev
  have hmount : fatFillSuper dev false = .ok sbi := by decide +kernel
  exact ⟨sbi, hmount, (fat_fill_super_safe dev false hmount).mpr
    ⟨by decide +kernel, by decide +kernel, .inl (by decide +kernel)⟩⟩

/-- A volume of one sector whose table alone takes another one. It is accepted, with the 254
clusters that the table has entries for, the first of them behind the end of the volume. -/
theorem fat_fill_super_wraps :
    let dev := Device.ofBytes [(12, 2), (13, 1), (14, 1), (16, 1), (19, 1), (21, 0xF8), (22, 1)]
    ∃ sbi, fatFillSuper dev false = .ok sbi ∧ sbi.maxCluster = 256 ∧
      dev.boot.totalSectors < sbi.fatClusToBlknr 2 ∧ ¬ sbi.Safe dev.boot.totalSectors := by
  let sbi : Sbi := {
    blocksize := 512, secPerClus := 1, fats := 1, fatBits := .fat16, fatStart := 1
    fatLength := 1, dirStart := 2, dirEntries := 0, dataStart := 2, maxCluster := 256
    rootCluster := 0, fsinfoSector := 0, prevFree := 2, freeClusters := FREE_UNKNOWN
    dirPerBlock := 16 }
  intro dev
  have houtside : dev.boot.totalSectors < sbi.fatClusToBlknr 2 := by decide +kernel
  refine ⟨sbi, by decide +kernel, rfl, houtside, fun h => ?_⟩
  have hinside := (h.blocks_inside 2 ⟨by decide, by decide⟩ 0 (by decide)).2
  omega

end R0Kernel.Fat
