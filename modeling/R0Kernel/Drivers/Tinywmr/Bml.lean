import Mathlib

/-!
# Reads of the BML block device

The read path of a read-only partition, from `bml_transfer` down to the pages the NAND controller
delivers. Every copy on this path moves whole sectors to whole sector offsets, so memory is a map
from sector numbers to sectors; numbers count from the start of the request's buffer, and those past
its length are what lies behind the buffer.
-/

namespace R0Kernel.Bml

abbrev Sector := Fin 512 → BitVec 8

abbrev Mem := Nat → Sector

/-- Return codes are `INT32`, with the top bit set for errors. -/
abbrev Code := BitVec 32

/-! ### The volume -/

/-- What `NAND_Init` and `CalcGlobal` leave in the globals. All rows of `stDEVInfo` have pages of
four or eight sectors and blocks of 64 or 128 pages. -/
structure Geometry where
  sectorsPerPage : Nat
  twoPlaneProgram : Bool
  pagesPerBlock : Nat
  blocksPerBank : Nat
  banksTotal : Nat
  internalInterleaving : Bool
  vflAreaSize : Nat
  sectorsPerPage_mem : sectorsPerPage = 4 ∨ sectorsPerPage = 8
  two_le_pagesPerBlock : 2 ≤ pagesPerBlock

namespace Geometry

variable (g : Geometry)

def numOfPlane : Nat := g.twoPlaneProgram.toNat + 1

/-- `nSctsPerPgLLD`, which is also `SECTORS_PER_SUPAGE`. -/
def sctsPerPgLLD : Nat := g.sectorsPerPage * g.numOfPlane

/-- `nSctsPerPgNAND` -/
def sctsPerPgNAND : Nat := g.sectorsPerPage

def pagesPerBank : Nat := g.blocksPerBank * g.pagesPerBlock

def fullSectorBitmapPage : Nat := 2 ^ (g.sectorsPerPage * g.numOfPlane) - 1

def vflAreaStart : Nat := 1

def reservedSectionStart : Nat := vflAreaStart + 4

def roAreaStart : Nat := vflAreaStart + g.vflAreaSize

end Geometry

open Bml.Geometry

/-- The bad block tables of a bank. -/
structure VFLCxt where
  badMapTableMaxIdx : Nat
  badMapTable : Nat → BitVec 16
  badMark : Nat → BitVec 8

structure ROPartTbl where
  offset : Nat
  sizePB : Nat

/-- A mounted volume. `eccError chip row retry` says that the controller reports an uncorrectable
error when it reads the row. -/
structure Volume where
  geometry : Geometry
  vflCxt : Nat → VFLCxt
  patTbl : Nat → ROPartTbl
  eccError : Nat → Nat → Bool → Bool

/-- What the chips store: a chip, a row of it, and one of the eight pieces the controller's main
buffer takes from the row. -/
abbrev Chips := Nat → Nat → Nat → Sector

/-! ### The flash driver -/

def filSuccess : Code := 0

def filCriticalError : Code := 0x80010000

def filUEccError : Code := 0x80020000

def nandSubpageNum : Nat := 8

/-- `memcpy` of `n` sectors from `src` to `dst`. -/
def copySectors (mem : Mem) (dst n : Nat) (src : Mem) : Mem :=
  fun k => if dst ≤ k ∧ k < dst + n then src (k - dst) else mem k

/-- The loop over the pieces that copies those in the bitmap. -/
def copySubpages (mem : Mem) (dst sctBitmap : Nat) (page : Mem) : Nat → Mem
  | 0 => mem
  | n + 1 =>
    let mem := copySubpages mem dst sctBitmap page n
    if sctBitmap.testBit n then copySectors mem (dst + n) 1 (fun _ => page n) else mem

/-- The chip that holds a bank: with internal interleaving two banks are the two dies of one
chip. -/
def chipOf (g : Geometry) (bank : Nat) : Nat :=
  if g.internalInterleaving then bank / 2 else bank

def rowAddr (g : Geometry) (bank ppn : Nat) : Nat :=
  if g.internalInterleaving ∧ bank % 2 = 1 then ppn + g.pagesPerBank else ppn

/-- `FSL_NFC_Read_FullPage` with a data buffer, no spare buffer and the controller's ECC on: one
retry after an uncorrectable error. -/
def fslNfcReadFullPage (vol : Volume) (chips : Chips) (bank ppn sctBitmap dBuf : Nat) (mem : Mem) :
    Mem × Code :=
  let chip := chipOf vol.geometry bank
  let row := rowAddr vol.geometry bank ppn
  if vol.eccError chip row false ∧ vol.eccError chip row true then (mem, filUEccError)
  else if sctBitmap = 0xFF then (copySectors mem dBuf nandSubpageNum (chips chip row), filSuccess)
  else (copySubpages mem dBuf sctBitmap (chips chip row) nandSubpageNum, filSuccess)

inductive PlaneBitmap where
  | left
  | right
  | both
  deriving DecidableEq

/-- `GET_PlaneBitmap` -/
def PlaneBitmap.ofBlock (pbn : Nat) : PlaneBitmap := if pbn % 2 = 0 then .left else .right

def useTwoPlane : Bool := false

def nandRead (vol : Volume) (chips : Chips) (bank ppn sctBitmap : Nat) (plane : PlaneBitmap)
    (dBuf : Nat) (mem : Mem) : Mem × Code :=
  if vol.geometry.banksTotal ≤ bank ∨ vol.geometry.pagesPerBank ≤ ppn then (mem, filCriticalError)
  else if plane = .both ∧ useTwoPlane then (mem, filSuccess)
  else fslNfcReadFullPage vol chips bank ppn sctBitmap dBuf mem

/-! ### The address of a logical page -/

structure ROAddr where
  bank : Nat
  pbn : Nat
  pOffset : Nat

/-- `_GetROPhysicalAddr`; the block of the area is a `UINT32` sum. -/
def getROPhysicalAddr (vol : Volume) (partNo lpn : Nat) : ROAddr :=
  let g := vol.geometry
  let pb := ((vol.patTbl partNo).offset + lpn / g.pagesPerBlock) % 2 ^ 32
  ⟨pb % g.banksTotal, pb / g.banksTotal + g.roAreaStart, lpn % g.pagesPerBlock⟩

def getPpn (g : Geometry) (pbn pOffset : Nat) : Nat := pbn * g.pagesPerBlock + pOffset

/-- The left and the right block a block number stands for; one plane has only the left one. -/
structure Remapped where
  lPbn : Nat
  rPbn : Nat

def BAD_MARK_COMPRESS_SIZE : Nat := 8

/-- Whether the mark of the group of blocks says that one of them was remapped. -/
def markedBad (cxt : VFLCxt) (pbn : Nat) : Bool :=
  let group := pbn / BAD_MARK_COMPRESS_SIZE
  ¬(cxt.badMark (group / 8)).getLsbD (7 - group % 8)

/-- The search through the table for both planes; it runs on over a block that is already found. -/
def remapBothFrom (cxt : VFLCxt) (srcPbn : Nat) :
    (rounds idx : Nat) → (left right : Option Nat) → Option Nat × Option Nat
  | 0, _, left, right => (left, right)
  | rounds + 1, idx, left, right =>
    let target := reservedSectionStart * 2 + idx
    let entry := cxt.badMapTable idx
    let found :=
      if entry = BitVec.ofNat 16 (srcPbn * 2) then (some target, right)
      else if entry = BitVec.ofNat 16 (srcPbn * 2 + 1) then (left, some target)
      else (left, right)
    if found.1.isSome ∧ found.2.isSome then found
    else remapBothFrom cxt srcPbn rounds (idx + 1) found.1 found.2

/-- The search through the table for one plane. -/
def remapOneFrom (cxt : VFLCxt) (srcPbn : Nat) : (rounds idx : Nat) → Option Nat
  | 0, _ => none
  | rounds + 1, idx =>
    if cxt.badMapTable idx = BitVec.ofNat 16 srcPbn then some (reservedSectionStart + idx)
    else remapOneFrom cxt srcPbn rounds (idx + 1)

def remapBadBlk (vol : Volume) (bank srcPbn : Nat) : Remapped :=
  let cxt := vol.vflCxt bank
  if vol.geometry.twoPlaneProgram then
    let found :=
      if markedBad cxt (srcPbn * 2) then
        remapBothFrom cxt srcPbn (cxt.badMapTableMaxIdx * 2) 0 none none
      else (none, none)
    ⟨found.1.getD (srcPbn * 2), found.2.getD (srcPbn * 2 + 1)⟩
  else
    let found := if markedBad cxt srcPbn then remapOneFrom cxt srcPbn cxt.badMapTableMaxIdx 0
      else none
    ⟨found.getD srcPbn, 0⟩

/-! ### The virtual flash layer -/

def vflCriticalError : Code := 0x80010000

def MAX_RO_PARTS : Nat := 7

/-- The request's memory, and the main area of the internal buffer. -/
structure Buffers where
  buf : Mem
  inner : Mem

/-- `WMR_RETURN_MAJOR(err) > 0`. Error codes are negative, so this never holds of one. -/
def majorPositive (code : Code) : Bool := BitVec.slt 0 (code &&& 0xFFFF0000#32)

/-- The part that `VFL_RO_Read` and `VFL_RO_ReadPL` share: a buffer that is not aligned to four
bytes is filled through the internal one, with `size` sectors copied out at the end. -/
def throughBuffer (aligned : Bool) (pBuf size : Nat) (read : Nat → Mem → Mem × Code) (s : Buffers) :
    Buffers × Code :=
  let r := if aligned then read pBuf s.buf else read 0 s.inner
  let s := if aligned then { s with buf := r.1 } else { s with inner := r.1 }
  if majorPositive r.2 then (s, r.2)
  else if aligned then (s, r.2)
  else ({ s with buf := copySectors s.buf pBuf size s.inner }, r.2)

def readSuperPage (vol : Volume) (chips : Chips) (a : ROAddr) (pData : Nat) (mem : Mem) :
    Mem × Code :=
  let g := vol.geometry
  let b := remapBadBlk vol a.bank a.pbn
  let bitmap := g.fullSectorBitmapPage
  if g.twoPlaneProgram then
    if b.lPbn < b.rPbn ∧ b.lPbn / 2 = b.rPbn / 2 then
      nandRead vol chips a.bank (getPpn g (b.lPbn / 2) a.pOffset) bitmap .both pData mem
    else
      let left := nandRead vol chips a.bank (getPpn g (b.lPbn / 2) a.pOffset) bitmap
        (.ofBlock b.lPbn) pData mem
      let right := nandRead vol chips a.bank (getPpn g (b.rPbn / 2) a.pOffset)
        (bitmap >>> g.sectorsPerPage) (.ofBlock b.rPbn) (pData + g.sectorsPerPage) left.1
      (right.1, left.2 ||| right.2)
  else nandRead vol chips a.bank (getPpn g b.lPbn a.pOffset) bitmap .left pData mem

def vflRORead (vol : Volume) (chips : Chips) (aligned : Bool) (partNo lpn pBuf : Nat)
    (s : Buffers) : Buffers × Code :=
  let g := vol.geometry
  if MAX_RO_PARTS ≤ partNo then (s, vflCriticalError)
  else if (vol.patTbl partNo).sizePB ≤ lpn / g.pagesPerBlock then (s, vflCriticalError)
  else
    throughBuffer aligned pBuf g.sctsPerPgLLD
      (readSuperPage vol chips (getROPhysicalAddr vol partNo lpn)) s

def readPlanePage (vol : Volume) (chips : Chips) (a : ROAddr) (right : Bool) (pData : Nat)
    (mem : Mem) : Mem × Code :=
  let g := vol.geometry
  let b := remapBadBlk vol a.bank a.pbn
  let pbn := if right then b.rPbn else b.lPbn
  nandRead vol chips a.bank (getPpn g (pbn / 2) a.pOffset) g.fullSectorBitmapPage
    (.ofBlock pbn) pData
    mem

def vflROReadPL (vol : Volume) (chips : Chips) (aligned : Bool) (partNo ppo pBuf : Nat)
    (s : Buffers) : Buffers × Code :=
  let g := vol.geometry
  if ¬g.twoPlaneProgram then (s, vflCriticalError)
  else if MAX_RO_PARTS ≤ partNo then (s, vflCriticalError)
  else
    let lpn := ppo / 2
    if (vol.patTbl partNo).sizePB ≤ lpn / g.pagesPerBlock then (s, vflCriticalError)
    else
      throughBuffer aligned pBuf g.sectorsPerPage
        (readPlanePage vol chips (getROPhysicalAddr vol partNo lpn) (ppo % 2 = 1)) s

/-! ### The block device -/

def wmrSuccess : Code := 0

def wmrCriticalError : Code := 0x80010000

/-- The loop of `BML_Mread` and `BML_MreadPL`: `read page pBuf` reads a page of `size` sectors. -/
def readPages (read : Nat → Nat → Buffers → Buffers × Code) (size first : Nat) :
    (pages idxPage : Nat) → Buffers → Buffers × Code
  | 0, _, s => (s, wmrSuccess)
  | pages + 1, idxPage, s =>
    let r := read (idxPage + first) (idxPage * size) s
    if r.2 ≠ wmrSuccess then (r.1, wmrCriticalError)
    else readPages read size first pages (idxPage + 1) r.1

def bmlMread (vol : Volume) (chips : Chips) (aligned : Bool) (partNo lpn pages : Nat)
    (s : Buffers) : Buffers × Code :=
  readPages (vflRORead vol chips aligned partNo) vol.geometry.sctsPerPgLLD lpn pages 0 s

def bmlMreadPL (vol : Volume) (chips : Chips) (aligned : Bool) (partNo ppo pages : Nat)
    (s : Buffers) : Buffers × Code :=
  readPages (vflROReadPL vol chips aligned partNo) vol.geometry.sectorsPerPage ppo pages 0 s

inductive DataDir where
  | read
  | write
  deriving DecidableEq

/-- A request of the block layer; `aligned` says that its buffer is aligned to four bytes. -/
structure Request where
  fsRequest : Bool
  dir : DataDir
  sector : Nat
  currentNrSectors : Nat
  aligned : Bool

/-- `bml_transfer`: the memory it leaves and what it returns. -/
def bmlTransfer (vol : Volume) (chips : Chips) (partNo : Nat) (req : Request) (s : Buffers) :
    Buffers × Nat :=
  let g := vol.geometry
  if ¬req.fsRequest then (s, 0)
  else
    match req.dir with
    | .read =>
      let r :=
        if g.sctsPerPgLLD = 8 then
          bmlMread vol chips req.aligned partNo (req.sector / g.sctsPerPgLLD)
            (req.currentNrSectors / g.sctsPerPgLLD) s
        else
          bmlMreadPL vol chips req.aligned partNo (req.sector / g.sctsPerPgNAND)
            (req.currentNrSectors / g.sctsPerPgNAND) s
      if r.2 ≠ wmrSuccess then (r.1, 0) else (r.1, 1)
    | .write => (s, 0)

/-- The sectors `bml_add_disk` announces: `VFL_RO_GetInfo` fails past the last partition. -/
def capacity (vol : Volume) (partNo : Nat) : Nat :=
  let g := vol.geometry
  let maxPages := if MAX_RO_PARTS ≤ partNo then 0
    else (vol.patTbl partNo).sizePB * g.pagesPerBlock % 2 ^ 32
  maxPages * g.sctsPerPgLLD % 2 ^ 32

/-! ### What a read is for -/

/-- The row of a page in its chip. Blocks are numbered through both planes. -/
def pageRow (g : Geometry) (bank pbn pOffset : Nat) : Nat :=
  let row := pbn * g.pagesPerBlock + pOffset
  if g.internalInterleaving ∧ bank % 2 = 1 then row + g.numOfPlane * g.pagesPerBank else row

/-- Sector `n` of a partition: a logical page is its left page followed by its right page. -/
def partitionSector (vol : Volume) (chips : Chips) (partNo n : Nat) : Sector :=
  let g := vol.geometry
  let a := getROPhysicalAddr vol partNo (n / g.sctsPerPgLLD)
  let b := remapBadBlk vol a.bank a.pbn
  let inPage := n % g.sctsPerPgLLD
  let pbn := if inPage < g.sectorsPerPage then b.lPbn else b.rPbn
  chips (chipOf g a.bank) (pageRow g a.bank pbn a.pOffset) (inPage % g.sectorsPerPage)

/-- The buffer holds the sectors asked for, and nothing behind it has changed. -/
def Delivered (vol : Volume) (chips : Chips) (partNo : Nat) (req : Request) (before after : Mem) :
    Prop :=
  (∀ k < req.currentNrSectors, after k = partitionSector vol chips partNo (req.sector + k)) ∧
    ∀ k, req.currentNrSectors ≤ k → after k = before k

/-! ### The flash driver's reads -/

section Reads

variable {vol : Volume} {chips : Chips}

variable {sctBitmap u off : Nat} {val : Chips → Nat → Nat → Sector}

/-- The loop over a bitmap whose first `u` bits are set copies the first `u` pieces. -/
lemma copySubpages_eq (mem page : Mem) (dst : Nat) {n : Nat}
    (hbits : ∀ j < n, sctBitmap.testBit j = decide (j < u)) :
    copySubpages mem dst sctBitmap page n = copySectors mem dst (min n u) page := by
  induction n with
  | zero =>
    funext k
    simp only [copySubpages, copySectors]
    rw [if_neg]
    omega
  | succ n ih =>
    rw [copySubpages, ih fun j hj => hbits j (by omega)]
    grind [copySectors]

/-- What a read into memory owes its caller: a code that does not depend on what is read, the `u`
sectors of `val` at the address if it succeeds, and nothing stored outside. -/
structure FillsPage (u : Nat) (val : Chips → Nat → Sector) (read : Chips → Nat → Mem → Mem × Code) :
    Prop where
  code : ∀ c c' p p' m m', (read c p m).2 = (read c' p' m').2
  frame : ∀ c p m k, k < p ∨ p + u ≤ k → (read c p m).1 k = m k
  value : ∀ c p m, (read c p m).2 = 0 → ∀ j < u, (read c p m).1 (p + j) = val c j

/-- A page read that fails stores nothing. -/
lemma nandRead_fst {bank ppn p : Nat} {plane : PlaneBitmap} {m : Mem} (hu : u ≤ 8)
    (hbits : ∀ j < 8, sctBitmap.testBit j = decide (j < u)) :
    (nandRead vol chips bank ppn sctBitmap plane p m).1 =
      if (nandRead vol chips bank ppn sctBitmap plane p m).2 = 0 then
        copySectors m p u (chips (chipOf vol.geometry bank) (rowAddr vol.geometry bank ppn))
      else m := by
  have hpieces :=
    copySubpages_eq m (chips (chipOf vol.geometry bank) (rowAddr vol.geometry bank ppn))
    p hbits
  rw [min_eq_right hu] at hpieces
  have hwhole (hfull : sctBitmap = 0xFF) : u = 8 := by
    have hlast := hbits 7 (by decide)
    rw [hfull] at hlast
    have := of_decide_eq_true hlast.symm
    omega
  by_cases hbad : vol.geometry.banksTotal ≤ bank ∨ vol.geometry.pagesPerBank ≤ ppn
  · simp [nandRead, hbad, filCriticalError]
  simp only [nandRead, hbad, fslNfcReadFullPage, useTwoPlane, Bool.false_eq_true,
    and_false, if_false, nandSubpageNum, hpieces]
  by_cases hecc : vol.eccError (chipOf vol.geometry bank) (rowAddr vol.geometry bank ppn) false ∧
      vol.eccError (chipOf vol.geometry bank) (rowAddr vol.geometry bank ppn) true
  · simp [hecc, filUEccError]
  by_cases hfull : sctBitmap = 0xFF
  · simp [hecc, hfull, hwhole hfull, filSuccess]
  · simp [hecc, hfull, filSuccess]

variable (vol) in
lemma nandRead_fills (bank ppn : Nat) (plane : PlaneBitmap) (hu : u ≤ 8)
    (hbits : ∀ j < 8, sctBitmap.testBit j = decide (j < u)) :
    FillsPage u (fun c => c (chipOf vol.geometry bank) (rowAddr vol.geometry bank ppn))
      fun c => nandRead vol c bank ppn sctBitmap plane := by
  refine ⟨fun c c' p p' m m' => ?_, fun c p m k hk => ?_, fun c p m hcode j hj => ?_⟩
  · simp only [nandRead, fslNfcReadFullPage]
    split_ifs <;> rfl
  · rw [nandRead_fst hu hbits]
    split_ifs
    · exact if_neg (by omega)
    · rfl
  · rw [nandRead_fst hu hbits, if_pos hcode]
    simp [copySectors, hj]

/-! ### Reading one page -/

lemma testBit_fullSectorBitmapPage (g : Geometry) (j : Nat) :
    g.fullSectorBitmapPage.testBit j = decide (j < g.sctsPerPgLLD) := by
  exact Nat.testBit_two_pow_sub_one ..

/-- The row and the piece of it that `VFL_RO_Read` stores as sector `j` of the page. -/
def superPageCell (vol : Volume) (a : ROAddr) (j : Nat) : Nat × Nat :=
  let g := vol.geometry
  let b := remapBadBlk vol a.bank a.pbn
  let row := fun pbn => rowAddr g a.bank (getPpn g pbn a.pOffset)
  if g.twoPlaneProgram then
    if b.lPbn < b.rPbn ∧ b.lPbn / 2 = b.rPbn / 2 then (row (b.lPbn / 2), j)
    else if j < g.sectorsPerPage then (row (b.lPbn / 2), j)
    else (row (b.rPbn / 2), j - g.sectorsPerPage)
  else (row b.lPbn, j)

lemma readSuperPage_fills (hspp : vol.geometry.sctsPerPgLLD = 8) (a : ROAddr) :
    FillsPage 8 (fun c j => c (chipOf vol.geometry a.bank) (superPageCell vol a j).1
      (superPageCell vol a j).2) fun c => readSuperPage vol c a := by
  have hfull (j : Nat) (_ : j < 8) :
      vol.geometry.fullSectorBitmapPage.testBit j = decide (j < 8) := by
    rw [testBit_fullSectorBitmapPage, hspp]
  unfold readSuperPage superPageCell
  dsimp only
  split_ifs with htwo hsame
  · exact nandRead_fills vol a.bank _ _ le_rfl hfull
  · have hfour : vol.geometry.sectorsPerPage = 4 := by
      simp only [sctsPerPgLLD, numOfPlane, htwo, Bool.toNat_true] at hspp
      omega
    -- the second read takes four pieces only: the bitmap is shifted by a page
    have hhalf (j : Nat) (_ : j < 8) :
        (vol.geometry.fullSectorBitmapPage >>> 4).testBit j = decide (j < 4) := by
      rw [Nat.testBit_shiftRight, testBit_fullSectorBitmapPage, decide_eq_decide]
      omega
    rw [hfour]
    generalize remapBadBlk vol a.bank a.pbn = b
    have hl := nandRead_fills vol a.bank (getPpn vol.geometry (b.lPbn / 2) a.pOffset)
      (.ofBlock b.lPbn) le_rfl hfull
    have hr := nandRead_fills vol a.bank (getPpn vol.geometry (b.rPbn / 2) a.pOffset)
      (.ofBlock b.rPbn) (by decide) hhalf
    refine ⟨fun c c' p p' m m' => ?_, fun c p m k hk => ?_, fun c p m hcode j hj => ?_⟩
    · exact congrArg₂ (· ||| ·) (hl.code ..) (hr.code ..)
    · exact (hr.frame c _ _ k (by omega)).trans (hl.frame c p m k hk)
    · obtain ⟨hleft, hright⟩ := BitVec.or_eq_zero_iff.mp hcode
      split_ifs with hlow
      · exact (hr.frame c _ _ (p + j) (by omega)).trans (hl.value c p m hleft j hj)
      · have hval := hr.value c (p + 4) _ hright (j - 4) (by omega)
        rwa [show p + 4 + (j - 4) = p + j by omega] at hval
  · exact nandRead_fills vol a.bank _ _ le_rfl hfull

def planePageRow (vol : Volume) (a : ROAddr) (right : Bool) : Nat :=
  let g := vol.geometry
  let b := remapBadBlk vol a.bank a.pbn
  rowAddr g a.bank (getPpn g ((if right then b.rPbn else b.lPbn) / 2) a.pOffset)

lemma readPlanePage_fills (height : vol.geometry.sectorsPerPage = 8)
    (htwo : vol.geometry.twoPlaneProgram = true) (a : ROAddr) (right : Bool) :
    FillsPage 8 (fun c j => c (chipOf vol.geometry a.bank) (planePageRow vol a right) j)
      fun c => readPlanePage vol c a right := by
  refine nandRead_fills vol a.bank _ _ le_rfl fun j hj => ?_
  have hspp : vol.geometry.sctsPerPgLLD = 16 := by
    simp [sctsPerPgLLD, numOfPlane, height, htwo]
  rw [testBit_fullSectorBitmapPage, decide_eq_decide]
  omega

/-! ### Reading a run of pages -/

/-- What a page reader of the loop owes it, for every page. -/
structure ReadsPages (u : Nat) (val : Chips → Nat → Nat → Sector)
    (read : Chips → Nat → Nat → Buffers → Buffers × Code) : Prop where
  code : ∀ c c' page p p' s s', (read c page p s).2 = (read c' page p' s').2
  frame : ∀ c page p s k, k < p ∨ p + u ≤ k → (read c page p s).1.buf k = s.buf k
  value : ∀ c page p s, (read c page p s).2 = 0 →
    ∀ j < u, (read c page p s).1.buf (p + j) = val c page j

lemma throughBuffer_snd (aligned : Bool) (p u : Nat) (read : Nat → Mem → Mem × Code) (s : Buffers) :
    (throughBuffer aligned p u read s).2 =
      (if aligned then read p s.buf else read 0 s.inner).2 := by
  simp only [throughBuffer]
  split_ifs <;> rfl

/-- A reader that refuses some of the pages and reads the others through the buffer. -/
lemma throughBuffer_reads {read : Chips → Nat → Nat → Mem → Mem × Code} (bad : Nat → Prop)
    [DecidablePred bad] (h : ∀ page, ¬bad page → FillsPage u (val · page) (read · page))
    (aligned : Bool) :
    ReadsPages u val fun c page p s => if bad page then (s, vflCriticalError)
      else throughBuffer aligned p u (read c page) s := by
  have hmajor : majorPositive 0 = false := by decide
  refine ⟨fun c c' page p p' s s' => ?_, fun c page p s k hk => ?_, fun c page p s hcode j hj => ?_⟩
  all_goals
    by_cases hbad : bad page
    · simp_all [vflCriticalError]
    have hfills := h page hbad
    simp only [hbad, if_false] at *
  · rw [throughBuffer_snd, throughBuffer_snd]
    cases aligned <;> exact hfills.code ..
  · cases aligned with
    | true =>
      simp only [throughBuffer, if_true]
      split <;> exact hfills.frame c p s.buf k hk
    | false =>
      simp only [throughBuffer, Bool.false_eq_true, if_false]
      split
      · rfl
      · exact if_neg (by omega)
  · rw [throughBuffer_snd] at hcode
    cases aligned with
    | true =>
      simp only [if_true] at hcode
      simp only [throughBuffer, if_true, hcode, hmajor]
      exact hfills.value c p s.buf hcode j hj
    | false =>
      simp only [Bool.false_eq_true, if_false] at hcode
      simp only [throughBuffer, Bool.false_eq_true, if_false, hcode, hmajor, copySectors]
      simpa [hj] using hfills.value c 0 s.inner hcode j hj

/-- A run succeeds if all its pages do, and what it stores are their sectors. -/
lemma readPages_spec {read : Chips → Nat → Nat → Buffers → Buffers × Code}
    (h : ReadsPages u val read) (c : Chips) (first pages idx : Nat) (s : Buffers) :
    let r := readPages (read c) u first pages idx s
    (r.2 = 0 ↔ ∀ i < pages, ∀ c p s, (read c (idx + i + first) p s).2 = 0) ∧
      (∀ k, k < idx * u ∨ (idx + pages) * u ≤ k → r.1.buf k = s.buf k) ∧
      (r.2 = 0 → ∀ i < pages, ∀ j < u, r.1.buf ((idx + i) * u + j) =
        val c (idx + i + first) j) := by
  induction pages generalizing idx s with
  | zero => exact ⟨by simp [readPages, wmrSuccess], fun k _ => rfl, by simp⟩
  | succ pages ih =>
    have hnext (i : Nat) : idx + 1 + i = idx + (i + 1) := by omega
    have hstep : (idx + 1) * u ≤ (idx + (pages + 1)) * u := Nat.mul_le_mul_right u (by omega)
    rw [Nat.succ_mul] at hstep
    have hframe (k : Nat) (hk : k < idx * u ∨ (idx + (pages + 1)) * u ≤ k) :=
      h.frame c (idx + first) (idx * u) s k (by omega)
    simp only [readPages, Nat.forall_lt_succ_left, Nat.add_zero]
    split_ifs with hcode
    · refine ⟨iff_of_false (by simp [wmrCriticalError]) fun hall => hcode (hall.1 ..), hframe,
        by simp [wmrCriticalError]⟩
    · obtain ⟨hok, hrest, hvalue⟩ := ih (idx + 1) (read c (idx + first) (idx * u) s).1
      simp only [hnext, Nat.succ_mul] at hok hrest hvalue
      have hfirst := not_not.mp hcode
      refine ⟨?_, fun k hk => (hrest k (by omega)).trans (hframe k hk), fun hall =>
        ⟨fun j hj => ?_, hvalue hall⟩⟩
      · exact hok.trans ⟨fun hall => ⟨fun c' p s' => (h.code ..).trans hfirst, hall⟩, And.right⟩
      · rw [hrest _ (by omega)]
        exact h.value _ _ _ _ hfirst j hj

/-! ### The two page readers -/

/-- Sector `j` of the memory `VFL_RO_Read` fills. -/
def superPageSector (vol : Volume) (chips : Chips) (partNo lpn j : Nat) : Sector :=
  let a := getROPhysicalAddr vol partNo lpn
  chips (chipOf vol.geometry a.bank) (superPageCell vol a j).1 (superPageCell vol a j).2

/-- Sector `j` of the memory `VFL_RO_ReadPL` fills. -/
def planePageSector (vol : Volume) (chips : Chips) (partNo ppo j : Nat) : Sector :=
  let a := getROPhysicalAddr vol partNo (ppo / 2)
  chips (chipOf vol.geometry a.bank) (planePageRow vol a (ppo % 2 = 1)) j

variable {partNo : Nat}

variable (partNo) in
lemma vflRORead_reads (hspp : vol.geometry.sctsPerPgLLD = 8) (aligned : Bool) :
    ReadsPages 8 (superPageSector vol · partNo) fun c => vflRORead vol c aligned partNo := by
  unfold vflRORead
  simp only [hspp, ← ite_or]
  exact throughBuffer_reads _ (fun lpn _ => readSuperPage_fills hspp _) aligned

variable (partNo) in
/-- With one plane the per-plane reader refuses every page. -/
lemma vflROReadPL_reads (hspp : vol.geometry.sctsPerPgLLD ≠ 8) (aligned : Bool) :
    ReadsPages vol.geometry.sectorsPerPage (planePageSector vol · partNo)
      fun c => vflROReadPL vol c aligned partNo := by
  unfold vflROReadPL
  simp only [← ite_or]
  refine throughBuffer_reads _ (fun ppo hgood => ?_) aligned
  simp only [not_or, not_not] at hgood
  rcases vol.geometry.sectorsPerPage_mem with hfour | height
  · simp [sctsPerPgLLD, numOfPlane, hgood.1, hfour] at hspp
  · rw [height]
    exact readPlanePage_fills height hgood.1 _ _

/-! ### A transfer -/

variable {req : Request}

/-- The sector an acknowledged transfer puts at `j` of its page `page`. -/
def pageSector (vol : Volume) (chips : Chips) (partNo page j : Nat) : Sector :=
  if vol.geometry.sctsPerPgLLD = 8 then superPageSector vol chips partNo page j
  else planePageSector vol chips partNo page j

variable (vol partNo) in
/-- A read is a run of page reads: of eight sectors each, or of four that are all refused. -/
lemma bmlTransfer_reads (hfs : req.fsRequest = true) (hdir : req.dir = .read) :
    ∃ u val read, ReadsPages u val read ∧
      (∀ c s, bmlTransfer vol c partNo req s =
        let r := readPages (read c) u (req.sector / u) (req.currentNrSectors / u) 0 s
        if r.2 = 0 then (r.1, 1) else (r.1, 0)) ∧
      ((u = 8 ∧ val = (pageSector vol · partNo) ∧
          (vol.geometry.twoPlaneProgram = false → vol.geometry.sectorsPerPage = 8)) ∨
        (u = 4 ∧ ∀ c page p s, (read c page p s).2 ≠ 0)) := by
  by_cases hspp : vol.geometry.sctsPerPgLLD = 8
  · refine ⟨8, _, _, vflRORead_reads partNo hspp req.aligned, fun c s => ?_, .inl ⟨rfl, ?_, ?_⟩⟩
    · simp [bmlTransfer, hfs, hdir, hspp, bmlMread, wmrSuccess]
    · funext c page j
      simp only [pageSector, hspp, if_true]
    · intro hone
      simpa [sctsPerPgLLD, numOfPlane, hone] using hspp
  · refine ⟨_, _, _, vflROReadPL_reads partNo hspp req.aligned, fun c s => ?_, ?_⟩
    · simp [bmlTransfer, hfs, hdir, hspp, bmlMreadPL, wmrSuccess, sctsPerPgNAND]
    rcases vol.geometry.sectorsPerPage_mem with hfour | height <;>
      cases htwo : vol.geometry.twoPlaneProgram
    · exact .inr ⟨hfour, by simp [vflROReadPL, htwo, vflCriticalError]⟩
    · simp [sctsPerPgLLD, numOfPlane, htwo, hfour] at hspp
    · simp [sctsPerPgLLD, numOfPlane, htwo, height] at hspp
    · refine .inl ⟨height, ?_, nofun⟩
      funext c page j
      simp only [pageSector, hspp, if_false]

/-- What `bml_transfer` returns does not depend on the data. -/
lemma bmlTransfer_ret (chips chips' : Chips) (s s' : Buffers) :
    (bmlTransfer vol chips partNo req s).2 = (bmlTransfer vol chips' partNo req s').2 := by
  by_cases hfs : req.fsRequest = true
  · cases hdir : req.dir with
    | write => simp [bmlTransfer, hfs, hdir]
    | read =>
      obtain ⟨u, val, read, hreads, hrun, -⟩ := bmlTransfer_reads vol partNo hfs hdir
      have hcode c s := (readPages_spec hreads c (req.sector / u) (req.currentNrSectors / u) 0 s).1
      have hsame := (hcode chips s).trans (hcode chips' s').symm
      simp only [hrun, apply_ite Prod.snd]
      exact if_congr hsame rfl rfl
  · simp [bmlTransfer, hfs]

/-- The transfers that are acknowledged: whole pages of eight sectors from the page the first sector
lies in, or nothing at all of a request for less than a page. -/
lemma bmlTransfer_run {s : Buffers} (h : (bmlTransfer vol chips partNo req s).2 = 1) :
    (∀ i < req.currentNrSectors / 8, ∀ j < 8,
        (bmlTransfer vol chips partNo req s).1.buf (i * 8 + j) =
          pageSector vol chips partNo (i + req.sector / 8) j) ∧
      (∀ k, req.currentNrSectors / 8 * 8 ≤ k →
        (bmlTransfer vol chips partNo req s).1.buf k = s.buf k) ∧
      (8 ≤ req.currentNrSectors → vol.geometry.twoPlaneProgram = false →
        vol.geometry.sectorsPerPage = 8) := by
  obtain ⟨hfs, hdir⟩ : req.fsRequest = true ∧ req.dir = .read := by
    revert h
    simp only [bmlTransfer]
    grind
  obtain ⟨u, val, read, hreads, hrun, hcase⟩ := bmlTransfer_reads vol partNo hfs hdir
  obtain ⟨hok, hframe, hvalue⟩ := readPages_spec  hreads chips (req.sector / u)
    (req.currentNrSectors / u) 0 s
  rw [hrun] at h ⊢
  dsimp only at h ⊢
  split_ifs at h ⊢ with hcode
  obtain ⟨rfl, rfl, height⟩ | ⟨rfl, hnone⟩ := hcase
  · refine ⟨by simpa using hvalue hcode, fun k hk => hframe k ?_, fun _ => height⟩
    exact .inr (by simpa using hk)
  · -- not one page can have been asked for, since the first would have failed
    have hzero : req.currentNrSectors / 4 = 0 := by
      by_contra hpos
      exact hnone _ _ _ _ (hok.mp hcode 0 (by omega) chips 0 s)
    refine ⟨fun i hi => by omega, fun k _ => hframe k (.inr ?_), by omega⟩
    simp [hzero]

/-! ### Where the pages are -/

lemma two_le_remapBothFrom (cxt : VFLCxt) (srcPbn rounds idx : Nat) (left right : Option Nat)
    (hleft : ∀ b ∈ left, 2 ≤ b) (hright : ∀ b ∈ right, 2 ≤ b) :
    (∀ b ∈ (remapBothFrom cxt srcPbn rounds idx left right).1, 2 ≤ b) ∧
      ∀ b ∈ (remapBothFrom cxt srcPbn rounds idx left right).2, 2 ≤ b := by
  induction rounds generalizing idx left right with
  | zero => exact ⟨hleft, hright⟩
  | succ rounds ih =>
    have htarget : ∀ b ∈ some (reservedSectionStart * 2 + idx), 2 ≤ b := by
      intro b hb
      simp only [reservedSectionStart, vflAreaStart, Option.mem_def,
        Option.some.injEq] at hb
      omega
    simp only [remapBothFrom]
    split_ifs
    · exact ⟨htarget, hright⟩
    · exact ih _ _ _ htarget hright
    · exact ⟨hleft, htarget⟩
    · exact ih _ _ _ hleft htarget
    · exact ⟨hleft, hright⟩
    · exact ih _ _ _ hleft hright

variable (partNo) in
/-- The first block of a bank belongs to no partition, nor does the spare area reach down to it. -/
lemma two_le_remapped (htwo : vol.geometry.twoPlaneProgram = true) (lpn : Nat) :
    let a := getROPhysicalAddr vol partNo lpn
    2 ≤ (remapBadBlk vol a.bank a.pbn).lPbn ∧ 2 ≤ (remapBadBlk vol a.bank a.pbn).rPbn := by
  intro a
  have hpbn : 1 ≤ a.pbn := by
    simp only [a, getROPhysicalAddr, roAreaStart, vflAreaStart]
    exact le_add_left (Nat.le_add_right 1 _)
  have hgetD : ∀ (o : Option Nat) (d : Nat), (∀ b ∈ o, 2 ≤ b) → 2 ≤ d → 2 ≤ o.getD d := by
    intro o d ho hd
    cases o with
    | none => exact hd
    | some b => exact ho b rfl
  have hnone : ∀ b ∈ (none : Option Nat), 2 ≤ b := by simp
  have hfound := two_le_remapBothFrom (vol.vflCxt a.bank) a.pbn
    ((vol.vflCxt a.bank).badMapTableMaxIdx * 2) 0 none none hnone hnone
  simp only [remapBadBlk, htwo, if_true]
  split
  · exact ⟨hgetD _ _ hfound.1 (by omega), hgetD _ _ hfound.2 (by omega)⟩
  · exact ⟨hgetD _ _ hnone (by omega), hgetD _ _ hnone (by omega)⟩

lemma row_mod {p : Nat} (hoff : off < p) (c : Prop) [Decidable c] (pbn banks : Nat) :
    (if c then pbn * p + off + banks * p else pbn * p + off) % p = off := by
  split
  · rw [Nat.add_mul_mod_self_right, Nat.mul_add_mod_self_right, Nat.mod_eq_of_lt hoff]
  · rw [Nat.mul_add_mod_self_right, Nat.mod_eq_of_lt hoff]

section

variable (g : Geometry) (bank pbn : Nat) (hoff : off < g.pagesPerBlock)

include hoff

lemma rowAddr_mod :
    rowAddr g bank (getPpn g pbn off) % g.pagesPerBlock = off := row_mod hoff ..

lemma pageRow_mod :
    pageRow g bank pbn off % g.pagesPerBlock = off := by
  simp only [pageRow, pagesPerBank, ← Nat.mul_assoc]
  exact row_mod hoff ..

end

lemma succ_mod_ne (n : Nat) {m : Nat} (hm : 2 ≤ m) : (n + 1) % m ≠ n % m := by
  intro h
  have hdvd := (Nat.modEq_iff_dvd' (Nat.le_succ n)).mp h.symm
  rw [Nat.succ_sub le_rfl, Nat.sub_self] at hdvd
  have := Nat.le_of_dvd Nat.one_pos hdvd
  omega

/-- With one plane the driver reads the page it is asked for. -/
lemma rowAddr_one_plane (hone : vol.geometry.twoPlaneProgram = false) (bank pbn off : Nat) :
    rowAddr vol.geometry bank (getPpn vol.geometry pbn off) =
      pageRow vol.geometry bank pbn off := by
  simp [rowAddr, pageRow, getPpn, numOfPlane, hone]

/-- With two planes it drops the plane from the block number, and reads another page. -/
lemma rowAddr_two_plane (htwo : vol.geometry.twoPlaneProgram = true) (bank off : Nat) {pbn : Nat}
    (hpbn : 2 ≤ pbn) :
    rowAddr vol.geometry bank (getPpn vol.geometry (pbn / 2) off) ≠
      pageRow vol.geometry bank pbn off := by
  have hpages := vol.geometry.two_le_pagesPerBlock
  have hlt : pbn / 2 * vol.geometry.pagesPerBlock < pbn * vol.geometry.pagesPerBlock :=
    Nat.mul_lt_mul_of_pos_right (by omega) (by omega)
  simp only [rowAddr, pageRow, getPpn, numOfPlane, htwo, Bool.toNat_true]
  split_ifs <;> omega

/-! ### Delivery -/

lemma exists_sector_ne : ∃ x y : Sector, x ≠ y :=
  ⟨fun _ => 0, fun _ => 1, fun h => absurd (congrFun h 0) (by decide)⟩

/-- If two cells agree whatever the chips hold, they are one cell. -/
lemma cell_eq {chip chip' row row' sub sub' : Nat}
    (h : ∀ chips : Chips, chips chip row sub = chips chip' row' sub') :
    row = row' ∧ sub = sub' := by
  obtain ⟨x, y, hne⟩ := exists_sector_ne
  have hcell := h fun _ r i => if r = row ∧ i = sub then x else y
  by_contra hdiff
  rw [if_pos ⟨rfl, rfl⟩, if_neg] at hcell
  · exact hne hcell
  · rintro ⟨rfl, rfl⟩
    exact hdiff ⟨rfl, rfl⟩

section Delivering

variable (hack : ∀ chips s, (bmlTransfer vol chips partNo req s).2 = 1)
  (h : ∀ chips s, Delivered vol chips partNo req s.buf (bmlTransfer vol chips partNo req s).1.buf)

include hack h

/-- A transfer that delivers must ask for whole pages: the rest of the buffer is never stored to. -/
lemma dvd_of_delivered : 8 ∣ req.currentNrSectors := by
  by_contra hdvd
  obtain ⟨x, y, hne⟩ := exists_sector_ne
  have hlast : req.currentNrSectors / 8 * 8 < req.currentNrSectors := by omega
  let chips : Chips := fun _ _ _ => x
  let s : Buffers := ⟨fun _ => y, fun _ => y⟩
  have hread := (h chips s).1 _ hlast
  rw [(bmlTransfer_run (hack chips s)).2.1 _ le_rfl] at hread
  exact hne hread.symm

/-- The sector a delivering transfer has to put at `k` of its first page. -/
lemma pageSector_eq_of_delivered (hpage : 8 ≤ req.currentNrSectors) {k : Nat} (hk : k < 8)
    (chips : Chips) :
    pageSector vol chips partNo (req.sector / 8) k =
      partitionSector vol chips partNo (req.sector + k) := by
  let s : Buffers := ⟨fun _ _ => 0, fun _ _ => 0⟩
  have hval := (bmlTransfer_run (hack chips s)).1 0 (by omega) k hk
  rw [Nat.zero_add, Nat.zero_add] at hval
  rw [← hval]
  exact (h chips s).1 k (by omega)

end Delivering

/-- One plane: the first page starts at the first sector. -/
lemma dvd_sector_of_delivered (hone : vol.geometry.twoPlaneProgram = false)
    (height : vol.geometry.sectorsPerPage = 8)
    (hpage : ∀ k < 8, ∀ chips, pageSector vol chips partNo (req.sector / 8) k =
      partitionSector vol chips partNo (req.sector + k)) :
    8 ∣ req.sector := by
  have hspp : vol.geometry.sctsPerPgLLD = 8 := by
    simp [sctsPerPgLLD, numOfPlane, hone, height]
  have hfirst := hpage 0 (by omega)
  simp only [pageSector, superPageSector, superPageCell, partitionSector, hspp, hone, height,
    if_true, Bool.false_eq_true, if_false, Nat.add_zero] at hfirst
  have hsub := (cell_eq hfirst).2
  omega

/-- A super page of two pages of four sectors begins with the left one. -/
lemma superPageCell_zero (htwo : vol.geometry.twoPlaneProgram = true)
    (hfour : vol.geometry.sectorsPerPage = 4) (a : ROAddr) : (superPageCell vol a 0).1 =
      rowAddr vol.geometry a.bank
        (getPpn vol.geometry ((remapBadBlk vol a.bank a.pbn).lPbn / 2) a.pOffset) := by
  simp only [superPageCell, htwo, hfour, if_true]
  split_ifs
  · rfl
  · rfl
  · omega

lemma not_delivered_two_plane (htwo : vol.geometry.twoPlaneProgram = true)
    (hpage : ∀ k < 8, ∀ chips, pageSector vol chips partNo (req.sector / 8) k =
      partitionSector vol chips partNo (req.sector + k)) : False := by
  have hpages := vol.geometry.two_le_pagesPerBlock
  have hmod : ∀ lpn, (getROPhysicalAddr vol partNo lpn).pOffset < vol.geometry.pagesPerBlock :=
    fun lpn => Nat.mod_lt _ (by omega)
  rcases vol.geometry.sectorsPerPage_mem with hfour | height
  · have hspp : vol.geometry.sctsPerPgLLD = 8 := by
      simp [sctsPerPgLLD, numOfPlane, htwo, hfour]
    by_cases hlow : req.sector % 8 < 4
    · -- the request starts in a left page
      have hfirst := hpage 0 (by omega)
      simp only [pageSector, superPageSector, partitionSector, hspp, hfour, if_true, Nat.add_zero,
        hlow] at hfirst
      have hrow := (cell_eq hfirst).1
      rw [superPageCell_zero htwo hfour] at hrow
      exact rowAddr_two_plane htwo _ _ (two_le_remapped partNo htwo (req.sector / 8)).1 hrow
    · -- it starts in a right page, and goes on in the next logical page
      have hnext := hpage (8 - req.sector % 8) (by omega)
      have hlpn : (req.sector + (8 - req.sector % 8)) / 8 = req.sector / 8 + 1 := by omega
      simp only [pageSector, superPageSector, partitionSector, hspp, if_true, hlpn] at hnext
      have hrow := congrArg (· % vol.geometry.pagesPerBlock) (cell_eq hnext).1
      simp only [superPageCell, htwo, if_true, pageRow_mod _ _ _ (hmod _)] at hrow
      have hleft : (getROPhysicalAddr vol partNo (req.sector / 8)).pOffset =
          (getROPhysicalAddr vol partNo (req.sector / 8 + 1)).pOffset := by
        split_ifs at hrow <;> simpa [rowAddr_mod _ _ _ (hmod _)] using hrow
      -- but neighbouring pages of a block differ in their offset
      exact succ_mod_ne (req.sector / 8) hpages hleft.symm
  · have hspp : vol.geometry.sctsPerPgLLD = 16 := by
      simp [sctsPerPgLLD, numOfPlane, htwo, height]
    have hfirst := hpage 0 (by omega)
    have hlpn : req.sector / 8 / 2 = req.sector / 16 := by omega
    have hplane : (req.sector % 16 < 8) ↔ ¬(req.sector / 8 % 2 = 1) := by omega
    simp only [pageSector, planePageSector, partitionSector, hspp, height, Nat.add_zero, hlpn,
      (by decide : (16 : Nat) ≠ 8), if_false, hplane] at hfirst
    have hrow := (cell_eq hfirst).1
    obtain ⟨hleft, hright⟩ := two_le_remapped partNo htwo (req.sector / 16)
    by_cases hodd : req.sector / 8 % 2 = 1
    · simp only [planePageRow, hodd, decide_true, if_true, not_true_eq_false, if_false] at hrow
      exact rowAddr_two_plane htwo _ _ hright hrow
    · simp only [planePageRow, hodd, decide_false, Bool.false_eq_true, if_false, not_false_eq_true,
        if_true] at hrow
      exact rowAddr_two_plane htwo _ _ hleft hrow

lemma delivered_one_plane (hone : vol.geometry.twoPlaneProgram = false) (hsector : 8 ∣ req.sector)
    (hcount : 8 ∣ req.currentNrSectors) {s : Buffers}
    (h : (bmlTransfer vol chips partNo req s).2 = 1) :
    Delivered vol chips partNo req s.buf (bmlTransfer vol chips partNo req s).1.buf := by
  obtain ⟨hval, hframe, heights⟩ := bmlTransfer_run h
  refine ⟨fun k hk => ?_, fun k hk => hframe k (by omega)⟩
  have height := heights (by omega) hone
  have hspp : vol.geometry.sctsPerPgLLD = 8 := by
    simp [sctsPerPgLLD, numOfPlane, hone, height]
  have hk' := hval (k / 8) (by omega) (k % 8) (by omega)
  rw [Nat.div_add_mod'] at hk'
  have hpage : (req.sector + k) / 8 = k / 8 + req.sector / 8 := by omega
  have hsub : (req.sector + k) % 8 = k % 8 := by omega
  rw [hk']
  simp only [pageSector, superPageSector, superPageCell, partitionSector, hspp, hone, height, hpage,
    hsub, if_true, Bool.false_eq_true, if_false, rowAddr_one_plane hone, Nat.mod_lt, Nat.mod_mod,
    Nat.zero_lt_succ]

end Reads

/-- The transfers that deliver what they acknowledge. For any volume, partition and request for
which a transfer returns 1, every transfer leaves exactly the sectors asked for in the buffer and
nothing behind it, whatever the chips and the buffers hold, if and only if it asks for nothing or
reads whole eight-sector pages of a device with one plane from a page boundary on. -/
theorem bml_transfer_delivers (vol : Volume) (partNo : Nat) (req : Request) {chips₀ : Chips}
    {s₀ : Buffers} (hack₀ : (bmlTransfer vol chips₀ partNo req s₀).2 = 1) :
    (∀ chips s, (bmlTransfer vol chips partNo req s).2 = 1 ∧
        Delivered vol chips partNo req s.buf (bmlTransfer vol chips partNo req s).1.buf) ↔
      req.currentNrSectors = 0 ∨
        (vol.geometry.twoPlaneProgram = false ∧ 8 ∣ req.sector ∧ 8 ∣ req.currentNrSectors) := by
  -- one acknowledgement is one for all contents
  have hack : ∀ chips s, (bmlTransfer vol chips partNo req s).2 = 1 :=
    fun chips s => (bmlTransfer_ret ..).trans hack₀
  constructor
  · intro h
    by_cases hzero : req.currentNrSectors = 0
    · exact .inl hzero
    right
    have hdeliver := fun chips s => (h chips s).2
    have hcount := dvd_of_delivered hack hdeliver
    have hpage := fun k (hk : k < 8) =>
      pageSector_eq_of_delivered hack hdeliver (by omega) hk
    cases htwo : vol.geometry.twoPlaneProgram with
    | true => exact (not_delivered_two_plane htwo hpage).elim
    | false =>
      have height := (bmlTransfer_run hack₀).2.2 (by omega) htwo
      exact ⟨rfl, dvd_sector_of_delivered htwo height hpage, hcount⟩
  · refine fun hcase chips s => ⟨hack chips s, ?_⟩
    rcases hcase with hzero | ⟨hone, hsector, hcount⟩
    · have hframe := (bmlTransfer_run (hack chips s)).2.1
      exact ⟨fun k hk => by omega, fun k _ => hframe k (by omega)⟩
    · exact delivered_one_plane hone hsector hcount (hack chips s)

/-- A mono K9GAG08: 4096 blocks of 128 pages of eight sectors, one plane. -/
def k9gag08 : Geometry where
  sectorsPerPage := 8
  twoPlaneProgram := false
  pagesPerBlock := 128
  blocksPerBank := 4096
  banksTotal := 1
  internalInterleaving := false
  vflAreaSize := 200
  sectorsPerPage_mem := Or.inr rfl
  two_le_pagesPerBlock := by decide

/-- A volume without bad blocks, with one partition of eight blocks. -/
def plainVolume : Volume where
  geometry := k9gag08
  vflCxt := fun _ => ⟨0, fun _ => 0, fun _ => 0xFF⟩
  patTbl := fun n => if n = 0 then ⟨0, 8⟩ else ⟨8, 0⟩
  eccError := fun _ _ _ => false

/-- A read of the second page. -/
theorem bml_transfer_delivers_page :
    let req : Request := ⟨true, .read, 8, 8, true⟩
    let chips : Chips := fun _ _ _ _ => 0x5A
    let s : Buffers := ⟨fun _ _ => 0, fun _ _ => 0⟩
    (bmlTransfer plainVolume chips 0 req s).2 = 1 ∧
      Delivered plainVolume chips 0 req s.buf (bmlTransfer plainVolume chips 0 req s).1.buf := by
  intro req chips s
  have hack : (bmlTransfer plainVolume chips 0 req s).2 = 1 := by decide +kernel
  exact (bml_transfer_delivers plainVolume 0 req hack).mpr (.inr ⟨rfl, by decide, by decide⟩)
    chips s

/-- A read of the first sector alone is acknowledged, and the buffer keeps what it held: no page is
read for less than eight sectors. -/
theorem bml_transfer_one_sector :
    let req : Request := ⟨true, .read, 0, 1, true⟩
    let chips : Chips := fun _ _ _ _ => 0x5A
    let s : Buffers := ⟨fun _ _ => 0, fun _ _ => 0⟩
    req.sector + req.currentNrSectors ≤ capacity plainVolume 0 ∧
      (bmlTransfer plainVolume chips 0 req s).2 = 1 ∧
      (bmlTransfer plainVolume chips 0 req s).1.buf = s.buf ∧
      ¬Delivered plainVolume chips 0 req s.buf (bmlTransfer plainVolume chips 0 req s).1.buf := by
  intro req chips s
  have hrun : bmlTransfer plainVolume chips 0 req s = (s, 1) := by
    simp [bmlTransfer, bmlMread, readPages, req, plainVolume, k9gag08, sctsPerPgLLD,
      numOfPlane]
  refine ⟨by decide, by rw [hrun], by rw [hrun], ?_⟩
  rintro ⟨hread, -⟩
  have hbyte := congrFun (hread 0 (by decide)) 0
  exact absurd hbyte (by decide)

end R0Kernel.Bml
