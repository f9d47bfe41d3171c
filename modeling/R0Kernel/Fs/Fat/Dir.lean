import R0Kernel.Fs.Nls

/-!
# Reading a FAT directory

A directory is a run of blocks of 32-byte entries. `fat_get_entry` walks over them with a position,
a buffer and a pointer into it; `Cursor.remaining` is the list of entries such a walk has still to
deliver, whatever the block size is and whichever blocks cannot be read.
-/

namespace R0Kernel.Fat

open List

/-- The 32 bytes of a directory entry, short or long. -/
structure RawEntry where
  bytes : Fin 32 → Byte

namespace RawEntry

def name (e : RawEntry) : List Byte := ofFn fun i : Fin 11 => e.bytes (i.castLE (by decide))

/-- `id` of a long slot, which is also the first byte of a short name. -/
def id (e : RawEntry) : Byte := e.bytes 0

def attr (e : RawEntry) : Byte := e.bytes 11

def aliasChecksum (e : RawEntry) : Byte := e.bytes 13

end RawEntry

def DELETED_FLAG : Byte := 0xe5

def ATTR_DIR : Byte := 16

def ATTR_ARCH : Byte := 32

def ATTR_VOLUME : Byte := 8

/-- `ATTR_RO | ATTR_HIDDEN | ATTR_SYS | ATTR_VOLUME` -/
def ATTR_EXT : Byte := 15

def RawEntry.isFree (e : RawEntry) : Bool := e.id = 0 || e.id = DELETED_FLAG

/-! ### The walk -/

/-- A directory on a file system of a given block size, as the number of entries in a block. A block
that `sb_bread` cannot read is `none`; the list ends where `fat_bmap` maps no block. -/
structure Dir where
  perBlock : Nat
  perBlock_pos : 0 < perBlock
  blocks : List (Option (Fin perBlock → RawEntry))

def Dir.blockSize (dir : Dir) : Nat := 32 * dir.perBlock

/-- The position, and the buffer with the entry the walk stands on. -/
structure Cursor (dir : Dir) where
  pos : Nat
  cur : Option ((Fin dir.perBlock → RawEntry) × Fin dir.perBlock)

lemma Dir.index_lt (dir : Dir) (pos : Nat) : pos % dir.blockSize / 32 < dir.perBlock := by
  have hpos := dir.perBlock_pos
  rw [Nat.div_lt_iff_lt_mul (by decide), mul_comm]
  exact Nat.mod_lt _ (by simp only [blockSize]; omega)

/-- The loop of `fat__get_entry` over the blocks from the one of `pos` on. -/
def getEntryFrom (dir : Dir) :
    List (Option (Fin dir.perBlock → RawEntry)) → (pos : Nat) → Option (Cursor dir × RawEntry)
  | [], _ => none
  | none :: rest, pos => getEntryFrom dir rest ((pos / dir.blockSize + 1) * dir.blockSize)
  | some data :: _, pos =>
    let de : Fin dir.perBlock := ⟨pos % dir.blockSize / 32, dir.index_lt pos⟩
    some (⟨pos + 32, some (data, de)⟩, data de)

/-- `fat__get_entry` -/
def fatGetEntrySlow (dir : Dir) (pos : Nat) : Option (Cursor dir × RawEntry) :=
  getEntryFrom dir (dir.blocks.drop (pos / dir.blockSize)) pos

/-- `fat_get_entry`; `none` is the result -1. -/
def fatGetEntry {dir : Dir} (c : Cursor dir) : Option (Cursor dir × RawEntry) :=
  match c.cur with
  | some (data, de) =>
    if h : de.val + 1 < dir.perBlock then
      some (⟨c.pos + 32, some (data, ⟨de + 1, h⟩)⟩, data ⟨de + 1, h⟩)
    else fatGetEntrySlow dir c.pos
  | none => fatGetEntrySlow dir c.pos

/-! ### What is left to read -/

def blockEntries {n : Nat} : List (Option (Fin n → RawEntry)) → (first : Nat) → List RawEntry
  | [], _ => []
  | none :: rest, _ => blockEntries rest 0
  | some data :: rest, first => (ofFn data).drop first ++ blockEntries rest 0

def Dir.entriesFrom (dir : Dir) (pos : Nat) : List RawEntry :=
  blockEntries (dir.blocks.drop (pos / dir.blockSize)) (pos % dir.blockSize / 32)

def Dir.entries (dir : Dir) : List RawEntry := dir.entriesFrom 0

def Cursor.remaining {dir : Dir} (c : Cursor dir) : List RawEntry :=
  match c.cur with
  | some (data, de) =>
    (ofFn data).drop (de + 1) ++ dir.entriesFrom (c.pos + 32 * (dir.perBlock - 1 - de))
  | none => dir.entriesFrom c.pos

lemma ofFn_drop_eq {n : Nat} (data : Fin n → RawEntry) (i : Fin n) :
    (ofFn data).drop i = data i :: (ofFn data).drop (i + 1) := by
  rw [drop_eq_getElem_cons (by simp)]
  simp

/-- The position just behind a block, and the rest of an entry. -/
lemma Dir.entriesFrom_block (dir : Dir) (block : Nat) {rest : Nat} (hrest : rest < 32) :
    dir.entriesFrom (block * dir.blockSize + rest) = blockEntries (dir.blocks.drop block) 0 := by
  have hpos := dir.perBlock_pos
  have hsize : rest < dir.blockSize := by
    simp only [blockSize]
    omega
  rw [entriesFrom, mul_comm, Nat.mul_add_div (by omega), Nat.div_eq_of_lt hsize,
    Nat.mul_add_mod, Nat.mod_eq_of_lt hsize, Nat.div_eq_of_lt hrest, add_zero]

lemma getEntryFrom_spec (dir : Dir) (pos : Nat) :
    match getEntryFrom dir (dir.blocks.drop (pos / dir.blockSize)) pos with
    | none => dir.entriesFrom pos = []
    | some (c, e) => dir.entriesFrom pos = e :: c.remaining := by
  -- the induction is on the blocks that are left
  obtain ⟨blocks, hblocks⟩ : ∃ blocks, dir.blocks.drop (pos / dir.blockSize) = blocks := ⟨_, rfl⟩
  have hpos := dir.perBlock_pos
  have hsize : 0 < dir.blockSize := by
    simp only [Dir.blockSize]
    omega
  induction blocks generalizing pos with
  | nil => simp [hblocks, getEntryFrom, Dir.entriesFrom, blockEntries]
  | cons block rest ih =>
    have hrest : dir.blocks.drop (pos / dir.blockSize + 1) = rest := by
      rw [← drop_drop, hblocks, drop_one, tail_cons]
    cases block with
    | none =>
      have hnext := ih ((pos / dir.blockSize + 1) * dir.blockSize)
        (by rw [Nat.mul_div_cancel _ hsize, hrest])
      rw [Nat.mul_div_cancel _ hsize, hrest] at hnext
      have hskip : dir.entriesFrom pos =
          dir.entriesFrom ((pos / dir.blockSize + 1) * dir.blockSize) := by
        have h := dir.entriesFrom_block (pos / dir.blockSize + 1) (show 0 < 32 by decide)
        rw [add_zero] at h
        rw [h, hrest, Dir.entriesFrom, hblocks, blockEntries]
      rw [hblocks, hskip]
      exact hnext
    | some data =>
      rw [hblocks]
      simp only [getEntryFrom, Cursor.remaining]
      have hmod := Nat.div_add_mod pos dir.blockSize
      have hlt := dir.index_lt pos
      -- after the last entry of the block the position is in the next one
      have hbehind : pos + 32 + 32 * (dir.perBlock - 1 - pos % dir.blockSize / 32) =
          (pos / dir.blockSize + 1) * dir.blockSize + pos % dir.blockSize % 32 := by
        have hblock : dir.blockSize = 32 * dir.perBlock := rfl
        rw [add_mul, mul_comm (pos / dir.blockSize)]
        omega
      rw [hbehind, dir.entriesFrom_block _ (Nat.mod_lt _ (by decide)), hrest, Dir.entriesFrom,
        hblocks, blockEntries, ofFn_drop_eq data ⟨pos % dir.blockSize / 32, hlt⟩]
      rfl

variable {dir : Dir} {e : RawEntry} {c : Cursor dir}

/-- Each call delivers the next entry, until there are none. -/
lemma fatGetEntry_spec (c : Cursor dir) :
    match fatGetEntry c with
    | none => c.remaining = []
    | some (c', e) => c.remaining = e :: c'.remaining := by
  obtain ⟨pos, cur⟩ := c
  cases cur with
  | none => exact getEntryFrom_spec dir pos
  | some cur =>
    obtain ⟨data, de⟩ := cur
    by_cases hlast : de.val + 1 < dir.perBlock
    · have hbehind : pos + 32 + 32 * (dir.perBlock - 1 - (de + 1)) =
          pos + 32 * (dir.perBlock - 1 - de) := by omega
      simp only [fatGetEntry, hlast, dif_pos, Cursor.remaining, hbehind]
      rw [ofFn_drop_eq data ⟨de + 1, hlast⟩]
      rfl
    · have hpos : pos + 32 * (dir.perBlock - 1 - de) = pos := by omega
      have hdrop : (ofFn data).drop (de + 1) = [] := by
        rw [drop_eq_nil_iff, length_ofFn]
        omega
      simp only [fatGetEntry, hlast, dif_neg, not_false_eq_true, Cursor.remaining, hpos, hdrop,
        nil_append]
      exact getEntryFrom_spec dir pos

lemma fatGetEntry_eq_none (h : fatGetEntry c = none) :
    c.remaining = [] := by
  have hspec := fatGetEntry_spec c
  rwa [h] at hspec

lemma fatGetEntry_eq_some {c' : Cursor dir} (h : fatGetEntry c = some (c', e)) :
    c.remaining = e :: c'.remaining := by
  have hspec := fatGetEntry_spec c
  rwa [h] at hspec

lemma remaining_lt_of_fatGetEntry {c' : Cursor dir} (h : fatGetEntry c = some (c', e)) :
    c'.remaining.length < c.remaining.length := by
  rw [fatGetEntry_eq_some h]
  exact Nat.lt_succ_self _

lemma fatGetEntry_of_remaining {after : List RawEntry} (h : c.remaining = e :: after) :
    ∃ c', fatGetEntry c = some (c', e) ∧ c'.remaining = after := by
  cases hget : fatGetEntry c with
  | none => cases (fatGetEntry_eq_none hget).symm.trans h
  | some next =>
    rw [fatGetEntry_eq_some hget] at h
    obtain ⟨rfl, hafter⟩ := cons.inj h
    exact ⟨next.1, rfl, hafter⟩

/-- The start of a walk: no buffer is held yet. -/
def Cursor.start (dir : Dir) : Cursor dir := ⟨0, none⟩

lemma Cursor.remaining_start (dir : Dir) : (Cursor.start dir).remaining = dir.entries := rfl

/-! ### Looking for a short name -/

/-- `!strncmp(a, b, n)` on strings of `n` bytes: a zero byte ends both. -/
def strncmpEq : List Byte → List Byte → Bool
  | [], [] => true
  | x :: a, y :: b => x = y && (x = 0 || strncmpEq a b)
  | _, _ => false

@[simp]
lemma strncmpEq_self (a : List Byte) : strncmpEq a a = true := by
  induction a with
  | nil => rfl
  | cons x a ih => simp [strncmpEq, ih]

/-- The test of `fat_get_short_entry`. -/
def RawEntry.isShort (e : RawEntry) : Bool := !e.isFree && e.attr &&& ATTR_VOLUME = 0

def fatScanFrom {dir : Dir} (name : List Byte) (c : Cursor dir) : Option RawEntry :=
  match _h : fatGetEntry c with
  | none => none
  | some (c', e) =>
    if e.isShort && strncmpEq e.name name then some e else fatScanFrom name c'
termination_by c.remaining.length
decreasing_by exact remaining_lt_of_fatGetEntry _h

def fatScan (dir : Dir) (name : List Byte) : Option RawEntry := fatScanFrom name (Cursor.start dir)

lemma fatScanFrom_eq (name : List Byte) (c : Cursor dir) :
    fatScanFrom name c = c.remaining.find? fun e => e.isShort && strncmpEq e.name name := by
  fun_induction fatScanFrom name c with
  | case1 c h => rw [fatGetEntry_eq_none h, find?_nil]
  | case2 c c' e h hfound => simp [fatGetEntry_eq_some h, hfound]
  | case3 c c' e h hother ih => simp [fatGetEntry_eq_some h, hother, ih]

lemma fatScan_eq (dir : Dir) (name : List Byte) :
    fatScan dir name = dir.entries.find? fun e => e.isShort && strncmpEq e.name name := by
  rw [fatScan, fatScanFrom_eq, Cursor.remaining_start]

end R0Kernel.Fat
