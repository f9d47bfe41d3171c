import R0Kernel.Fs.Vfat.Shortname

/-!
# Long names in directory slots

The encoder is the part of `vfat_build_slots` from the units of the name on, with the padding that
`xlate_to_uni` leaves behind them. The decoder is `fat_parse_long`, which may start over at any slot
that does not fit; how often it does is counted in the result.
-/

namespace R0Kernel.Vfat

open R0Kernel.Fat List Option

local instance neZeroSlotSize : NeZero 32 := ⟨by decide⟩

abbrev Units := Nat → Wchar

/-! ### Slots -/

def fatChecksum (name : Fin 11 → Byte) : Byte :=
  (List.finRange 11).tail.foldl (fun s i => (s <<< 7) + (s >>> 1) + name i) (name 0)

/-- Where unit `j` of a slot lies, in `name0_4`, `name5_10` or `name11_12`. -/
def unitOffset (j : Fin 13) : Fin 31 :=
  if j.val < 5 then ⟨1 + 2 * j, by omega⟩
  else if j.val < 11 then ⟨14 + 2 * (j - 5), by omega⟩
  else ⟨28 + 2 * (j - 11), by omega⟩

def slotUnit (e : RawEntry) (j : Fin 13) : Wchar :=
  e.bytes (unitOffset j).succ ++ e.bytes (unitOffset j).castSucc

/-- The byte of a slot that a unit goes to: which unit, and whether its high byte. -/
def unitByte (k : Fin 32) : Option (Fin 13 × Bool) :=
  if h : 1 ≤ k.val ∧ k.val ≤ 10 then some (⟨(k - 1) / 2, by omega⟩, (k.val - 1) % 2 = 1)
  else if h : 14 ≤ k.val ∧ k.val ≤ 25 then some (⟨5 + (k - 14) / 2, by omega⟩, (k.val - 14) % 2 = 1)
  else if h : 28 ≤ k.val then some (⟨11 + (k - 28) / 2, by omega⟩, (k.val - 28) % 2 = 1)
  else none

/-- A slot as `vfat_build_slots` fills it. -/
def longSlot (id cksum : Byte) (units : Fin 13 → Wchar) : RawEntry where
  bytes k :=
    match unitByte k with
    | some (j, high) => if high then (units j >>> 8).setWidth 8 else (units j).setWidth 8
    | none => if k = 0 then id else if k = 11 then ATTR_EXT else if k = 13 then cksum else 0

/-- The padding of a name: a zero and then `0xffff`, unless it fills its last slot. -/
def padUnits (units : List Wchar) : List Wchar :=
  if units.length % 13 = 0 then units
  else
    let units := units ++ [0]
    if units.length % 13 = 0 then units
    else units ++ List.replicate (13 - units.length % 13) 0xffff

/-- The slot with number `i`, counted from 1. -/
def slotAt (padded : List Wchar) (cksum : Byte) (nrSlots i : Nat) : RawEntry :=
  let id := BitVec.ofNat 8 i
  longSlot (if i = nrSlots then id ||| 0x40 else id) cksum fun j => padded.getD ((i - 1) * 13 + j) 0

def slotsDown (padded : List Wchar) (cksum : Byte) (nrSlots : Nat) : Nat → List RawEntry
  | 0 => []
  | i + 1 => slotAt padded cksum nrSlots (i + 1) :: slotsDown padded cksum nrSlots i

/-- The fields of the short entry that do not come from the name. -/
structure EntryData where
  isDir : Bool
  cluster : BitVec 32
  time : BitVec 16
  date : BitVec 16

/-- The byte of a little endian number at a place. -/
def byteAt {w : Nat} (n : BitVec w) (i : Nat) : Byte := (n >>> (8 * i)).setWidth 8

def aliasEntry (name : Fin 11 → Byte) (lcase : Byte) (d : EntryData) : RawEntry where
  bytes k :=
    if h : k.val < 11 then name ⟨k, h⟩
    else match k.val with
      | 11 => if d.isDir then ATTR_DIR else ATTR_ARCH
      | 12 => lcase
      | 14 => byteAt d.time 0
      | 15 => byteAt d.time 1
      | 16 => byteAt d.date 0
      | 17 => byteAt d.date 1
      | 18 => byteAt d.date 0
      | 19 => byteAt d.date 1
      | 20 => byteAt d.cluster 2
      | 21 => byteAt d.cluster 3
      | 22 => byteAt d.time 0
      | 23 => byteAt d.time 1
      | 24 => byteAt d.date 0
      | 25 => byteAt d.date 1
      | 26 => byteAt d.cluster 0
      | 27 => byteAt d.cluster 1
      | _ => 0

def vfatBadChar (w : Wchar) : Bool :=
  w.toNat < 0x20 || w = 0x2A || w = 0x3F || w = 0x3C || w = 0x3E || w = 0x7C || w = 0x22 ||
    w = 0x3A || w = 0x2F || w = 0x5C

/-- What `vfat_build_slots` comes to: an error, the alias alone, or long slots and the alias. -/
inductive Built where
  | error (code : Int)
  | short (entry : RawEntry)
  | long (slots : List RawEntry) (entry : RawEntry)

/-- `vfat_build_slots` from the units of the name on; `none` if the alias is not found in `fuel`
rounds or overruns its buffer. `nameRes` and `lcase` are what the uninitialised locals hold. -/
def vfatBuildSlots (dir : Dir) (nls : Nls) (opts : Options) (units : List Wchar) (d : EntryData)
    (jiffies : BitVec 32) (nameRes : Mem) (lcase : Byte) (fuel : Nat) : Option Built :=
  if units.any vfatBadChar then some (.error (-EINVAL))
  else
    match vfatCreateShortname dir nls opts units jiffies nameRes lcase fuel with
    | .ret code res lc =>
      let name : Fin 11 → Byte := fun i => res i
      if code < 0 then some (.error code)
      else if code = 1 then some (.short (aliasEntry name lc d))
      else
        let padded := padUnits units
        let nrSlots := padded.length / 13
        some (.long (slotsDown padded (fatChecksum name) nrSlots nrSlots) (aliasEntry name lc d))
    | _ => none

/-! ### Parsing -/

/-- `PARSE_INVALID`, `PARSE_NOT_LONGNAME`, `PARSE_EOF`, and the results zero and `-ENOMEM`. -/
inductive Parse where
  | ok
  | invalid
  | notLongname
  | eof
  | nomem
  deriving DecidableEq

/-- What `fat_parse_long` leaves: its result, where the walk stands (of no use at the end of the
directory), the buffer and the slot count; and how often it went back to `parse_long`. -/
structure Parsed (dir : Dir) where
  result : Parse
  cursor : Cursor dir
  entry : RawEntry
  unicode : Units
  nrSlots : Nat
  restarts : Nat

/-- The name of an entry, as an array. -/
def entryName (e : RawEntry) : Fin 11 → Byte := fun i => e.bytes (i.castAdd 21)

/-- The checks behind the label `parse_long`: the number of slots that should follow. -/
def slotCount (ds : RawEntry) : Option Nat :=
  if ds.id &&& 0x40 = 0 then none
  else
    let slots := (ds.id &&& ~~~0x40).toNat
    if 20 < slots ∨ slots = 0 then none else some slots

def storeSlot (unicode : Units) (slot : Nat) (ds : RawEntry) : Units :=
  let offset := slot * 13
  let unicode : Units := fun k =>
    if h : offset ≤ k ∧ k < offset + 13 then slotUnit ds ⟨k - offset, by omega⟩ else unicode k
  if ds.id &&& 0x40 ≠ 0 then fun k => if k = offset + 13 then 0 else unicode k else unicode

/-- `while (1)`, entered with `slot` not yet counted down. -/
def slotLoop {dir : Dir} (c : Cursor dir) (ds : RawEntry) (slot : Nat) (aliasChecksum : Byte)
    (unicode : Units) (nrSlots restarts : Nat) : Parsed dir :=
  let unicode := storeSlot unicode (slot - 1) ds
  match _h : fatGetEntry c with
  | none => ⟨.eof, c, ds, unicode, nrSlots, restarts⟩
  | some (c', e) =>
    if slot - 1 = 0 then
      if e.id = DELETED_FLAG then ⟨.invalid, c', e, unicode, nrSlots, restarts⟩
      else if e.attr = ATTR_EXT then
        match slotCount e with
        | none => ⟨.invalid, c', e, unicode, nrSlots, restarts + 1⟩
        | some slots => slotLoop c' e slots e.aliasChecksum unicode slots (restarts + 1)
      else if e.isFree ∨ e.attr &&& ATTR_VOLUME ≠ 0 then
        ⟨.invalid, c', e, unicode, nrSlots, restarts⟩
      else
        ⟨.ok, c', e, unicode, if fatChecksum (entryName e) ≠ aliasChecksum then 0
          else nrSlots, restarts⟩
    else if e.attr ≠ ATTR_EXT then ⟨.notLongname, c', e, unicode, nrSlots, restarts⟩
    else if (e.id &&& ~~~0x40).toNat ≠ slot - 1 ∨ e.aliasChecksum ≠ aliasChecksum then
      match slotCount e with
      | none => ⟨.invalid, c', e, unicode, nrSlots, restarts + 1⟩
      | some slots => slotLoop c' e slots e.aliasChecksum unicode slots (restarts + 1)
    else slotLoop c' e (slot - 1) aliasChecksum unicode nrSlots restarts
termination_by c.remaining.length
decreasing_by all_goals exact remaining_lt_of_fatGetEntry _h

/-- `fat_parse_long`, standing on the entry `ds`; `page` is what `__get_free_page` returns if there
is no buffer yet. -/
def fatParseLong {dir : Dir} (c : Cursor dir) (ds : RawEntry) (page unicode : Option Units)
    (nrSlots : Nat) : Parsed dir :=
  match unicode <|> page with
  | none => ⟨.nomem, c, ds, fun _ => 0, nrSlots, 0⟩
  | some buffer =>
    match slotCount ds with
    | none => ⟨.invalid, c, ds, buffer, nrSlots, 0⟩
    | some slots => slotLoop c ds slots ds.aliasChecksum buffer slots 0

/-! ### One slot read back -/

lemma unitByte_castSucc (j : Fin 13) : unitByte (unitOffset j).castSucc = some (j, false) := by
  revert j
  decide

lemma unitByte_succ (j : Fin 13) : unitByte (unitOffset j).succ = some (j, true) := by
  revert j
  decide

lemma append_bytes (w : Wchar) : (w >>> 8).setWidth 8 ++ w.setWidth 8 = w := by
  apply BitVec.eq_of_toNat_eq
  have hlow : w.toNat % 2 ^ 8 < 2 ^ 8 := Nat.mod_lt _ (by decide)
  rw [BitVec.toNat_append, BitVec.toNat_setWidth, BitVec.toNat_setWidth, BitVec.toNat_ushiftRight,
    ← Nat.shiftLeft_add_eq_or_of_lt hlow]
  omega

section Slot

variable (id cksum : Byte) (units : Fin 13 → Wchar)

@[simp]
lemma slotUnit_longSlot (j : Fin 13) : slotUnit (longSlot id cksum units) j = units j := by
  simp only [slotUnit, longSlot, unitByte_castSucc, unitByte_succ, Bool.false_eq_true, if_false,
    if_true]
  exact append_bytes (units j)

@[simp]
lemma id_longSlot : (longSlot id cksum units).id = id := rfl

@[simp]
lemma attr_longSlot : (longSlot id cksum units).attr = ATTR_EXT := rfl

@[simp]
lemma aliasChecksum_longSlot : (longSlot id cksum units).aliasChecksum = cksum := rfl

end Slot

section

variable (name : Fin 11 → Byte) (lcase : Byte) (d : EntryData)

lemma entryName_aliasEntry :
    entryName (aliasEntry name lcase d) = name := by
  ext1 i
  simp [entryName, aliasEntry]

lemma attr_aliasEntry :
    (aliasEntry name lcase d).attr = if d.isDir then ATTR_DIR else ATTR_ARCH := rfl

end

/-! ### The slots of a name -/

section Slots

variable (padded : List Wchar) (cksum : Byte) {nrSlots : Nat} {s : Nat}

lemma length_slotsDown (i : Nat) : (slotsDown padded cksum nrSlots i).length = i := by
  induction i with
  | zero => rfl
  | succ i ih => simp [slotsDown, ih]

lemma slotCount_slotAt (hpos : 1 ≤ nrSlots) (hle : nrSlots ≤ 20) :
    slotCount (slotAt padded cksum nrSlots nrSlots) = some nrSlots := by
  have hbits : ∀ n < 21, 1 ≤ n → ¬(BitVec.ofNat 8 n ||| (0x40 : Byte)) &&& 0x40 = 0 ∧
      ((BitVec.ofNat 8 n ||| (0x40 : Byte)) &&& ~~~0x40).toNat = n := by decide
  obtain ⟨hflag, hcount⟩ := hbits nrSlots (by omega) hpos
  simp only [slotCount, slotAt, if_true, id_longSlot, hcount]
  rw [if_neg hflag, if_neg (by omega)]

lemma id_slotAt {i : Nat} (hi : i < nrSlots) (hle : nrSlots ≤ 20) :
    (slotAt padded cksum nrSlots i).id &&& 0x40 = 0 ∧
      ((slotAt padded cksum nrSlots i).id &&& ~~~0x40).toNat = i := by
  have hbits : ∀ n < 20, BitVec.ofNat 8 n &&& 0x40 = 0 ∧
      (BitVec.ofNat 8 n &&& ~~~(0x40 : Byte)).toNat = n := by decide
  have hne : i ≠ nrSlots := by omega
  simp only [slotAt, hne, if_false, id_longSlot]
  exact hbits i (by omega)

lemma storeSlot_slotAt (unicode : Units) (hs : 1 ≤ s) (hle : s ≤ nrSlots) (hnr : nrSlots ≤ 20)
    (k : Nat) :
    storeSlot unicode (s - 1) (slotAt padded cksum nrSlots s) k =
      if 13 * (s - 1) ≤ k ∧ k < 13 * s then padded.getD k 0
      else if s = nrSlots ∧ k = 13 * s then 0 else unicode k := by
  have hunit : ∀ h : (s - 1) * 13 ≤ k ∧ k < (s - 1) * 13 + 13,
      slotUnit (slotAt padded cksum nrSlots s) ⟨k - (s - 1) * 13, by omega⟩ = padded.getD k 0 := by
    intro h
    have hindex : (s - 1) * 13 + (k - (s - 1) * 13) = k := by omega
    simp [slotAt, hindex]
  have hrange : ((s - 1) * 13 ≤ k ∧ k < (s - 1) * 13 + 13) ↔ (13 * (s - 1) ≤ k ∧ k < 13 * s) := by
    omega
  have hend : (s - 1) * 13 + 13 = 13 * s := by omega
  by_cases hlast : s = nrSlots
  · subst hlast
    have hflag : (slotAt padded cksum s s).id &&& 0x40 ≠ 0 := by
      have hcount := slotCount_slotAt padded cksum hs hnr
      intro hzero
      rw [slotCount, if_pos hzero] at hcount
      simp at hcount
    simp only [storeSlot, hflag, ne_eq, not_false_eq_true, if_true, true_and]
    by_cases hin : 13 * (s - 1) ≤ k ∧ k < 13 * s
    · rw [if_neg (by omega), dif_pos (hrange.mpr hin), if_pos hin, hunit (hrange.mpr hin)]
    · rw [dif_neg (fun h => hin (hrange.mp h)), if_neg hin, hend]
  · have hflag := (id_slotAt padded cksum (show s < nrSlots by omega) hnr).1
    simp only [storeSlot, hflag, ne_eq, not_true_eq_false, if_false, hlast, false_and]
    by_cases hin : 13 * (s - 1) ≤ k ∧ k < 13 * s
    · rw [dif_pos (hrange.mpr hin), if_pos hin, hunit (hrange.mpr hin)]
    · rw [dif_neg (fun h => hin (hrange.mp h)), if_neg hin]

/-- The alias entry that ends a run of slots. -/
structure EndsSlots (cksum : Byte) (e : RawEntry) : Prop where
  live : e.id ≠ DELETED_FLAG
  short : e.attr ≠ ATTR_EXT ∧ e.attr &&& ATTR_VOLUME = 0
  checksum : fatChecksum (entryName e) = cksum

/-- Parsing the slots of a name from slot `s` down: the induction is on `s`, and the buffer holds
the units of the slots read so far. -/
lemma slotLoop_slots (hnr : nrSlots ≤ 20) {e : RawEntry} (he : EndsSlots cksum e)
    (after : List RawEntry) {dir : Dir} (count restarts : Nat) (hs : 1 ≤ s) (hle : s ≤ nrSlots)
    (c : Cursor dir) (unicode : Units)
    (hc : c.remaining = slotsDown padded cksum nrSlots (s - 1) ++ e :: after) :
    ∃ c' : Cursor dir, c'.remaining = after ∧
      slotLoop c (slotAt padded cksum nrSlots s) s cksum unicode count restarts =
        ⟨if e.id = 0 then .invalid else .ok, c', e, fun k => if k < 13 * s then padded.getD k 0
          else if s = nrSlots ∧ k = 13 * s then 0 else unicode k, count, restarts⟩ := by
  induction s, hs using Nat.le_induction generalizing c unicode with
  | base =>
    obtain ⟨c', hget, hafter⟩ := fatGetEntry_of_remaining hc
    have hfree : (e.isFree = true ∨ e.attr &&& ATTR_VOLUME ≠ 0) ↔ e.id = 0 := by
      simp [RawEntry.isFree, he.live, he.short.2]
    refine ⟨c', hafter, ?_⟩
    rw [slotLoop]
    split
    · simp_all
    next c'' e'' hget' =>
    obtain ⟨rfl, rfl⟩ := Prod.mk.inj (some.inj (hget.symm.trans hget'))
    have hstore : storeSlot unicode (1 - 1) (slotAt padded cksum nrSlots 1) = fun k =>
        if k < 13 * 1 then padded.getD k 0
        else if 1 = nrSlots ∧ k = 13 * 1 then 0 else unicode k := by
      ext1 k
      rw [storeSlot_slotAt padded cksum unicode le_rfl hle hnr]
      simp
    rw [if_pos rfl, if_neg he.live, if_neg he.short.1, if_neg (not_not.mpr he.checksum), hstore]
    simp only [hfree]
    split <;> rfl
  | succ s hs ih =>
    obtain ⟨m, rfl⟩ : ∃ m, s = m + 1 := ⟨s - 1, by omega⟩
    rw [Nat.add_sub_cancel, slotsDown, cons_append] at hc
    obtain ⟨c', hget, hrest⟩ := fatGetEntry_of_remaining hc
    obtain ⟨hflag, hid⟩ := id_slotAt padded cksum (show m + 1 < nrSlots by omega) hnr
    obtain ⟨c'', hafter, hloop⟩ := ih (by omega) c'
      (storeSlot unicode (m + 1) (slotAt padded cksum nrSlots (m + 2))) (by simpa using hrest)
    refine ⟨c'', hafter, ?_⟩
    rw [slotLoop]
    split
    · simp_all
    next c₁ e₁ hget' =>
    obtain ⟨rfl, rfl⟩ := Prod.mk.inj (some.inj (hget.symm.trans hget'))
    have hfits : ¬(((slotAt padded cksum nrSlots (m + 1)).id &&& ~~~0x40).toNat ≠ m + 1 + 1 - 1 ∨
        (slotAt padded cksum nrSlots (m + 1)).aliasChecksum ≠ cksum) := by
      rintro (hnumber | hsum)
      · exact hnumber hid
      · exact hsum rfl
    rw [if_neg (by omega), if_neg (by simp [slotAt]), if_neg hfits, Nat.add_sub_cancel, hloop]
    congr 1
    ext1 k
    have hstore := storeSlot_slotAt padded cksum unicode (show 1 ≤ m + 2 by omega) hle hnr k
    rw [show m + 2 - 1 = m + 1 by omega] at hstore
    rw [hstore]
    by_cases hlow : k < 13 * (m + 1)
    · rw [if_pos hlow, if_pos (by omega)]
    · rw [if_neg hlow, if_neg (by omega)]
      by_cases hin : k < 13 * (m + 2)
      · rw [if_pos (by omega), if_pos hin]
      · rw [if_neg (by omega), if_neg hin]

end Slots

/-! ### The padding -/

lemma length_padUnits (units : List Wchar) :
    (padUnits units).length = 13 * ((units.length + 12) / 13) := by
  simp only [padUnits]
  split_ifs with hfull hone
  · omega
  · rw [length_append, length_singleton] at hone ⊢
    omega
  · rw [length_append, length_singleton] at hone
    rw [length_append, length_append, length_replicate, length_singleton]
    omega

variable {units : List Wchar} {k slot : Nat} {dir : Dir} {c : Cursor dir} {e ds : RawEntry}

lemma padUnits_getD_lt (h : k < units.length) :
    (padUnits units).getD k 0 = units[k] := by
  simp only [padUnits]
  split_ifs <;> simp [getElem?_append, h]

/-- Behind the units there is a zero, unless the slots end there. -/
lemma padUnits_getD_length (units : List Wchar) : (padUnits units).getD units.length 0 = 0 := by
  simp only [padUnits]
  split_ifs <;> simp

/-! ### Walking to an entry -/

/-- The entry that a walk stands on after `n` more. -/
def walk {dir : Dir} : Nat → Cursor dir → Option (Cursor dir × RawEntry)
  | 0, c => fatGetEntry c
  | n + 1, c =>
    match fatGetEntry c with
    | none => none
    | some (c', _) => walk n c'

lemma walk_eq {before after : List RawEntry} (h : c.remaining = before ++ e :: after) :
    ∃ c', walk before.length c = some (c', e) ∧ c'.remaining = after := by
  induction before generalizing c with
  | nil => exact fatGetEntry_of_remaining h
  | cons first before ih =>
    obtain ⟨c', hget, hrest⟩ := fatGetEntry_of_remaining h
    obtain ⟨c'', hwalk, hafter⟩ := ih hrest
    exact ⟨c'', by simp only [length_cons, walk, hget, hwalk], hafter⟩

/-! ### Hostile slots -/

lemma slotCount_le {slots : Nat} (h : slotCount ds = some slots) :
    1 ≤ slots ∧ slots ≤ 20 := by
  simp only [slotCount] at h
  split_ifs at h
  obtain rfl := some.inj h
  omega

lemma storeSlot_frame (unicode : Units) (ds : RawEntry) (hslot : slot ≤ 19) (hk : 260 < k) :
    storeSlot unicode slot ds k = unicode k := by
  simp only [storeSlot]
  split
  · dsimp only
    rw [if_neg (by omega), dif_neg (by omega)]
  · dsimp only
    rw [dif_neg (by omega)]

/-- What holds of every parse: nothing behind unit 260 is stored to, and each restart has consumed
an entry. -/
structure Parsed.Bounded {dir : Dir} (unicode : Units) (restarts : Nat) (c : Cursor dir)
    (r : Parsed dir) : Prop where
  frame : ∀ k, 260 < k → r.unicode k = unicode k
  consumed : r.restarts + r.cursor.remaining.length ≤ restarts + c.remaining.length

/-- The stores of a round, and an entry consumed for a restart, keep it. -/
lemma Parsed.Bounded.step {unicode : Units} {restarts restarts' : Nat} {c' : Cursor dir}
    {r : Parsed dir} (h : r.Bounded (storeSlot unicode (slot - 1) ds) restarts' c')
    (hslot : slot ≤ 20) (hget : fatGetEntry c = some (c', e))
    (hrestarts : restarts' ≤ restarts + 1) :
    r.Bounded unicode restarts c := by
  have hlt := remaining_lt_of_fatGetEntry hget
  have := h.consumed
  exact ⟨fun k hk => (h.frame k hk).trans (storeSlot_frame unicode ds (by omega) hk), by omega⟩

lemma slotLoop_bounded (c : Cursor dir) (ds : RawEntry) (slot : Nat) (cksum : Byte)
    (unicode : Units) (count restarts : Nat) (hslot : 1 ≤ slot ∧ slot ≤ 20) :
    (slotLoop c ds slot cksum unicode count restarts).Bounded unicode restarts c := by
  -- a parse that stops here, with the restarts counted so far
  have hstop : ∀ {c : Cursor dir} {result e unicode count restarts},
      Parsed.Bounded unicode restarts c ⟨result, c, e, unicode, count, restarts⟩ :=
    ⟨fun _ _ => rfl, le_rfl⟩
  fun_induction slotLoop c ds slot cksum unicode count restarts with
  | case1 c ds slot _ unicode =>
    exact ⟨fun k hk => storeSlot_frame unicode ds (by omega) hk, le_rfl⟩
  | case2 _ _ _ _ _ _ _ _ _ _ hget | case3 _ _ _ _ _ _ _ _ _ _ hget
  | case5 _ _ _ _ _ _ _ _ _ _ hget | case6 _ _ _ _ _ _ _ _ _ _ hget
  | case7 _ _ _ _ _ _ _ _ _ _ hget | case8 _ _ _ _ _ _ _ _ _ _ hget =>
    exact hstop.step hslot.2 hget (by omega)
  | case4 _ _ _ _ _ _ _ _ _ _ hget _ _ _ _ hcount ih
  | case9 _ _ _ _ _ _ _ _ _ _ hget _ _ _ _ hcount ih =>
    exact (ih (slotCount_le hcount)).step hslot.2 hget (by omega)
  | case10 _ _ _ _ _ _ _ _ _ _ hget _ _ _ ih => exact (ih (by omega)).step hslot.2 hget (by omega)

/-! ### Round trip -/

lemma vfatBuildSlots_long {nls : Nls} {opts : Options} {d : EntryData} {jiffies : BitVec 32}
    {nameRes : Mem} {lcase : Byte} {fuel : Nat} {slots : List RawEntry} {entry : RawEntry}
    (hunits : 0 ∉ units)
    (h : vfatBuildSlots dir nls opts units d jiffies nameRes lcase fuel =
      some (.long slots entry)) :
    ∃ cksum, EndsSlots cksum entry ∧ (entry.id = 0 ↔ LeadsZero nls units) ∧
      slots = slotsDown (padUnits units) cksum ((padUnits units).length / 13)
        ((padUnits units).length / 13) := by
  simp only [vfatBuildSlots] at h
  by_cases hbad : units.any vfatBadChar = true
  · simp [hbad] at h
  rw [if_neg hbad] at h
  cases hname : vfatCreateShortname dir nls opts units jiffies nameRes lcase fuel with
  | running => simp [hname] at h
  | overrun stored => simp [hname] at h
  | ret code res lc =>
    simp only [hname] at h
    by_cases hneg : code < 0
    · simp [hneg] at h
    by_cases hshort : code = 1
    · simp [hshort] at h
    rw [if_neg hneg, if_neg hshort] at h
    obtain ⟨rfl, rfl⟩ := Built.long.inj (some.inj h)
    obtain ⟨hlive, hzero⟩ := vfatCreateShortname_first hunits hname (by omega)
    refine ⟨_, ⟨hlive, ?_, ?_⟩, hzero, rfl⟩
    · rw [attr_aliasEntry]
      split <;> decide
    · rw [entryName_aliasEntry]

/-- The slots and the alias of a name, wherever they are placed in a directory, are read back as the
name. -/
def ReadBack (units : List Wchar) (slots : List RawEntry) (entry : RawEntry) : Prop :=
  ∀ (dir : Dir) (before after : List RawEntry), dir.entries = before ++ slots ++ entry :: after →
  ∀ (page unicode : Option Units) (count : Nat), (unicode <|> page).isSome →
    ∃ c ds, walk before.length (Cursor.start dir) = some (c, ds) ∧
      (fatParseLong c ds page unicode count).result = .ok ∧
      (fatParseLong c ds page unicode count).nrSlots = slots.length ∧
      (fatParseLong c ds page unicode count).entry = entry ∧
      ds.aliasChecksum = fatChecksum (entryName entry) ∧
      (∀ k (h : k < units.length), (fatParseLong c ds page unicode count).unicode k = units[k]) ∧
      (fatParseLong c ds page unicode count).unicode units.length = 0

/-- The directory with these entries, one to a block. -/
def dirOf (entries : List RawEntry) : Dir := ⟨1, by decide, entries.map fun e => some fun _ => e⟩

@[simp]
lemma entries_dirOf (entries : List RawEntry) : (dirOf entries).entries = entries := by
  simp only [Dir.entries, Dir.entriesFrom, dirOf, Nat.zero_div, drop_zero, Nat.zero_mod]
  induction entries with
  | nil => rfl
  | cons e rest ih => simp [blockEntries, ih]

section Slots

variable {cksum : Byte} {slots : List RawEntry} {entry : RawEntry} (hpos : 1 ≤ units.length)
  (hle : units.length ≤ 255) (hends : EndsSlots cksum entry) (hslots : slots =
    slotsDown (padUnits units) cksum ((padUnits units).length / 13) ((padUnits units).length / 13))

include hpos hle hends hslots

lemma fatParseLong_slots {before after : List RawEntry}
    (hentries : dir.entries = before ++ slots ++ entry :: after) {page unicode : Option Units}
    (hbuffer : (unicode <|> page).isSome) (count : Nat) :
    ∃ c ds c' text, walk before.length (Cursor.start dir) = some (c, ds) ∧
      fatParseLong c ds page unicode count =
        ⟨if entry.id = 0 then .invalid else .ok, c', entry, text, slots.length, 0⟩ ∧
      ds.aliasChecksum = cksum ∧ (∀ k (h : k < units.length), text k = units[k]) ∧
      text units.length = 0 := by
  obtain ⟨buffer, hbuffer⟩ := isSome_iff_exists.mp hbuffer
  have hpad := length_padUnits units
  obtain ⟨m, hm⟩ : ∃ m, (padUnits units).length / 13 = m + 1 :=
    ⟨(padUnits units).length / 13 - 1, by omega⟩
  rw [hm] at hslots
  subst hslots
  rw [append_assoc] at hentries
  obtain ⟨c, hwalk, hrest⟩ := walk_eq ((Cursor.remaining_start dir).trans hentries)
  obtain ⟨c', -, hloop⟩ := slotLoop_slots (padUnits units) cksum (show m + 1 ≤ 20 by omega) hends
    after (m + 1) 0 (show 1 ≤ m + 1 by omega) le_rfl c buffer hrest
  have hcount := slotCount_slotAt (padUnits units) cksum (show 1 ≤ m + 1 by omega)
    (show m + 1 ≤ 20 by omega)
  have hparse : fatParseLong c (slotAt (padUnits units) cksum (m + 1) (m + 1)) page unicode count =
      slotLoop c (slotAt (padUnits units) cksum (m + 1) (m + 1))
        (m + 1) cksum buffer (m + 1) 0 := by
    rw [fatParseLong, hbuffer]
    simp only [hcount]
    rfl
  refine ⟨c, _, c', _, hwalk, hparse.trans (by rw [hloop, length_slotsDown]), rfl,
    fun k hk => ?_, ?_⟩
  · rw [if_pos (by omega), padUnits_getD_lt hk]
  · by_cases hfull : units.length < 13 * (m + 1)
    · rw [if_pos hfull, padUnits_getD_length]
    · rw [if_neg hfull, if_pos ⟨rfl, by omega⟩]

lemma lost_of_id_eq_zero (hid : entry.id = 0) :
    (∃ c ds, walk 0 (Cursor.start (dirOf (slots ++ [entry]))) = some (c, ds) ∧
      (fatParseLong c ds none (some fun _ => 0) 0).result = .invalid) ∧
      ¬ReadBack units slots entry := by
  have hentries : (dirOf (slots ++ [entry])).entries = [] ++ slots ++ [entry] := by simp
  obtain ⟨c, ds, _, _, hwalk, hparse, -⟩ := fatParseLong_slots hpos hle hends hslots hentries
    (show ((some fun _ => 0 : Option Units) <|> none).isSome from rfl) 0
  rw [if_pos hid] at hparse
  refine ⟨⟨c, ds, hwalk, by rw [hparse]⟩, fun hread => ?_⟩
  obtain ⟨c', ds', hwalk', hok, -⟩ := hread _ [] [] hentries none (some fun _ => 0) 0 rfl
  obtain ⟨rfl, rfl⟩ := Prod.mk.inj (some.inj (hwalk.symm.trans hwalk'))
  rw [hparse] at hok
  cases hok

end Slots

/-- Long names survive the disk format but for those that lead with a zero byte, whose alias is a
free entry: the slots built for another name, placed anywhere in a directory, are read back as the
name. Whatever a directory holds, the parse stays inside its buffer and consumes an entry for each
restart. -/
theorem vfat_long_name_roundtrip (home : Dir) (nls : Nls) (opts : Options) :
    (∀ (units : List Wchar) (d : EntryData) (jiffies : BitVec 32) (nameRes : Mem) (lcase : Byte)
      (fuel : Nat) (slots : List RawEntry) (entry : RawEntry),
      1 ≤ units.length → units.length ≤ 255 → 0 ∉ units →
      vfatBuildSlots home nls opts units d jiffies nameRes lcase fuel = some (.long slots entry) →
      (ReadBack units slots entry ↔ ¬LeadsZero nls units)) ∧
    ∀ (dir : Dir) (c : Cursor dir) (ds : RawEntry) (page unicode : Option Units) (count : Nat),
      (∀ buffer, (unicode <|> page) = some buffer →
        ∀ k, 260 < k → (fatParseLong c ds page unicode count).unicode k = buffer k) ∧
      (fatParseLong c ds page unicode count).restarts +
          (fatParseLong c ds page unicode count).cursor.remaining.length ≤ c.remaining.length := by
  constructor
  · intro units d jiffies nameRes lcase fuel slots entry hpos hle hunits hbuilt
    obtain ⟨cksum, hends, hzero, hslots⟩ := vfatBuildSlots_long hunits hbuilt
    rw [← hzero]
    constructor
    · exact fun hread hid => (lost_of_id_eq_zero hpos hle hends hslots hid).2 hread
    · intro hid dir before after hentries page unicode count hbuffer
      obtain ⟨c, ds, _, _, hwalk, hparse, hsum, htext⟩ :=
        fatParseLong_slots hpos hle hends hslots hentries hbuffer count
      refine ⟨c, ds, hwalk, ?_⟩
      rw [hparse]
      exact ⟨if_neg hid, rfl, rfl, hsum.trans hends.checksum.symm, htext⟩
  · intro dir c ds page unicode count
    simp only [fatParseLong]
    cases hbuffer : unicode <|> page with
    | none => exact ⟨by simp, by simp⟩
    | some buffer =>
      cases hcount : slotCount ds with
      | none => exact ⟨by simp, by simp⟩
      | some slots =>
        have hbounded := slotLoop_bounded c ds slots ds.aliasChecksum buffer slots 0
          (slotCount_le hcount)
        refine ⟨?_, by simpa using hbounded.consumed⟩
        intro buffer' heq
        obtain rfl := some.inj heq
        exact hbounded.frame

lemma vfatFindForm_dirOf_nil : vfatFindForm (dirOf []) = fun _ => false := by
  ext1 name
  simp [vfatFindForm, fatScan_eq]

/-- Fourteen letters are built as two long slots and an alias; behind an entry of a directory they
are read back. -/
theorem vfat_long_name_roundtrip_two :
    ∃ (slots : List RawEntry) (entry : RawEntry) (dir : Dir) (c : Cursor dir) (ds : RawEntry),
      slots.length = 2 ∧ dir.entries = [shortEntry [0x42]] ++ slots ++ [entry] ∧
      walk 1 (Cursor.start dir) = some (c, ds) ∧
      (fatParseLong c ds none (some fun _ => 7) 0).result = .ok ∧
      (fatParseLong c ds none (some fun _ => 7) 0).unicode 13 = 0x41 := by
  obtain ⟨slots, entry, hbuilt, hlen⟩ : ∃ slots entry,
      vfatBuildSlots (dirOf []) asciiNls vfatDefaults (replicate 14 0x41) ⟨false, 5, 0, 0⟩ 0
        (fun _ => 0) 0 0 = some (.long slots entry) ∧ slots.length = 2 := by
    simp only [vfatBuildSlots, vfatCreateShortname, vfatFindForm_dirOf_nil]
    exact ⟨_, _, rfl, rfl⟩
  have hentries : (dirOf (shortEntry [0x42] :: slots ++ [entry])).entries =
      [shortEntry [0x42]] ++ slots ++ [entry] := by simp
  have hlead : ¬LeadsZero asciiNls (replicate 14 0x41) := by
    rintro ⟨w, hw, -, hzero⟩
    cases hw
    simp [asciiNls, asciiBytes] at hzero
  obtain ⟨c, ds, hwalk, hok, -, -, -, hname, -⟩ := ((vfat_long_name_roundtrip (dirOf []) asciiNls
    vfatDefaults).1 (replicate 14 0x41) ⟨false, 5, 0, 0⟩ 0 (fun _ => 0) 0 0 slots entry (by decide)
    (by decide) (by decide) hbuilt).mpr hlead _ _ _ hentries none (some fun _ => 7) 0 rfl
  exact ⟨slots, entry, _, c, ds, hlen, hentries, hwalk, hok, hname 13 (by decide)⟩

/-- The won sign in code page 949. -/
def wonNls : Nls where
  uni2char := fun w => if w = 0x20A9 then [0x00, 0x5C] else []
  charset2upper := fun _ => 0
  length_uni2char := by grind
  length_of_zero := by grind

/-- The name of the won sign alone is built as a long name, and its slots are not accepted when they
are read. -/
theorem vfat_long_name_lost :
    ∃ slots entry,
      vfatBuildSlots (dirOf []) wonNls vfatDefaults [0x20A9] ⟨false, 5, 0, 0⟩ 0 (fun _ => 0) 0 0 =
        some (.long slots entry) ∧
      (∃ c ds, walk 0 (Cursor.start (dirOf (slots ++ [entry]))) = some (c, ds) ∧
        (fatParseLong c ds none (some fun _ => 0) 0).result = .invalid) ∧
      ¬ReadBack [0x20A9] slots entry := by
  obtain ⟨slots, entry, hbuilt, hid⟩ : ∃ slots entry,
      vfatBuildSlots (dirOf []) wonNls vfatDefaults [0x20A9] ⟨false, 5, 0, 0⟩ 0 (fun _ => 0) 0 0 =
        some (.long slots entry) ∧ entry.id = 0 := by
    simp only [vfatBuildSlots, vfatCreateShortname, vfatFindForm_dirOf_nil]
    exact ⟨_, _, rfl, rfl⟩
  obtain ⟨cksum, hends, -, hslots⟩ := vfatBuildSlots_long (by decide) hbuilt
  exact ⟨slots, entry, hbuilt, lost_of_id_eq_zero (by decide) (by decide) hends hslots hid⟩

end R0Kernel.Vfat
