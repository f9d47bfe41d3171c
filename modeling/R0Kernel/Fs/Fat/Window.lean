import R0Kernel.Fs.Fat.Entry

/-!
# Entries through blocks

A `struct fat_entry` holds the one or two blocks that an entry lies in and pointers into them. It is
read anew for an entry in another block, moved within its block by `fat_ent_update_ptr`, and stepped
from entry to entry by `ent_next`. An entry of twelve bits may lie across two blocks; from such an
entry `fat_ent_update_ptr` does not get back to one inside the first of the blocks.
-/

namespace R0Kernel.Fat

/-- What `fat_fill_super` leaves for the entries: the width, the block size, the number of clusters,
and the number of clusters in a file of `s_maxbytes`. -/
structure Geometry where
  bits : FatBits
  blockBits : Nat
  maxCluster : Nat
  limit : Nat
  block_le : 9 ≤ blockBits
  start_le : FAT_START_ENT ≤ maxCluster
  max_le : maxCluster ≤ bits.maxFat + FAT_START_ENT

/-- `s_blocksize` -/
def Geometry.blocksize (g : Geometry) : Nat := 2 ^ g.blockBits

/-- The buffers of a `struct fat_entry`, as numbers of blocks from `fat_start` on. -/
inductive Bhs where
  | none
  | one (b : Nat)
  | two (b b' : Nat)
  deriving DecidableEq

/-- `struct fat_entry`: the pointers are places in the table, and only `ent12_p` has two of them. -/
structure FatEntry where
  entry : Nat
  bhs : Bhs
  ptr : Nat × Nat
  deriving DecidableEq

def fatentInit : FatEntry := ⟨0, .none, (0, 0)⟩

inductive Err where
  | io
  | nospc
  -- a `BUG_ON` stops the call
  | bug
  -- the loop has not ended
  | fuel
  deriving DecidableEq

variable (g : Geometry)

/-- `ent_blocknr`: the offset in the block and the block. -/
def entBlocknr (entry : Nat) : Nat × Nat :=
  (g.bits.entOffset entry &&& (g.blocksize - 1), g.bits.entOffset entry >>> g.blockBits)

def entSetPtr (fe : FatEntry) (offset : Nat) : FatEntry :=
  match fe.bhs with
  | .none => fe
  | .one b => { fe with ptr := (b * g.blocksize + offset, b * g.blocksize + offset + 1) }
  | .two b b' => { fe with ptr := (b * g.blocksize + offset, b' * g.blocksize) }

/-- Whether an entry at this offset needs the next block. -/
def needsNext (offset : Nat) : Bool := g.bits == .fat12 && g.blocksize ≤ offset + 1

def entBread (fe : FatEntry) (offset blocknr : Nat) : FatEntry :=
  let bhs := if needsNext g offset then .two blocknr (blocknr + 1) else .one blocknr
  entSetPtr g { fe with bhs := bhs } offset

def fatEntUpdatePtr (fe : FatEntry) (offset blocknr : Nat) : Option FatEntry :=
  match fe.bhs with
  | .none => none
  | .one b =>
    if b ≠ blocknr then none
    else if needsNext g offset then none else some (entSetPtr g fe offset)
  | .two b b' =>
    if b ≠ blocknr then none
    else if needsNext g offset ∧ b' ≠ blocknr + 1 then none else some (entSetPtr g fe offset)

/-! ### Reading, writing, stepping -/

def entGetAt (t : Table) (fe : FatEntry) : Nat :=
  let next :=
    match g.bits with
    | .fat12 =>
      (if fe.entry % 2 = 1 then byteNat t fe.ptr.1 >>> 4 ||| byteNat t fe.ptr.2 <<< 4
        else byteNat t fe.ptr.2 <<< 8 ||| byteNat t fe.ptr.1) &&& 0x0fff
    | .fat16 => byteNat t (fe.ptr.1 + 1) <<< 8 ||| byteNat t fe.ptr.1
    | .fat32 =>
      (byteNat t (fe.ptr.1 + 3) <<< 24 ||| byteNat t (fe.ptr.1 + 2) <<< 16 |||
        byteNat t (fe.ptr.1 + 1) <<< 8 ||| byteNat t fe.ptr.1) &&& 0x0fffffff
  if g.bits.bad ≤ next then FAT_ENT_EOF else next

def entPutAt (t : Table) (fe : FatEntry) (new : Nat) : Table :=
  let new := if new = FAT_ENT_EOF then g.bits.eof else new
  match g.bits with
  | .fat12 =>
    if fe.entry % 2 = 1 then
      setByte (setByte t fe.ptr.1 (new <<< 4 ||| (byteNat t fe.ptr.1 &&& 0x0f)))
        fe.ptr.2 (new >>> 4)
    else
      setByte (setByte t fe.ptr.1 (new &&& 0xff)) fe.ptr.2
        ((byteNat t fe.ptr.2 &&& 0xf0) ||| new >>> 8)
  | .fat16 => setByte (setByte t fe.ptr.1 new) (fe.ptr.1 + 1) (new >>> 8)
  | .fat32 =>
    let new := new ||| (byteNat t (fe.ptr.1 + 3) &&& 0xf0) <<< 24
    setByte (setByte (setByte (setByte t fe.ptr.1 new) (fe.ptr.1 + 1) (new >>> 8)) (fe.ptr.1 + 2)
      (new >>> 16)) (fe.ptr.1 + 3) (new >>> 24)

/-- `fat12_ent_next`, `fat16_ent_next` and `fat32_ent_next`: the next entry, if it is in the same
block. -/
def entNext (fe : FatEntry) : FatEntry × Bool :=
  let fe' := { fe with entry := fe.entry + 1 }
  match g.bits, fe.bhs with
  | _, .none => (fe', false)
  | .fat12, .one b =>
    let nextp := fe.ptr.2 + 1 + fe.entry % 2
    if nextp < b * g.blocksize + (g.blocksize - 1) then
      ({ fe' with ptr := (nextp - 1, nextp) }, true)
    else (fe', false)
  | .fat12, .two _ b' =>
    let nextp := fe.ptr.2 + 1 + fe.entry % 2
    ({ fe' with ptr := (nextp - 1, nextp), bhs := .one b' }, true)
  | .fat16, .one b | .fat16, .two b _ =>
    if fe.ptr.1 < b * g.blocksize + (g.blocksize - 2) then
      ({ fe' with ptr := (fe.ptr.1 + 2, fe.ptr.2) }, true)
    else (fe', false)
  | .fat32, .one b | .fat32, .two b _ =>
    if fe.ptr.1 < b * g.blocksize + (g.blocksize - 4) then
      ({ fe' with ptr := (fe.ptr.1 + 4, fe.ptr.2) }, true)
    else (fe', false)

def fatEntNext (fe : FatEntry) : FatEntry × Bool :=
  let (fe', more) := entNext g fe
  (fe', more && fe'.entry < g.maxCluster)

def fatEntReadBlock (fe : FatEntry) : FatEntry :=
  let (offset, blocknr) := entBlocknr g fe.entry
  entBread g fe offset blocknr

def fatEntRead (t : Table) (fe : FatEntry) (entry : Nat) : Except Err (Nat × FatEntry) :=
  if entry < FAT_START_ENT ∨ g.maxCluster ≤ entry then .error .io
  else
    let fe := { fe with entry := entry }
    let (offset, blocknr) := entBlocknr g entry
    let fe := (fatEntUpdatePtr g fe offset blocknr).getD (entBread g fe offset blocknr)
    .ok (entGetAt g t fe, fe)

/-! ### Windows on an entry -/

/-- The entry lies across two blocks. -/
def Straddles (entry : Nat) : Prop := needsNext g (g.bits.entOffset entry % g.blocksize) = true

instance (entry : Nat) : Decidable (Straddles g entry) := inferInstanceAs (Decidable (_ = true))

/-- From an entry across two blocks to one inside the first of them. -/
def Crossed (entry entry' : Nat) : Prop :=
  Straddles g entry ∧ ¬Straddles g entry' ∧
    g.bits.entOffset entry / g.blocksize = g.bits.entOffset entry' / g.blocksize

instance (entry entry' : Nat) : Decidable (Crossed g entry entry') :=
  inferInstanceAs (Decidable (_ ∧ _))

def FatEntry.Framed (fe : FatEntry) : Prop :=
  match fe.bhs with
  | .none => False
  | .one b => g.bits.entOffset fe.entry / g.blocksize = b ∧ ¬Straddles g fe.entry
  | .two b b' =>
    g.bits.entOffset fe.entry / g.blocksize = b ∧ b' = b + 1 ∧ Straddles g fe.entry

def FatEntry.At (fe : FatEntry) : Prop :=
  fe.ptr.1 = g.bits.entOffset fe.entry ∧
    (g.bits = .fat12 → fe.ptr.2 = g.bits.entOffset fe.entry + 1)

structure FatEntry.Good (fe : FatEntry) : Prop where
  framed : fe.Framed g
  at_entry : fe.At g

variable {g} {fe : FatEntry} {t : Table} {entry : Nat}

lemma entGetAt_eq (h : fe.At g) : entGetAt g t fe = entGet g.bits t fe.entry := by
  obtain ⟨h₁, h₂⟩ := h
  simp only [entGetAt, entGet, entRaw, h₁]
  generalize g.bits = bits at h₁ h₂ ⊢
  cases bits with
  | fat12 =>
    simp only [h₂ rfl]
    rfl
  | fat16 => rfl
  | fat32 => rfl

lemma entPutAt_eq (h : fe.At g) (new : Nat) :
    entPutAt g t fe new = entPut g.bits t fe.entry new := by
  obtain ⟨h₁, h₂⟩ := h
  simp only [entPutAt, entPut, entPutRaw, h₁]
  generalize g.bits = bits at h₁ h₂ ⊢
  cases bits with
  | fat12 => simp only [h₂ rfl]
  | fat16 => rfl
  | fat32 => rfl

lemma Geometry.blocksize_ge (g : Geometry) : 512 ≤ g.blocksize :=
  Nat.pow_le_pow_right (n := 2) (by decide) g.block_le

lemma entBlocknr_eq (entry : Nat) : entBlocknr g entry =
    (g.bits.entOffset entry % g.blocksize, g.bits.entOffset entry / g.blocksize) := by
  rw [entBlocknr, Geometry.blocksize, Nat.and_two_pow_sub_one_eq_mod, Nat.shiftRight_eq_div_pow]

lemma straddles_iff : Straddles g entry ↔
    g.bits = .fat12 ∧ g.blocksize ≤ g.bits.entOffset entry % g.blocksize + 1 := by
  simp [Straddles, needsNext]

/-- Setting the pointers of a window whose buffers are those of the entry. -/
lemma good_entSetPtr (h : fe.Framed g) :
    (entSetPtr g fe (g.bits.entOffset fe.entry % g.blocksize)).Good g := by
  have hsplit := Nat.div_add_mod' (g.bits.entOffset fe.entry) g.blocksize
  obtain ⟨entry, bhs, ptr⟩ := fe
  dsimp only [FatEntry.Framed] at h hsplit ⊢
  cases bhs with
  | none => exact h.elim
  | one b =>
    obtain ⟨rfl, hstraddle⟩ := h
    exact ⟨⟨rfl, hstraddle⟩, hsplit, fun _ => congrArg (· + 1) hsplit⟩
  | two b b' =>
    obtain ⟨rfl, rfl, hstraddle⟩ := h
    refine ⟨⟨rfl, rfl, hstraddle⟩, hsplit, fun _ => ?_⟩
    have hlt := Nat.mod_lt (g.bits.entOffset entry) (lt_of_lt_of_le (by decide) g.blocksize_ge)
    have hle := (straddles_iff.mp hstraddle).2
    simp only [entSetPtr, Nat.add_one_mul] at hsplit ⊢
    omega

lemma good_entBread (fe : FatEntry) : (entBread g fe (g.bits.entOffset fe.entry % g.blocksize)
    (g.bits.entOffset fe.entry / g.blocksize)).Good g := by
  apply good_entSetPtr
  by_cases hstraddle : needsNext g (g.bits.entOffset fe.entry % g.blocksize) = true
  · rw [if_pos hstraddle]
    exact ⟨rfl, rfl, hstraddle⟩
  · rw [if_neg hstraddle]
    exact ⟨rfl, hstraddle⟩

@[simp]
lemma entry_entSetPtr (offset : Nat) : (entSetPtr g fe offset).entry = fe.entry := by
  rw [entSetPtr]
  cases fe.bhs <;> rfl

@[simp]
lemma entry_entBread (offset blocknr : Nat) : (entBread g fe offset blocknr).entry = fe.entry := by
  simp [entBread]

lemma good_fatEntReadBlock (fe : FatEntry) :
    (fatEntReadBlock g fe).Good g ∧ (fatEntReadBlock g fe).entry = fe.entry := by
  simp only [fatEntReadBlock, entBlocknr_eq, entry_entBread, and_true]
  exact good_entBread fe

/-- A window that has not been used, or one on its entry. -/
def FatEntry.Ready (g : Geometry) (fe : FatEntry) : Prop := fe.bhs = .none ∨ fe.Framed g

/-- Moving a window, except from an entry across two blocks to one inside the first of them. -/
lemma good_fatEntUpdatePtr {fe' : FatEntry} (hready : fe.Ready g)
    (hcrossed : fe.bhs ≠ .none → ¬Crossed g fe.entry entry)
    (hupdate : fatEntUpdatePtr g { fe with entry := entry } (g.bits.entOffset entry % g.blocksize)
      (g.bits.entOffset entry / g.blocksize) = some fe') :
    fe'.Good g ∧ fe'.entry = entry := by
  suffices h : ({ fe with entry := entry } : FatEntry).Framed g ∧
      fe' = entSetPtr g { fe with entry := entry } (g.bits.entOffset entry % g.blocksize) by
    obtain ⟨hframed, rfl⟩ := h
    exact ⟨good_entSetPtr hframed, entry_entSetPtr _⟩
  obtain ⟨x, bhs, ptr⟩ := fe
  obtain rfl | hframed := hready
  · simp [fatEntUpdatePtr] at hupdate
  · cases bhs with
    | none => exact hframed.elim
    | one b =>
      simp only [fatEntUpdatePtr, ne_eq, ite_not] at hupdate
      split_ifs at hupdate with hblock hnext
      exact ⟨⟨hblock.symm, hnext⟩, (Option.some.inj hupdate).symm⟩
    | two b b' =>
      obtain ⟨hb, hb', hstraddle⟩ := hframed
      simp only [fatEntUpdatePtr, ne_eq, ite_not] at hupdate
      split_ifs at hupdate with hblock hnext
      have hstraddle' : Straddles g entry := by
        by_contra hinside
        exact hcrossed (by simp) ⟨hstraddle, hinside, hb.trans hblock⟩
      exact ⟨⟨hblock.symm, hb', hstraddle'⟩, (Option.some.inj hupdate).symm⟩

lemma fatEntRead_spec (hready : fe.Ready g) (hlow : FAT_START_ENT ≤ entry)
    (hhigh : entry < g.maxCluster) (hcrossed : fe.bhs ≠ .none → ¬Crossed g fe.entry entry) :
    ∃ fe', fatEntRead g t fe entry = .ok (entGet g.bits t entry, fe') ∧ fe'.Good g ∧
      fe'.entry = entry := by
  rw [fatEntRead, if_neg (by omega)]
  simp only [entBlocknr_eq]
  generalize hfe : (fatEntUpdatePtr g { fe with entry := entry } _ _).getD _ = fe'
  have hgood : fe'.Good g ∧ fe'.entry = entry := by
    rw [← hfe]
    cases hupdate : fatEntUpdatePtr g { fe with entry := entry }
        (g.bits.entOffset entry % g.blocksize) (g.bits.entOffset entry / g.blocksize) with
    | none => exact ⟨good_entBread { fe with entry := entry }, entry_entBread ..⟩
    | some fe' => exact good_fatEntUpdatePtr hready hcrossed hupdate
  exact ⟨fe', by rw [entGetAt_eq hgood.1.at_entry, hgood.2], hgood⟩

lemma entry_entNext (fe : FatEntry) : (entNext g fe).1.entry = fe.entry + 1 := by
  simp only [entNext]
  split <;> (try split) <;> rfl

lemma framed_one {b : Nat} {ptr : Nat × Nat} {r : Nat}
    (hentry : g.bits.entOffset entry = b * g.blocksize + r) (hr : r < g.blocksize)
    (hinside : g.bits = .fat12 → r + 1 < g.blocksize) :
    (⟨entry, .one b, ptr⟩ : FatEntry).Framed g := by
  have hdiv : g.bits.entOffset entry / g.blocksize = b := by
    rw [hentry, mul_comm, Nat.mul_add_div (by omega), Nat.div_eq_of_lt hr, add_zero]
  have hmod : g.bits.entOffset entry % g.blocksize = r := by
    rw [hentry, mul_comm, Nat.mul_add_mod, Nat.mod_eq_of_lt hr]
  refine ⟨hdiv, fun hstraddle => ?_⟩
  obtain ⟨hbits, hle⟩ := straddles_iff.mp hstraddle
  have hlt := hinside hbits
  rw [hmod] at hle
  omega

lemma entOffset_succ (bits : FatBits) (entry : Nat) : bits.entOffset (entry + 1) =
    bits.entOffset entry +
      match bits with | .fat12 => 1 + entry % 2 | .fat16 => 2 | .fat32 => 4 := by
  cases bits <;>
    simp only [FatBits.entOffset, Nat.shiftLeft_eq, Nat.shiftRight_eq_div_pow, pow_one] <;> omega

/-- A step that stays in the block leads to the next entry. -/
lemma good_entNext (h : fe.Good g) (hmore : (entNext g fe).2 = true) : (entNext g fe).1.Good g := by
  have hsize := g.blocksize_ge
  have hsucc := entOffset_succ g.bits fe.entry
  have hsplit := Nat.div_add_mod' (g.bits.entOffset fe.entry) g.blocksize
  have hmod := Nat.mod_lt (g.bits.entOffset fe.entry) (lt_of_lt_of_le (by decide) hsize)
  obtain ⟨entry, bhs, ptr⟩ := fe
  obtain ⟨hframed, h₁, h₂⟩ := h
  dsimp only [FatEntry.Framed] at hframed h₁ h₂ hsucc hsplit hmod
  generalize g.bits.entOffset entry % g.blocksize = r at hsplit hmod
  cases bhs with
  | none => exact hframed.elim
  | one b =>
    rw [hframed.1] at hsplit
    cases hbits : g.bits with
    | fat12 =>
      have h₂ := h₂ hbits
      simp only [entNext, hbits] at hmore hsucc hsplit h₁ h₂ ⊢
      split_ifs at hmore ⊢ with hlt
      refine ⟨framed_one (r := r + 1 + entry % 2) (by rw [hbits]; omega) (by omega) (by omega), ?_⟩
      simp only [FatEntry.At, hbits]
      omega
    | fat16 =>
      simp only [entNext, hbits] at hmore hsucc hsplit h₁ ⊢
      split_ifs at hmore ⊢ with hlt
      refine ⟨framed_one (r := r + 2) (by rw [hbits]; omega) (by omega) (by simp [hbits]), ?_⟩
      simp only [FatEntry.At, hbits, reduceCtorEq, false_implies, and_true]
      omega
    | fat32 =>
      simp only [entNext, hbits] at hmore hsucc hsplit h₁ ⊢
      split_ifs at hmore ⊢ with hlt
      refine ⟨framed_one (r := r + 4) (by rw [hbits]; omega) (by omega) (by simp [hbits]), ?_⟩
      simp only [FatEntry.At, hbits, reduceCtorEq, false_implies, and_true]
      omega
  | two b b' =>
    obtain ⟨hb, rfl, hstraddle⟩ := hframed
    obtain ⟨hbits, hle⟩ := straddles_iff.mp hstraddle
    have h₂ := h₂ hbits
    have hblock : (b + 1) * g.blocksize = b * g.blocksize + g.blocksize := Nat.add_one_mul ..
    have hlast : g.bits.entOffset entry + 1 = b * g.blocksize + g.blocksize := by
      have hsplit' := Nat.div_add_mod' (g.bits.entOffset entry) g.blocksize
      have hmod' := Nat.mod_lt (g.bits.entOffset entry) (lt_of_lt_of_le (by decide) hsize)
      rw [hb] at hsplit'
      omega
    simp only [entNext, hbits] at hsucc hlast h₁ h₂ ⊢
    refine ⟨framed_one (r := entry % 2) (by rw [hbits]; omega) (by omega) (by omega), ?_⟩
    simp only [FatEntry.At, hbits]
    omega

end R0Kernel.Fat
