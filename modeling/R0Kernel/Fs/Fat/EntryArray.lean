import R0Kernel.Fs.Fat.Window

/-!
# The table as an array

An entry that is located by `ent_blocknr` and `ent_bread` is stored and read like an element of an
array, and `fat_ent_next` steps through a block as if each entry was located anew. The bad mark is
the one number of a cluster that is not read back.
-/

namespace R0Kernel.Fat

variable (g : Geometry)

/-- The table after `ent_put` of `new` to the entry of `fe`, which is located first. -/
def putEntry (t : Table) (fe : FatEntry) (new : Nat) : Table :=
  entPutAt g t (fatEntReadBlock g fe) new

/-- `ent_get` of the entry of `fe`, which is located first. -/
def getEntry (t : Table) (fe : FatEntry) : Nat := entGetAt g t (fatEntReadBlock g fe)

/-- Calls of `fat_ent_next` that all report another entry. -/
def nextTimes : Nat → FatEntry → Option FatEntry
  | 0, fe => some fe
  | n + 1, fe => if (fatEntNext g fe).2 then nextTimes n (fatEntNext g fe).1 else none

def SameWindow (fe fe' : FatEntry) : Prop :=
  fe.entry = fe'.entry ∧ fe.bhs = fe'.bhs ∧ fe.ptr.1 = fe'.ptr.1 ∧
    (g.bits = .fat12 → fe.ptr.2 = fe'.ptr.2)

/-- What an array promises for a write of `new`, and for steps from the entry on. -/
structure ActsAsArray (t : Table) (fe : FatEntry) (new : Nat) : Prop where
  same : ∀ fe', fe'.entry = fe.entry → getEntry g (putEntry g t fe new) fe' = new
  other : ∀ fe', fe'.entry ≠ fe.entry → getEntry g (putEntry g t fe new) fe' = getEntry g t fe'
  top : g.bits = .fat32 → ∀ e,
    byteNat (putEntry g t fe new) (4 * e + 3) / 16 = byteNat t (4 * e + 3) / 16
  steps : ∀ n fe', nextTimes g n (fatEntReadBlock g fe) = some fe' →
    SameWindow g fe' (fatEntReadBlock g { fe with entry := fe.entry + n })

variable {g} {t : Table} {fe : FatEntry} {new : Nat}

lemma getEntry_eq (t : Table) (fe : FatEntry) : getEntry g t fe = entGet g.bits t fe.entry := by
  rw [getEntry, entGetAt_eq (good_fatEntReadBlock fe).1.at_entry, (good_fatEntReadBlock fe).2]

lemma putEntry_eq (t : Table) (fe : FatEntry) (new : Nat) :
    putEntry g t fe new = entPut g.bits t fe.entry new := by
  rw [putEntry, entPutAt_eq (good_fatEntReadBlock fe).1.at_entry, (good_fatEntReadBlock fe).2]

lemma entPut_fat32_top (t : Table) (e e' : Nat) (h : FatBits.fat32.Storable new) :
    byteNat (entPut .fat32 t e new) (4 * e' + 3) / 16 = byteNat t (4 * e' + 3) / 16 := by
  have hlimit : (if new = FAT_ENT_EOF then FatBits.fat32.eof else new) < 2 ^ 28 := h.lt_limit
  rw [entPut, byteNat_entPutRaw_fat32 t e hlimit]
  by_cases he : e' = e
  · subst he
    rw [if_pos rfl]
    omega
  · rw [if_neg (by omega), if_neg (by omega), if_neg (by omega), if_neg (by omega)]

lemma FatEntry.Good.sameWindow {fe' : FatEntry} (h : fe.Good g) (h' : fe'.Good g)
    (hentry : fe.entry = fe'.entry) : SameWindow g fe fe' := by
  obtain ⟨hframed, hat, hat12⟩ := h
  obtain ⟨hframed', hat', hat12'⟩ := h'
  rw [← hentry] at hat' hat12'
  refine ⟨hentry, ?_, hat.trans hat'.symm, fun hbits => (hat12 hbits).trans (hat12' hbits).symm⟩
  simp only [Framed, ← hentry] at hframed hframed'
  -- an entry lies across two blocks in both windows or in none
  split at hframed <;> split at hframed'
  all_goals simp_all

lemma good_nextTimes {n : Nat} {fe' : FatEntry} (h : fe.Good g)
    (hnext : nextTimes g n fe = some fe') : fe'.Good g ∧ fe'.entry = fe.entry + n := by
  induction n generalizing fe with
  | zero =>
    obtain rfl := Option.some.inj hnext
    exact ⟨h, rfl⟩
  | succ n ih =>
    rw [nextTimes] at hnext
    split at hnext
    next hmore =>
      have hstep : (entNext g fe).2 = true := by
        simp only [fatEntNext, Bool.and_eq_true] at hmore
        exact hmore.1
      obtain ⟨hgood, hentry⟩ := ih (good_entNext h hstep) hnext
      rw [entry_entNext] at hentry
      exact ⟨hgood, by omega⟩
    next => cases hnext

/-- The table acts as an array for exactly the numbers below the bad mark and the end of a chain. -/
theorem fat_entries_array_iff (g : Geometry) (t : Table) (fe : FatEntry) (new : Nat) :
    ActsAsArray g t fe new ↔ g.bits.Storable new := by
  constructor
  · intro h
    have hread := h.same fe rfl
    rw [getEntry_eq, entGet] at hread
    split at hread
    next => exact .inr hread.symm
    next hlow => exact .inl (by omega)
  · intro h
    refine ⟨fun fe' hentry => ?_, fun fe' hentry => ?_, fun hbits e => ?_, fun n fe' hnext => ?_⟩
    · rw [getEntry_eq, putEntry_eq, hentry, entGet_entPut_self t fe.entry h]
    · rw [getEntry_eq, getEntry_eq, putEntry_eq, entGet_entPut_of_ne t hentry h]
    · rw [putEntry_eq, hbits]
      rw [hbits] at h
      exact entPut_fat32_top t fe.entry e h
    · obtain ⟨hgood, hentry⟩ := good_nextTimes (good_fatEntReadBlock fe).1 hnext
      refine hgood.sameWindow (good_fatEntReadBlock _).1 ?_
      rw [hentry, (good_fatEntReadBlock fe).2, (good_fatEntReadBlock _).2]

/-- The largest FAT32 volume that `fat_fill_super` accepts. -/
def largestFat32 : Geometry where
  bits := .fat32
  blockBits := 9
  maxCluster := 0x0FFFFFF8
  limit := 0
  block_le := by decide
  start_le := by decide
  max_le := by decide

/-- It has a cluster whose number is read back as the end of a chain. -/
theorem fat_entries_bad_mark :
    FAT_START_ENT ≤ 0x0FFFFFF7 ∧ 0x0FFFFFF7 < largestFat32.maxCluster ∧
      getEntry largestFat32 (putEntry largestFat32 (fun _ => 0) ⟨2, .none, (0, 0)⟩ 0x0FFFFFF7)
        ⟨2, .none, (0, 0)⟩ = FAT_ENT_EOF := by
  decide

end R0Kernel.Fat
