import R0Kernel.Fs.Locks.PosixLock

/-! # Lock requests of 32 and of 64 bits

`flock_to_posix_lock` and `flock64_to_posix_lock` of `fs/locks.c`. The two differ in the type in
which they compute, `off_t` of 32 bits and `loff_t` of 64. The file position and the size are
`loff_t`s, and the first function cuts them off.
-/

namespace R0Kernel.Fs.Locks

structure Flock64 where
  type : Int
  whence : Int
  start : Int
  len : Int

/-- A `struct flock`, whose offsets are of 32 bits. -/
structure Flock extends Flock64 where
  start_fits : -2 ^ 31 ≤ start ∧ start < 2 ^ 31
  len_fits : -2 ^ 31 ≤ len ∧ len < 2 ^ 31

/-- The two `loff_t`s of an open file. A driver for memory stores addresses in `f_pos`, which may be
negative as an offset. -/
structure File where
  fPos : Int
  iSize : Int
  fPos_fits : -2 ^ 63 ≤ fPos ∧ fPos < 2 ^ 63
  iSize_fits : -2 ^ 63 ≤ iSize ∧ iSize < 2 ^ 63

inductive FlockErrno where
  | einval
  | eoverflow

/-- `fl_type`, `fl_start` and `fl_end`. -/
structure Range where
  type : LockType
  start : Int
  stop : Int

/-- Where the offset counts from. -/
def File.base (f : File) : Int → Except FlockErrno Int
  | 0 => .ok 0
  | 1 => .ok f.fPos
  | 2 => .ok f.iSize
  | _ => .error .einval

def assignType : Int → Except FlockErrno LockType
  | 0 => .ok .rdlck
  | 1 => .ok .wrlck
  | 2 => .ok .unlck
  | _ => .error .einval

/-- The value of `x` in a signed type with the values from `-half` to below `half`. -/
def signed (half x : Int) : Int := (x + half) % (2 * half) - half

section Convert

variable (half : Int)

/-- The first and the last byte, from the start that the request names. -/
def extent (start len : Int) : Except FlockErrno (Int × Int) :=
  if 0 < len then .ok (start, signed half (start + len - 1))
  else if len < 0 then
    if signed half (start + len) < 0 then .error .einval
    else .ok (signed half (start + len), signed half (start - 1))
  else .ok (start, offsetMax)

def toPosixLock (f : File) (l : Flock64) : Except FlockErrno Range := do
  let base ← f.base l.whence
  let start := signed half (signed half base + l.start)
  if start < 0 then throw .einval
  let (start, stop) ← extent half start l.len
  if stop < start then throw .eoverflow
  return ⟨← assignType l.type, start, stop⟩

end Convert

def flockToPosixLock (f : File) (l : Flock) : Except FlockErrno Range :=
  toPosixLock (2 ^ 31) f l.toFlock64

def flock64ToPosixLock (f : File) (l : Flock64) : Except FlockErrno Range :=
  toPosixLock (2 ^ 63) f l

lemma toPosixLock_eq_ok {half : Int} {f : File} {l : Flock64} {r : Range} :
    toPosixLock half f l = .ok r ↔ ∃ base, f.base l.whence = .ok base ∧
      0 ≤ signed half (signed half base + l.start) ∧
      extent half (signed half (signed half base + l.start)) l.len = .ok (r.start, r.stop) ∧
      r.start ≤ r.stop ∧ assignType l.type = .ok r.type := by
  obtain ⟨type, first, last⟩ := r
  unfold toPosixLock
  cases f.base l.whence with
  | error => exact iff_of_false nofun nofun
  | ok base =>
  simp only [Except.ok.injEq, exists_eq_left', bind, Except.bind, throw, throwThe,
    MonadExceptOf.throw]
  generalize signed half (signed half base + l.start) = start
  by_cases hstart : start < 0
  · simp [hstart, not_le.mpr hstart]
  cases extent half start l.len with
  | error => simp [hstart]
  | ok ends =>
  cases assignType l.type with
  | error =>
    simp [hstart]
    split_ifs <;> simp
  | ok =>
    simp [hstart, pure, Except.pure, Prod.ext_iff]
    split_ifs <;> simp <;> grind

lemma File.base_fits {f : File} {whence base : Int} (h : f.base whence = .ok base) :
    -2 ^ 63 ≤ base ∧ base < 2 ^ 63 := by
  unfold File.base at h
  split at h <;> cases h
  · decide
  · exact f.fPos_fits
  · exact f.iSize_fits

lemma extent_start {half s len x y : Int} (hhalf : half = 2 ^ 31 ∨ half = 2 ^ 63)
    (hs : 0 ≤ s ∧ s < half) (hlen : -2 ^ 31 ≤ len) (h : extent half s len = .ok (x, y)) :
    x = s + min len 0 := by
  unfold extent signed at h
  obtain rfl | rfl := hhalf <;> split_ifs at h <;> cases h <;> omega

lemma extent_widen {s len x y : Int} (hs : 0 ≤ s ∧ s < 2 ^ 31)
    (hlen : -2 ^ 31 ≤ len ∧ len < 2 ^ 31) (h : extent (2 ^ 31) s len = .ok (x, y)) (hxy : x ≤ y) :
    extent (2 ^ 63) s len = .ok (x, y) := by
  unfold extent signed at *
  split_ifs at * <;> simp only [Except.ok.injEq, Prod.mk.injEq] at * <;> omega

/-- The 32-bit call fails or makes the lock that the 64-bit call makes. -/
def InterfacesAgree (f : File) (l : Flock) : Prop :=
  ∀ r, flockToPosixLock f l = .ok r → flock64ToPosixLock f l.toFlock64 = .ok r

theorem flock_agrees_iff (f : File) (l : Flock) :
    InterfacesAgree f l ↔ ∀ r, flockToPosixLock f l = .ok r →
      ∀ base, f.base l.whence = .ok base → 0 ≤ base + l.start ∧ base + l.start < 2 ^ 31 := by
  refine forall_congr' fun r => imp_congr_right fun h32 => ?_
  obtain ⟨base, hbase, hpos, hext, hle, htype⟩ := toPosixLock_eq_ok.mp h32
  have hfits := File.base_fits hbase
  have hstart := l.start_fits
  have hbelow : signed (2 ^ 31) (signed (2 ^ 31) base + l.start) < 2 ^ 31 := by
    unfold signed
    omega
  constructor
  · intro h64 base' hbase'
    cases hbase.symm.trans hbase'
    obtain ⟨base', hbase', hpos', hext', -⟩ := toPosixLock_eq_ok.mp h64
    cases hbase.symm.trans hbase'
    -- both starts are the one of the lock, moved by the same length
    have hfirst := extent_start (.inl rfl) ⟨hpos, hbelow⟩ l.len_fits.1 hext
    have hfirst' := extent_start (.inr rfl) ⟨hpos', by unfold signed; omega⟩ l.len_fits.1 hext'
    unfold signed at *
    omega
  · intro hlow
    have hlow := hlow base hbase
    have hsame : signed (2 ^ 63) (signed (2 ^ 63) base + l.start) =
        signed (2 ^ 31) (signed (2 ^ 31) base + l.start) := by
      unfold signed at *
      omega
    refine toPosixLock_eq_ok.mpr ⟨base, hbase, ?_⟩
    rw [hsame]
    exact ⟨hpos, extent_widen ⟨hpos, hbelow⟩ l.len_fits hext hle, hle, htype⟩

/-- A read lock of the byte at the file position 2^32 becomes one of the first byte. -/
theorem flock_disagrees : ∃ (f : File) (l : Flock),
    flockToPosixLock f l = .ok ⟨.rdlck, 0, 0⟩ ∧
      flock64ToPosixLock f l.toFlock64 = .ok ⟨.rdlck, 2 ^ 32, 2 ^ 32⟩ ∧ ¬ InterfacesAgree f l := by
  refine ⟨⟨2 ^ 32, 0, by decide, by decide⟩, ⟨⟨0, 1, 0, 1⟩, by decide, by decide⟩, rfl, rfl, ?_⟩
  intro h
  cases h _ rfl

end R0Kernel.Fs.Locks
