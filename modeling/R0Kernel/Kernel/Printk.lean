import Mathlib.Data.List.Basic
import Mathlib.Data.Nat.Bitwise
import Mathlib.Data.Nat.ModEq
import Mathlib.Order.Lattice.Nat

/-!
# Reading the kernel log

`emit_log_char` and the two commands of `do_syslog` that read the whole log, of `kernel/printk.c`.
The reader copies characters backwards from the end of the log and drops `logbuf_lock` after each.
Whatever is emitted meanwhile, what it returns is the end of the text emitted before it began.
-/

namespace R0Kernel.Printk

open List Function

/-- What `logbuf_lock` protects. The indices are `unsigned long`s that are taken not to wrap. -/
structure Log where
  logBuf : Nat → UInt8
  logStart : Nat
  conStart : Nat
  logEnd : Nat
  loggedChars : Nat

inductive Errno where
  | perm
  | inval
  | fault
  deriving DecidableEq

abbrev Buffer := Nat → UInt8

/-- What goes on around a call: what `security_syslog` and `access_ok` answer, the characters
emitted before the lock is taken and while it is dropped for the `i`-th time, and the accesses of
the two loops to user memory that fault. -/
structure Around where
  denied : Option Errno
  accessOk : Bool
  before : List UInt8
  during : Nat → List UInt8
  putFails : Nat → Bool
  moveFails : Nat → Bool

section Model

-- `log_buf_len` is `1 << shift`
variable (shift : Nat)

def logBufLen : Nat := 1 <<< shift

/-- The place of `LOG_BUF(idx)` in `log_buf`. -/
def place (idx : Nat) : Nat := idx &&& (logBufLen shift - 1)

def emitLogChar (s : Log) (c : UInt8) : Log :=
  let last := s.logEnd + 1
  { logBuf := update s.logBuf (place shift s.logEnd) c
    logStart := if last - s.logStart > logBufLen shift then last - logBufLen shift else s.logStart
    conStart := if last - s.conStart > logBufLen shift then last - logBufLen shift else s.conStart
    logEnd := last
    loggedChars := if s.loggedChars < logBufLen shift then s.loggedChars + 1 else s.loggedChars }

/-- The variables of the copying loop. -/
structure Reader where
  i : Nat
  log : Log
  buf : Buffer
  error : Bool

/-- A character is read under the lock and copied without it, while others are emitted. -/
def copyChar (w : Around) (limit left : Nat) (r : Reader) : Reader where
  i := r.i + 1
  log := (w.during r.i).foldl (emitLogChar shift) r.log
  buf :=
    if w.putFails r.i then r.buf
    else update r.buf left (r.log.logBuf (place shift (limit - 1 - r.i)))
  error := w.putFails r.i

/-- The loop that copies backwards, with what is left of `count`. -/
def copyLoop (w : Around) (limit : Nat) : Nat → Reader → Reader
  | 0, r => r
  | left + 1, r =>
    if r.error then r
    else if limit - 1 - r.i + logBufLen shift < r.log.logEnd then r
    else copyLoop w limit left (copyChar shift w limit left r)

/-- The loop that moves what has been copied to the beginning of the buffer, and whether an access
faulted. -/
def moveLoop (w : Around) (offset : Nat) : Nat → Nat → Buffer → Buffer × Bool
  | 0, _, buf => (buf, false)
  | left + 1, i, buf =>
    if w.moveFails i then (buf, true)
    else moveLoop w offset left (i + 1) (update buf i (buf (i + offset)))

/-- The commands 3 and, with `doClear`, 4, from `count = len` on. -/
def readAll (doClear : Bool) (w : Around) (buf : Buffer) (len : Nat) (s : Log) :
    Except Errno Nat × Log × Buffer :=
  let s := w.before.foldl (emitLogChar shift) s
  let count := min (min len (logBufLen shift)) s.loggedChars
  let limit := s.logEnd
  let s := if doClear then { s with loggedChars := 0 } else s
  let r := copyLoop shift w limit count ⟨0, s, buf, false⟩
  if r.error then (.error .fault, r.log, r.buf)
  else if r.i ≠ count then
    let moved := moveLoop w (count - r.i) r.i 0 r.buf
    (if moved.2 then .error .fault else .ok r.i, r.log, moved.1)
  else (.ok r.i, r.log, r.buf)

def doSyslog (doClear : Bool) (w : Around) (user : Option Buffer) (len : Int) (s : Log) :
    Except Errno Nat × Log × Option Buffer :=
  match w.denied, user with
  | some e, _ => (.error e, s, user)
  | none, none => (.error .inval, s, none)
  | none, some buf =>
    if len < 0 then (.error .inval, s, user)
    else if len = 0 then (.ok 0, s, user)
    else if !w.accessOk then (.error .fault, s, user)
    else
      let (res, s, buf) := readAll shift doClear w buf len.toNat s
      (res, s, some buf)

/-- What has happened to the log before: characters have been emitted, and it has been cleared. -/
inductive Event where
  | emit (c : UInt8)
  | clear

def Event.apply (s : Log) : Event → Log
  | emit c => emitLogChar shift s c
  | clear => { s with loggedChars := 0 }

/-- The log after the events, from the start of the system on. -/
def logAfter (events : List Event) : Log :=
  events.foldl (Event.apply shift) ⟨fun _ => 0, 0, 0, 0, 0⟩

def emitted (events : List Event) : List UInt8 :=
  events.filterMap fun
    | .emit c => some c
    | .clear => none

end Model

variable {shift : Nat} {s : Log} {text : List UInt8}

lemma place_eq (idx : Nat) : place shift idx = idx % logBufLen shift := by
  rw [place, logBufLen, Nat.one_shiftLeft, Nat.and_two_pow_sub_one_eq_mod]

/-- The log after `text` has been emitted: the ring holds its last characters. -/
structure Holds (shift : Nat) (s : Log) (text : List UInt8) : Prop where
  logEnd : s.logEnd = text.length
  logged : s.loggedChars ≤ text.length
  ring : ∀ j < text.length, text.length ≤ j + logBufLen shift →
    text[j]? = some (s.logBuf (place shift j))

lemma Holds.emit (h : Holds shift s text) (c : UInt8) :
    Holds shift (emitLogChar shift s c) (text ++ [c]) where
  logEnd := by rw [emitLogChar, h.logEnd, length_append, length_singleton]
  logged := by
    have hold := h.logged
    simp only [emitLogChar, length_append, length_singleton]
    split <;> omega
  ring := by
    intro j hj hroom
    rw [length_append, length_singleton] at hj hroom
    simp only [emitLogChar, h.logEnd]
    by_cases hlast : j = text.length
    · rw [hlast, update_self, getElem?_concat_length]
    · -- two places of the ring meet only at a distance of its length
      have hne : place shift j ≠ place shift text.length := by
        rw [place_eq, place_eq]
        intro hmeet
        have hdvd := (Nat.modEq_iff_dvd' (Nat.lt_succ_iff.mp hj)).mp hmeet
        have hle := Nat.le_of_dvd (by omega) hdvd
        omega
      rw [update_of_ne hne, getElem?_append_left (by omega)]
      exact h.ring j (by omega) (by omega)

lemma Holds.emitAll (h : Holds shift s text) (cs : List UInt8) :
    Holds shift (cs.foldl (emitLogChar shift) s) (text ++ cs) := by
  induction cs generalizing s text with
  | nil => simpa using h
  | cons c cs ih => simpa using ih (h.emit c)

lemma Holds.clear (h : Holds shift s text) : Holds shift { s with loggedChars := 0 } text :=
  ⟨h.logEnd, Nat.zero_le _, h.ring⟩

lemma holds_logAfter (events : List Event) :
    Holds shift (logAfter shift events) (emitted events) := by
  suffices hfrom : ∀ s text, Holds shift s text →
      Holds shift (events.foldl (Event.apply shift) s) (text ++ emitted events) from
    hfrom _ [] ⟨rfl, Nat.zero_le _, fun j hj => absurd hj (Nat.not_lt_zero j)⟩
  induction events with
  | nil => simp [emitted]
  | cons event events ih =>
    intro s text h
    cases event with
    | emit c => simpa [emitted, Event.apply] using ih _ _ (h.emit c)
    | clear => exact ih _ _ h.clear

/-- What the copying loop keeps: the log has only grown, and the characters copied so far stand at
the end of the buffer. -/
structure Copied (shift : Nat) (text : List UInt8) (count : Nat) (r : Reader) : Prop where
  log : ∃ more, Holds shift r.log (text ++ more)
  buf : r.error = false → ∀ k < r.i, text[text.length - 1 - k]? = some (r.buf (count - 1 - k))

variable {w : Around} {count : Nat} {r : Reader} {left : Nat} {buf : Buffer}

lemma Copied.step (h : Copied shift text count r) (hcount : r.i + (left + 1) = count)
    (hle : count ≤ text.length) (herror : r.error = false)
    (hkept : r.log.logEnd ≤ text.length - 1 - r.i + logBufLen shift) :
    Copied shift text count (copyChar shift w text.length left r) := by
  obtain ⟨more, hlog⟩ := h.log
  refine ⟨⟨more ++ w.during r.i, ?_⟩, ?_⟩
  · rw [← append_assoc]
    exact hlog.emitAll _
  · intro hput k hk
    have hput : w.putFails r.i = false := hput
    have hk : k < r.i + 1 := hk
    simp only [copyChar, hput, Bool.false_eq_true, if_false]
    have hplace : count - 1 - k = left ↔ k = r.i := by omega
    by_cases hlast : k = r.i
    · subst hlast
      have hin := hlog.ring (text.length - 1 - r.i) (by rw [length_append]; omega)
        (by rw [← hlog.logEnd]; exact hkept)
      rw [getElem?_append_left (by omega)] at hin
      rw [hin, hplace.mpr rfl, update_self]
    · rw [update_of_ne fun heq => hlast (hplace.mp heq)]
      exact h.buf herror k (by omega)

lemma copyLoop_spec {limit : Nat} (h : Copied shift text count r) (hlimit : limit = text.length)
    (hcount : r.i + left = count) (hle : count ≤ text.length) :
    let r' := copyLoop shift w limit left r
    Copied shift text count r' ∧ r'.i ≤ count ∧
      (r'.error = false → r'.i < count →
        text.length - 1 - r'.i + logBufLen shift < r'.log.logEnd) := by
  subst hlimit
  induction left generalizing r with
  | zero => exact ⟨h, hcount.le, fun _ hlt => absurd hlt (by simp [copyLoop]; omega)⟩
  | succ left ih =>
    simp only [copyLoop]
    split_ifs with herror hover
    · exact ⟨h, by omega, fun hok => by simp [herror] at hok⟩
    · exact ⟨h, by omega, fun _ _ => hover⟩
    · apply ih (h.step hcount hle (by simpa using herror) (Nat.le_of_not_lt hover))
      rw [← hcount, copyChar, Nat.add_assoc, Nat.add_comm 1]

/-- Moving down never reads a place that has been written. -/
lemma moveLoop_spec {offset i : Nat} (h : (moveLoop w offset left i buf).2 = false) (k : Nat) :
    (moveLoop w offset left i buf).1 k =
      if i ≤ k ∧ k < i + left then buf (k + offset) else buf k := by
  induction left generalizing i buf with
  | zero => rw [moveLoop, if_neg (by omega)]
  | succ left ih =>
    rw [moveLoop] at h ⊢
    by_cases hfault : w.moveFails i = true
    · simp [hfault] at h
    · simp only [hfault, Bool.false_eq_true, if_false] at h ⊢
      rw [ih h]
      by_cases hk : k = i
      · simp [hk]
      · have hne : i + 1 ≤ k → k + offset ≠ i := by omega
        rw [update_of_ne hk]
        split_ifs with h₁ h₂ h₂
        · rw [update_of_ne (hne h₁.1)]
        · omega
        · omega
        · rfl

/-- What a reader of `text` returns: the end of it, as much as was asked for or as has not been
overwritten meanwhile, the character before it being the first that is lost. -/
structure ReadsEnd (shift : Nat) (text : List UInt8) (count n : Nat) (s' : Log) (buf : Buffer) :
    Prop where
  le_count : n ≤ count
  count_le : count ≤ text.length
  buf : ∀ k < n, text[text.length - n + k]? = some (buf k)
  overwritten : n < count → text.length ≤ text.length - 1 - n + logBufLen shift ∧
    text.length - 1 - n + logBufLen shift < s'.logEnd

lemma readAll_spec (h : Holds shift s text) {doClear : Bool} {buf' : Buffer} {len n : Nat}
    {s' : Log} (hread : readAll shift doClear w buf len s = (.ok n, s', buf')) :
    ReadsEnd shift (text ++ w.before)
      (min (min len (logBufLen shift)) (w.before.foldl (emitLogChar shift) s).loggedChars)
      n s' buf' := by
  have hlog := h.emitAll w.before
  simp only [readAll] at hread
  generalize w.before.foldl (emitLogChar shift) s = u at hread hlog ⊢
  generalize text ++ w.before = text at hlog ⊢
  have hlogged := hlog.logged
  generalize hcount : min (min len (logBufLen shift)) u.loggedChars = count at hread ⊢
  have hle : count ≤ text.length := by omega
  have hstart : Copied shift text count
      ⟨0, if doClear then { u with loggedChars := 0 } else u, buf, false⟩ := by
    refine ⟨⟨[], ?_⟩, fun _ k hk => absurd hk (Nat.not_lt_zero k)⟩
    rw [append_nil]
    cases doClear
    · exact hlog
    · exact hlog.clear
  obtain ⟨hcopied, hi, hover⟩ := copyLoop_spec (w := w) hstart hlog.logEnd (Nat.zero_add count) hle
  generalize copyLoop shift w u.logEnd count _ = r at hread hcopied hi hover
  -- moved down or not, the characters begin the buffer that is returned
  have hres : r.error = false ∧ r.i = n ∧ r.log = s' ∧
      ∀ k < r.i, buf' k = r.buf (k + (count - r.i)) := by
    split_ifs at hread with herror hmove hfault
    · cases hread
    · cases hread
    · cases hread
      refine ⟨by simpa using herror, rfl, rfl, fun k hk => ?_⟩
      rw [moveLoop_spec (by simpa using hfault), if_pos (by omega)]
    · cases hread
      refine ⟨by simpa using herror, rfl, rfl, fun k hk => ?_⟩
      rw [not_not.mp hmove, Nat.sub_self, Nat.add_zero]
  obtain ⟨herror, rfl, rfl, hbuf⟩ := hres
  refine ⟨hi, hle, fun k hk => ?_, fun hlt => ⟨by omega, hover herror hlt⟩⟩
  have hchar := hcopied.buf herror (r.i - 1 - k) (by omega)
  have hfrom : text.length - 1 - (r.i - 1 - k) = text.length - r.i + k := by omega
  have hto : count - 1 - (r.i - 1 - k) = k + (count - r.i) := by omega
  rwa [hfrom, hto, ← hbuf k hk] at hchar

/-- Whatever has happened before and whatever is emitted meanwhile, a reading of the log that does
not fail returns the end of the text emitted before it began. -/
theorem do_syslog_reads_end (shift : Nat) (events : List Event) (doClear : Bool) (w : Around)
    (user : Option Buffer) (len : Int) (n : Nat)
    (h : (doSyslog shift doClear w user len (logAfter shift events)).1 = .ok n) :
    let result := doSyslog shift doClear w user len (logAfter shift events)
    let start := w.before.foldl (emitLogChar shift) (logAfter shift events)
    ∃ buf, result.2.2 = some buf ∧ ReadsEnd shift (emitted events ++ w.before)
      (min (min len.toNat (logBufLen shift)) start.loggedChars) n result.2.1 buf := by
  have hlog : Holds shift _ _ := holds_logAfter events
  simp only [doSyslog] at h ⊢
  cases hdenied : w.denied with
  | some e => simp [hdenied] at h
  | none =>
    cases user with
    | none => simp [hdenied] at h
    | some buf =>
      simp only [hdenied] at h ⊢
      split_ifs at h ⊢ with hneg hzero haccess
      · cases h
        exact ⟨buf, rfl, Nat.zero_le _, by simp [hzero], nofun, by simp [hzero]⟩
      · exact ⟨_, rfl, readAll_spec hlog (Prod.ext h rfl)⟩

/-- A reader asks for two characters of a log with room for two, and another one is emitted as soon
as it has copied the first. -/
def overtaken : Except Errno Nat × Log × Option Buffer :=
  doSyslog 1 false ⟨none, true, [], fun _ => [100], fun _ => false, fun _ => false⟩
    (some fun _ => 0) 2 (logAfter 1 [.emit 97, .emit 98, .emit 99])

theorem do_syslog_reads_end_overtaken : overtaken.1 = .ok 1 ∧
    ∃ buf, overtaken.2.2 = some buf ∧ ReadsEnd 1 [97, 98, 99] 2 1 overtaken.2.1 buf :=
  ⟨rfl, do_syslog_reads_end 1 [.emit 97, .emit 98, .emit 99] _ _ _ _ _ rfl⟩

end R0Kernel.Printk
