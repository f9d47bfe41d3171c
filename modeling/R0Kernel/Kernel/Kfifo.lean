import Mathlib.Data.UInt
import Mathlib.Order.Lattice.Nat
import R0Kernel.Foundation.CellRing

/-!
# `struct kfifo`

The byte queue of `kernel/kfifo.c`: a ring with free-running counters of 32 bits. Its size is a
power of two, so that a counter that wraps stays at its place in the ring. The queue of the bytes
between `out` and `in` behaves as a queue of at most `size` bytes.
-/

namespace R0Kernel

open CellRing

/-- `struct kfifo`, with `inPos` and `outPos` for the fields `in` and `out`. A buffer is what is in
memory from its address on. -/
structure Kfifo where
  buffer : Nat → UInt8
  size : UInt32
  inPos : UInt32
  outPos : UInt32

namespace Kfifo

abbrev Byte := UInt8

abbrev Mem := Nat → Byte

inductive Err where
  | nomem

/-! ### Making a queue -/

def isPowerOf2 (n : UInt32) : Bool := n != 0 && n &&& (n - 1) == 0

/-- The place of the last bit that is set, from one on. -/
def fls (n : UInt32) : Nat := if n = 0 then 0 else n.toNat.log2 + 1

def roundupPowOfTwo (n : UInt32) : UInt32 := UInt32.ofNat (1 <<< fls (n - 1))

/-- `kfifo_init`, with what `kmalloc` does. There is no result where a `BUG_ON` is hit. -/
def kfifoInit (buffer : Mem) (size : UInt32) (granted : Bool) : Option (Except Err Kfifo) :=
  if !isPowerOf2 size then none
  else if !granted then some (.error .nomem)
  else some (.ok ⟨buffer, size, 0, 0⟩)

/-- `kfifo_alloc`, with the buffer that `kmalloc` returns. -/
def kfifoAlloc (size : UInt32) (memory : Option Mem) (granted : Bool) : Option (Except Err Kfifo) :=
  if size &&& (size - 1) ≠ 0 ∧ 0x80000000 < size then none
  else
    let size := if size &&& (size - 1) ≠ 0 then roundupPowOfTwo size else size
    match memory with
    | none => some (.error .nomem)
    | some buffer => kfifoInit buffer size granted

/-! ### Putting and getting -/

def place (fifo : Kfifo) (counter : UInt32) : UInt32 := counter &&& (fifo.size - 1)

def kfifoPut (fifo : Kfifo) (buffer : Mem) (len : UInt32) : UInt32 × Kfifo :=
  let len := min len (fifo.size - fifo.inPos + fifo.outPos)
  -- first put the data starting from `in` to the buffer end, then the rest at the beginning
  let l := min len (fifo.size - fifo.place fifo.inPos)
  let first := copy fifo.buffer (fifo.place fifo.inPos).toNat buffer 0 l.toNat
  let second := copy first 0 buffer l.toNat (len - l).toNat
  (len, { fifo with buffer := second, inPos := fifo.inPos + len })

/-- `__kfifo_get`: the number of bytes, and the buffer of the caller with them. -/
def kfifoGet (fifo : Kfifo) (buffer : Mem) (len : UInt32) : (UInt32 × Mem) × Kfifo :=
  let len := min len (fifo.inPos - fifo.outPos)
  let l := min len (fifo.size - fifo.place fifo.outPos)
  let first := copy buffer 0 fifo.buffer (fifo.place fifo.outPos).toNat l.toNat
  let second := copy first l.toNat fifo.buffer 0 (len - l).toNat
  ((len, second), { fifo with outPos := fifo.outPos + len })

/-! ### The sizes -/

/-- A size that a queue can have. -/
def Produced (size : UInt32) : Prop :=
  ∃ fifo : Kfifo, fifo.size = size ∧
    ((∃ buffer granted, kfifoInit buffer size granted = some (.ok fifo)) ∨
      ∃ asked memory granted, kfifoAlloc asked memory granted = some (.ok fifo))

lemma two_pow_of_isPowerOf2 {n : UInt32} (h : isPowerOf2 n = true) : ∃ k, n.toNat = 2 ^ k := by
  simp only [isPowerOf2, Bool.and_eq_true, bne_iff_ne, beq_iff_eq] at h
  obtain ⟨hne, hand⟩ := h
  have hne' : n.toNat ≠ 0 := fun h => hne (UInt32.toNat_inj.mp h)
  have hone : (1 : UInt32) ≤ n := UInt32.le_iff_toNat_le.mpr (Nat.one_le_iff_ne_zero.mpr hne')
  have hand := congrArg UInt32.toNat hand
  rw [UInt32.toNat_and, UInt32.toNat_sub_of_le _ _ hone] at hand
  exact (Nat.and_sub_one_eq_zero_iff_isPowerOfTwo hne').mp hand

lemma isPowerOf2_of_kfifoInit {buffer : Mem} {size : UInt32} {granted : Bool} {fifo : Kfifo}
    (h : kfifoInit buffer size granted = some (.ok fifo)) : isPowerOf2 size = true ∧
      fifo.size = size := by
  cases hpow : isPowerOf2 size with
  | false => simp [kfifoInit, hpow] at h
  | true =>
    cases granted with
    | false => simp [kfifoInit, hpow] at h
    | true =>
      simp only [kfifoInit, hpow, Bool.not_true, Bool.false_eq_true, if_false, Option.some.injEq,
        Except.ok.injEq] at h
      exact ⟨rfl, by rw [← h]⟩

lemma Produced.exists_two_pow {size : UInt32} (h : Produced size) : ∃ k, size.toNat = 2 ^ k := by
  obtain ⟨fifo, rfl, ⟨buffer, granted, hinit⟩ | ⟨asked, memory, granted, halloc⟩⟩ := h
  · exact two_pow_of_isPowerOf2 (isPowerOf2_of_kfifoInit hinit).1
  · rw [kfifoAlloc] at halloc
    split_ifs at halloc
    all_goals
      cases memory with
      | none => simp at halloc
      | some buffer =>
        obtain ⟨hpow, hsize⟩ := isPowerOf2_of_kfifoInit halloc
        exact two_pow_of_isPowerOf2 (hsize ▸ hpow)

/-! ### The queue -/

/-- The size is a power of two, and no more bytes than that are in the queue. -/
structure Ok (fifo : Kfifo) : Prop where
  size_eq : ∃ k, fifo.size.toNat = 2 ^ k
  sub_le : fifo.inPos - fifo.outPos ≤ fifo.size

def used (fifo : Kfifo) : Nat := (fifo.inPos - fifo.outPos).toNat

/-- The bytes in the queue, the oldest first. -/
def contents (fifo : Kfifo) : List Byte :=
  stretch fifo.buffer fifo.size.toNat fifo.outPos.toNat fifo.used

variable {fifo : Kfifo}

lemma length_contents (fifo : Kfifo) : fifo.contents.length = fifo.used := length_stretch ..

section

variable (h : fifo.Ok)

include h

lemma Ok.used_le : fifo.used ≤ fifo.size.toNat := UInt32.le_iff_toNat_le.mp h.sub_le

lemma Ok.toNat_place (counter : UInt32) :
    (fifo.place counter).toNat = counter.toNat % fifo.size.toNat := by
  obtain ⟨k, hk⟩ := h.size_eq
  have hone : (1 : UInt32) ≤ fifo.size :=
    UInt32.le_iff_toNat_le.mpr (by rw [hk]; exact Nat.one_le_two_pow)
  rw [place, UInt32.toNat_and, UInt32.toNat_sub_of_le _ _ hone, hk]
  exact Nat.and_two_pow_sub_one_eq_mod _ _

/-- A counter that wraps stays at its place. -/
lemma Ok.add_mod (a b : UInt32) :
    (a + b).toNat % fifo.size.toNat = (a.toNat + b.toNat) % fifo.size.toNat := by
  obtain ⟨k, hk⟩ := h.size_eq
  have hle : k ≤ 32 := by
    have hlt := fifo.size.toNat_lt
    rw [hk] at hlt
    exact Nat.le_of_lt ((Nat.pow_lt_pow_iff_right (by decide)).mp hlt)
  rw [UInt32.toNat_add, hk, Nat.mod_mod_of_dvd _ (Nat.pow_dvd_pow 2 hle)]

/-- The new counter is at the end of the queue. -/
lemma Ok.in_mod :
    fifo.inPos.toNat % fifo.size.toNat = (fifo.outPos.toNat + fifo.used) % fifo.size.toNat := by
  have hin : fifo.outPos + (fifo.inPos - fifo.outPos) = fifo.inPos := by
    rw [UInt32.add_comm, UInt32.sub_add_cancel]
  rw [Kfifo.used, ← h.add_mod, hin]

/-- The bytes of a transfer up to the end of the buffer. -/
lemma Ok.untilEnd_eq (counter len : UInt32) :
    (min len (fifo.size - fifo.place counter)).toNat =
      untilEnd fifo.size.toNat counter.toNat len.toNat := by
  obtain ⟨k, hk⟩ := h.size_eq
  have hlt : (fifo.place counter).toNat < fifo.size.toNat := by
    rw [h.toNat_place]
    exact Nat.mod_lt _ (by rw [hk]; exact Nat.two_pow_pos k)
  rw [UInt32.toNat_min, UInt32.toNat_sub_of_le _ _ (UInt32.le_iff_toNat_le.mpr hlt.le),
    h.toNat_place, untilEnd]

lemma Ok.toNat_room :
    (fifo.size - fifo.inPos + fifo.outPos).toNat = fifo.size.toNat - fifo.used := by
  have hroom : fifo.size - fifo.inPos + fifo.outPos = fifo.size - (fifo.inPos - fifo.outPos) := by
    grind
  rw [hroom, UInt32.toNat_sub_of_le _ _ h.sub_le, Kfifo.used]

end

lemma toNat_sub_min (a b : UInt32) : (a - min a b).toNat = a.toNat - (min a b).toNat := by
  apply UInt32.toNat_sub_of_le
  rw [UInt32.le_iff_toNat_le, UInt32.toNat_min]
  exact Nat.min_le_left ..

/-- `n` bytes are put behind the queue. -/
def stored (fifo : Kfifo) (buffer : Mem) (n : UInt32) : Kfifo :=
  { fifo with
    buffer := store fifo.buffer fifo.size.toNat fifo.inPos.toNat buffer n.toNat
    inPos := fifo.inPos + n }

/-- `n` bytes are taken from the front of the queue. -/
def dropped (fifo : Kfifo) (n : UInt32) : Kfifo := { fifo with outPos := fifo.outPos + n }

lemma Ok.kfifoPut_eq (h : fifo.Ok) (buffer : Mem) (len : UInt32) :
    ∃ n : UInt32, n.toNat = min len.toNat (fifo.size.toNat - fifo.used) ∧
      kfifoPut fifo buffer len = (n, fifo.stored buffer n) := by
  refine ⟨min len (fifo.size - fifo.inPos + fifo.outPos), by rw [UInt32.toNat_min, h.toNat_room],
    ?_⟩
  simp only [kfifoPut, stored, store, ← h.untilEnd_eq, h.toNat_place]
  rw [toNat_sub_min]

lemma Ok.kfifoGet_eq (h : fifo.Ok) (buffer : Mem) (len : UInt32) :
    ∃ n : UInt32, n.toNat = min len.toNat fifo.used ∧
      kfifoGet fifo buffer len =
        ((n, fetch buffer fifo.buffer fifo.size.toNat fifo.outPos.toNat n.toNat),
          fifo.dropped n) := by
  refine ⟨min len (fifo.inPos - fifo.outPos), by rw [UInt32.toNat_min, Kfifo.used], ?_⟩
  simp only [kfifoGet, dropped, fetch, ← h.untilEnd_eq, h.toNat_place]
  rw [toNat_sub_min]

section Transfers

variable {n : UInt32}

lemma used_stored (buffer : Mem) (hn : fifo.used + n.toNat ≤ fifo.size.toNat) :
    (fifo.stored buffer n).used = fifo.used + n.toNat := by
  have hsub : fifo.inPos + n - fifo.outPos = fifo.inPos - fifo.outPos + n := by grind
  rw [Kfifo.used, stored, hsub, UInt32.toNat_add, ← Kfifo.used,
    Nat.mod_eq_of_lt (hn.trans_lt fifo.size.toNat_lt)]

lemma Ok.contents_stored (h : fifo.Ok) (buffer : Mem) (hn : fifo.used + n.toNat ≤ fifo.size.toNat) :
    (fifo.stored buffer n).contents = fifo.contents ++ (List.range n.toNat).map buffer := by
  rw [contents, used_stored buffer hn, contents, ← stretch_store hn]
  simp only [stored, store, untilEnd, h.in_mod]

lemma used_dropped (hn : n.toNat ≤ fifo.used) : (fifo.dropped n).used = fifo.used - n.toNat := by
  have hsub : fifo.inPos - (fifo.outPos + n) = fifo.inPos - fifo.outPos - n := by grind
  rw [Kfifo.used, dropped, hsub, UInt32.toNat_sub_of_le _ _ (UInt32.le_iff_toNat_le.mpr hn),
    Kfifo.used]

lemma Ok.contents_dropped (h : fifo.Ok) (hn : n.toNat ≤ fifo.used) :
    (fifo.dropped n).contents = fifo.contents.drop n.toNat := by
  rw [contents, used_dropped hn, contents, drop_stretch hn]
  exact stretch_congr (h.add_mod ..)

end Transfers

/-! ### Bounded queues -/

/-- The calls on a queue, with the buffer of the caller. -/
inductive Op where
  | put (buffer : Mem) (len : UInt32)
  | get (buffer : Mem) (len : UInt32)

/-- What a call returns, the buffer of the caller after it, and the queue. -/
def exec (fifo : Kfifo) : Op → (UInt32 × Mem) × Kfifo
  | .put buffer len =>
    let (n, fifo) := kfifoPut fifo buffer len
    ((n, buffer), fifo)
  | .get buffer len => kfifoGet fifo buffer len

def run (fifo : Kfifo) : List Op → List (UInt32 × Mem) × Kfifo
  | [] => ([], fifo)
  | op :: ops =>
    let (result, fifo) := fifo.exec op
    let (results, fifo) := run fifo ops
    (result :: results, fifo)

/-- A buffer with the bytes of a list at its beginning. -/
def fill (buffer : Mem) (bytes : List Byte) : Mem := fun i => bytes.getD i (buffer i)

/-- A queue of at most `size` bytes. -/
def queueExec (size : Nat) (q : List Byte) : Op → (Nat × Mem) × List Byte
  | .put buffer len =>
    let n := min len.toNat (size - q.length)
    ((n, buffer), q ++ (List.range n).map buffer)
  | .get buffer len =>
    let n := min len.toNat q.length
    ((n, fill buffer (q.take n)), q.drop n)

def queueRun (size : Nat) (q : List Byte) : List Op → List (Nat × Mem) × List Byte
  | [] => ([], q)
  | op :: ops =>
    let (result, q) := queueExec size q op
    let (results, q) := queueRun size q ops
    (result :: results, q)

structure Serves (fifo fifo' : Kfifo) (op : Op) (result : UInt32 × Mem) : Prop where
  ok : fifo'.Ok
  size : fifo'.size = fifo.size
  queue : queueExec fifo.size.toNat fifo.contents op = ((result.1.toNat, result.2), fifo'.contents)
  outside : ∀ i, fifo.size.toNat ≤ i → fifo'.buffer i = fifo.buffer i

lemma Ok.exec_serves (h : fifo.Ok) (op : Op) :
    Serves fifo (fifo.exec op).2 op (fifo.exec op).1 := by
  have hle := h.used_le
  cases op with
  | put buffer len =>
    obtain ⟨n, hn, hput⟩ := h.kfifoPut_eq buffer len
    have hroom : fifo.used + n.toNat ≤ fifo.size.toNat := by omega
    have hok : (fifo.stored buffer n).used ≤ fifo.size.toNat := used_stored buffer hroom ▸ hroom
    simp only [exec, hput]
    refine ⟨⟨h.size_eq, UInt32.le_iff_toNat_le.mpr hok⟩, rfl, ?_, fun i hi =>
      store_of_le (by omega) hi⟩
    simp only [queueExec, length_contents, ← hn, h.contents_stored buffer hroom]
  | get buffer len =>
    obtain ⟨n, hn, hget⟩ := h.kfifoGet_eq buffer len
    have hfull : n.toNat ≤ fifo.used := by omega
    have hok : (fifo.dropped n).used ≤ fifo.size.toNat := by
      rw [used_dropped hfull]
      omega
    simp only [exec, hget]
    refine ⟨⟨h.size_eq, UInt32.le_iff_toNat_le.mpr hok⟩, rfl, ?_, fun _ _ => rfl⟩
    simp only [queueExec, length_contents, ← hn, h.contents_dropped hfull]
    congr 2
    funext i
    rw [fetch_apply (hfull.trans hle), fill, contents, take_stretch hfull]
    by_cases hi : i < n.toNat
    · simp [hi, stretch]
    · simp [hi, stretch]

/-- A queue whose size `kfifo_init` or `kfifo_alloc` can give it is a queue of at most `size` bytes:
calls return the numbers and the bytes that such a queue returns, whatever the counters are. -/
theorem kfifo_bounded_queue (fifo : Kfifo) (hsize : Produced fifo.size)
    (hused : fifo.inPos - fifo.outPos ≤ fifo.size) (ops : List Op) :
    (fifo.run ops).1.map (Prod.map UInt32.toNat id) =
        (queueRun fifo.size.toNat fifo.contents ops).1 ∧
      (fifo.run ops).2.contents = (queueRun fifo.size.toNat fifo.contents ops).2 ∧
      (fifo.run ops).2.inPos - (fifo.run ops).2.outPos ≤ fifo.size := by
  have hok : fifo.Ok := ⟨hsize.exists_two_pow, hused⟩
  clear hsize hused
  induction ops generalizing fifo with
  | nil => exact ⟨rfl, rfl, hok.sub_le⟩
  | cons op ops ih =>
    obtain ⟨hok', hsize, hqueue, -⟩ := hok.exec_serves op
    obtain ⟨hresults, hcontents, hused⟩ := ih _ hok'
    rw [hsize] at hresults hcontents hused
    simp only [run, queueRun, hqueue, List.map_cons, hresults, hcontents]
    exact ⟨rfl, trivial, hused⟩

/-- An empty queue of four bytes, with counters that are about to wrap. -/
def aboutToWrap : Kfifo := ⟨fun _ => 0, 4, 4294967295, 4294967295⟩

def putGet : List Op := [.put (fun i => UInt8.ofNat i) 7, .get (fun _ => 9) 3]

theorem kfifo_bounded_queue_wrap :
    (aboutToWrap.run putGet).2.contents = [3] ∧ (aboutToWrap.run putGet).2.outPos = 2 := by
  have hsize : Produced 4 := ⟨⟨fun _ => 0, 4, 0, 0⟩, rfl, .inr ⟨3, some fun _ => 0, true, rfl⟩⟩
  obtain ⟨-, hcontents, -⟩ := kfifo_bounded_queue aboutToWrap hsize (by decide) putGet
  exact ⟨hcontents.trans (by decide), by decide⟩

end Kfifo

end R0Kernel
